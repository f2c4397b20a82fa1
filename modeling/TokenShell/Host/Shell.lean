import TokenShell.Dispatch.Basic

/-! A built-in shell for simple commands: words with quotes and variables, statements in a row, and
a handful of commands. Its exit status is the status line. -/
namespace TokenShell.Shell

/-- A part of a word. A variable outside double quotes is split into fields at blanks. -/
inductive Piece where
  | text (b : Bytes)
  | variable (name : Bytes) (quoted : Bool)
  deriving Repr, DecidableEq

abbrev Word := List Piece

/-- When a statement runs, after the one before it. -/
inductive Link where
  | always
  | onSuccess
  | onFailure
  deriving Repr, DecidableEq

inductive Lexeme where
  | word (w : Word)
  | link (l : Link)
  | toErrors
  deriving Repr, DecidableEq

def isBlank (b : UInt8) : Bool := b = 0x20 || b = 0x09 || b = 0x0a

def isNameByte (b : UInt8) : Bool :=
  b = 0x5f || (0x61 ≤ b && b ≤ 0x7a) || (0x41 ≤ b && b ≤ 0x5a) || Bytes.isDigit b

/-- The variable named after a dollar sign, and what follows the name. -/
def reference? (b : Bytes) : Option (Bytes × Bytes) :=
  match b with
  | 0x3f :: rest => some ([0x3f], rest)
  | 0x7b :: rest =>
    let name := rest.takeWhile isNameByte
    match rest.drop name.length with
    | 0x7d :: rest => some (name, rest)
    | _ => none
  | _ =>
    let name := b.takeWhile isNameByte
    if name.isEmpty then none else some (name, b.drop name.length)

/-- The pieces up to the closing double quote, and what follows it. `fuel` bounds the bytes. -/
def doubleQuoted : Nat → Bytes → Word × Bytes
  | 0, b => ([], b)
  | fuel + 1, b =>
    let cons (p : Piece) (rest : Bytes) : Word × Bytes :=
      let (w, rest) := doubleQuoted fuel rest
      (p :: w, rest)
    match b with
    | [] => ([], [])
    | 0x22 :: rest => ([], rest)
    | 0x5c :: c :: rest =>
      if c = 0x24 || c = 0x60 || c = 0x22 || c = 0x5c then cons (.text [c]) rest
      else if c = 0x0a then cons (.text []) rest
      else cons (.text [0x5c, c]) rest
    | 0x24 :: rest =>
      match reference? rest with
      | some (name, rest) => cons (.variable name true) rest
      | none => cons (.text [0x24]) rest
    | c :: rest => cons (.text [c]) rest

/-- The lexemes of a command line; `w` is the word under way. `fuel` bounds the bytes. -/
def lex : Nat → Option Word → Bytes → List Lexeme
  | 0, _, _ => []
  | fuel + 1, w, b =>
    let done : List Lexeme := (w.map Lexeme.word).toList
    let more (p : Word) : Option Word := some (w.getD [] ++ p)
    match b with
    | [] => done
    | 0x26 :: 0x26 :: rest => done ++ .link .onSuccess :: lex fuel none rest
    | 0x7c :: 0x7c :: rest => done ++ .link .onFailure :: lex fuel none rest
    | 0x3e :: 0x26 :: 0x32 :: rest => done ++ .toErrors :: lex fuel none rest
    | 0x3b :: rest | 0x0a :: rest => done ++ .link .always :: lex fuel none rest
    | 0x27 :: rest =>
      let text := rest.takeWhile (· != 0x27)
      lex fuel (more [.text text]) (rest.drop (text.length + 1))
    | 0x22 :: rest =>
      let (p, rest) := doubleQuoted (rest.length + 1) rest
      lex fuel (more (.text [] :: p)) rest
    | 0x5c :: c :: rest => lex fuel (more [.text [c]]) rest
    | 0x24 :: rest =>
      match reference? rest with
      | some (name, rest) => lex fuel (more [.variable name false]) rest
      | none => lex fuel (more [.text [0x24]]) rest
    | c :: rest =>
      if isBlank c then done ++ lex fuel none rest
      else if c = 0x23 && w.isNone then lex fuel none (rest.dropWhile (· != 0x0a))
      else lex fuel (more [.text [c]]) rest

structure Statement where
  link : Link
  words : List Word := []
  toErrors : Bool := false
  deriving Repr

/-- Lexemes cut into statements at the links between them. -/
def statements (s : Statement) : List Lexeme → List Statement
  | [] => [s]
  | .word w :: rest => statements { s with words := s.words ++ [w] } rest
  | .toErrors :: rest => statements { s with toErrors := true } rest
  | .link l :: rest => s :: statements { link := l } rest

def parse (command : Bytes) : List Statement :=
  statements { link := .always } (lex (command.length + 1) none command)

/-- What commands work on. -/
structure State where
  stdin : Bytes := []
  environment : List (Bytes × Bytes) := []

/-- A command line while it runs. -/
structure Running where
  state : State
  status : Nat := 0
  exited : Bool := false
  notices : List Notice := []

def Running.lookup (r : Running) (name : Bytes) : Bytes :=
  if name = "?" then Bytes.decimal r.status else (r.state.environment.lookup name).getD []

/-- Fields made so far, the last one first, and the field under way. -/
structure Fields where
  done : List Bytes := []
  current : Option Bytes := none

def Fields.close (f : Fields) : Fields := { done := f.current.toList ++ f.done }

def Fields.add (f : Fields) (b : Bytes) : Fields :=
  { f with current := some (f.current.getD [] ++ b) }

def Fields.split (f : Fields) (value : Bytes) : Fields :=
  value.foldl (fun f c => if isBlank c then f.close else f.add [c]) f

/-- The fields of a word with its variables replaced. -/
def Running.expand (r : Running) (w : Word) : List Bytes :=
  let step (f : Fields) : Piece → Fields
    | .text b => f.add b
    | .variable name true => f.add (r.lookup name)
    | .variable name false => f.split (r.lookup name)
  (w.foldl step {}).close.done.reverse

def letterEscape? : UInt8 → Option UInt8
  | 0x61 => some 0x07
  | 0x62 => some 0x08
  | 0x66 => some 0x0c
  | 0x6e => some 0x0a
  | 0x72 => some 0x0d
  | 0x74 => some 0x09
  | 0x76 => some 0x0b
  | 0x5c => some 0x5c
  | _ => none

/-- One pass over a format: the text, the arguments left, and whether any was asked for. -/
def formatOnce : Bytes → List Bytes → Bytes × List Bytes × Bool
  | [], args => ([], args, false)
  | 0x5c :: c :: rest, args =>
    let (text, args, used) := formatOnce rest args
    match letterEscape? c with
    | some e => (e :: text, args, used)
    | none => (0x5c :: c :: text, args, used)
  | 0x25 :: 0x25 :: rest, args =>
    let (text, args, used) := formatOnce rest args
    (0x25 :: text, args, used)
  | 0x25 :: c :: rest, args =>
    let (text, left, _) := formatOnce rest (args.drop 1)
    let arg := args.head?.getD []
    if c = 0x64 then ((if arg.isEmpty then [0x30] else arg) ++ text, left, true)
    else (arg ++ text, left, true)
  | c :: rest, args =>
    let (text, args, used) := formatOnce rest args
    (c :: text, args, used)

/-- A format used again as long as arguments are left. `fuel` bounds the passes. -/
def format : Nat → Bytes → List Bytes → Bytes
  | 0, _, _ => []
  | fuel + 1, fmt, args =>
    let (text, left, used) := formatOnce fmt args
    if used && !left.isEmpty then text ++ format fuel fmt left else text

/-- Exit statuses are bytes. -/
def statusOf (b : Bytes) : Nat :=
  if !b.isEmpty && b.all Bytes.isDigit then
    b.foldl (fun n c => n * 10 + (c.toNat - 0x30)) 0 % 256
  else 2

namespace Running

def print (r : Running) (toErrors : Bool) (b : Bytes) : Running :=
  { r with notices := r.notices ++ [if toErrors then .err b else .out b], status := 0 }

/-- The name and value of an assignment. -/
def assignment? (b : Bytes) : Option (Bytes × Bytes) :=
  let name := b.takeWhile isNameByte
  match b.drop name.length with
  | 0x3d :: value => if name.isEmpty then none else some (name, value)
  | _ => none

/-- Runs a command given by its fields. -/
def execute (r : Running) (toErrors : Bool) : List Bytes → Running
  | [] => { r with status := 0 }
  | name :: args =>
    if name = "true" || name = ":" then { r with status := 0 }
    else if name = "false" then { r with status := 1 }
    else if name = "exit" then
      { r with status := (args.head?.map statusOf).getD r.status, exited := true }
    else if name = "echo" then
      match args with
      | first :: rest =>
        if first = "-n" then r.print toErrors (Bytes.join " " rest)
        else r.print toErrors (Bytes.join " " args ++ [Bytes.newline])
      | [] => r.print toErrors [Bytes.newline]
    else if name = "printf" then
      match args with
      | fmt :: rest => r.print toErrors (format (rest.length + 1) fmt rest)
      | [] => { r with status := 2 }
    else if name = "cat" && args.isEmpty then
      { r.print toErrors r.state.stdin with state := { r.state with stdin := [] } }
    else
      match assignment? name with
      | some entry =>
        { r with
          state := { r.state with environment := entry :: r.state.environment }
          status := 0 }
      | none =>
        { r with
          notices := r.notices ++ [.err (("sh: 1: " : Bytes) ++ name ++ (": not found\n" : Bytes))]
          status := 127 }

def runs (r : Running) : Link → Bool
  | .always => true
  | .onSuccess => r.status = 0
  | .onFailure => r.status ≠ 0

def step (r : Running) (s : Statement) : Running :=
  if r.exited || !r.runs s.link then r
  else if s.words.isEmpty then r
  else r.execute s.toErrors (s.words.flatMap r.expand)

end Running

/-- Runs a command line. -/
def run (command : Bytes) (s : State) : Running := (parse command).foldl Running.step { state := s }

/-- The programs known to be shells. -/
def known : List Bytes := ["sh", "bash", "dash", "/bin/sh", "/bin/bash", "/bin/dash"]

def missing (shell : Bytes) : Fault :=
  if shell.contains 0x2f then
    .plain (("fork/exec " : Bytes) ++ shell ++ (": no such file or directory" : Bytes))
  else
    .plain (("exec: " : Bytes) ++ Text.quoted shell ++
      (": executable file not found in $PATH" : Bytes))

/-- Runs a command in a shell; no name means `sh`. An exit status other than zero is no error. -/
def send (shell : Bytes) (cancelled : Bool) (command : Bytes) (s : State) : Reply × State :=
  let shell : Bytes := if shell.isEmpty then "sh" else shell
  let refuse (f : Fault) : Reply × State :=
    ({ answer := .error (.during (("run " : Bytes) ++ shell) f) }, s)
  if !known.contains shell then refuse (missing shell)
  else if cancelled then refuse .cancelled
  else
    let r := run command s
    ({ answer := .ok (Bytes.decimal r.status)
       notices := r.notices ++ [.shellFinished command r.status] },
      { s with stdin := r.state.stdin })

def dispatcher (shell : Bytes) : Dispatcher State := ⟨send shell⟩

end TokenShell.Shell
