import TokenShell.Config.Settings

/-! Settings in TOML: flat `key = value` lines with comments. -/
namespace TokenShell.Toml

/-- The values a setting can have; all others are told apart no further. -/
inductive Value where
  | text (b : Bytes)
  | switch (on : Bool)
  | other
  deriving Repr, DecidableEq

def isSpace (b : UInt8) : Bool := b = 0x20 || b = 0x09

def skip (b : Bytes) : Bytes := b.dropWhile isSpace

/-- The character with a hexadecimal number. -/
def numbered? (digits : Bytes) : Option Bytes := do
  let ds ← digits.mapM Bytes.hexDigit?
  let n := ds.foldl (fun n d => n * 16 + d) 0
  if n < 0xd800 || (0xdfff < n && n < 0x110000) then some (Bytes.ofScalar n) else none

/-- The character of a one-letter escape. -/
def escaped? : UInt8 → Option UInt8
  | 0x62 => some 0x08
  | 0x74 => some 0x09
  | 0x6e => some 0x0a
  | 0x66 => some 0x0c
  | 0x72 => some 0x0d
  | 0x22 => some 0x22
  | 0x5c => some 0x5c
  | _ => none

/-- A basic string after its opening quote, and what follows it. -/
def basicString? : Bytes → Option (Bytes × Bytes)
  | [] => none
  | 0x22 :: rest => some ([], rest)
  | 0x5c :: 0x75 :: a :: b :: c :: d :: rest => do
    let ch ← numbered? [a, b, c, d]
    let (text, rest) ← basicString? rest
    return (ch ++ text, rest)
  | 0x5c :: 0x55 :: a :: b :: c :: d :: e :: f :: g :: h :: rest => do
    let ch ← numbered? [a, b, c, d, e, f, g, h]
    let (text, rest) ← basicString? rest
    return (ch ++ text, rest)
  | 0x5c :: b :: rest => do
    let ch ← escaped? b
    let (text, rest) ← basicString? rest
    return (ch :: text, rest)
  | b :: rest =>
    if b = 0x5c || (b < 0x20 && b != 0x09) || b = 0x7f then none
    else do
      let (text, rest) ← basicString? rest
      return (b :: text, rest)

/-- A literal string after its opening quote, and what follows it. -/
def literalString? : Bytes → Option (Bytes × Bytes)
  | [] => none
  | 0x27 :: rest => some ([], rest)
  | b :: rest => do
    let (text, rest) ← literalString? rest
    return (b :: text, rest)

def isBare (b : UInt8) : Bool :=
  b = 0x5f || b = 0x2d || (0x61 ≤ b && b ≤ 0x7a) || (0x41 ≤ b && b ≤ 0x5a) || Bytes.isDigit b

/-- Nothing but blanks and a comment. -/
def isTail (b : Bytes) : Bool :=
  match skip b with
  | [] => true
  | c :: _ => c = 0x23

/-- Whether a word can be a number or a date. -/
def isNumeric (word : Bytes) : Bool :=
  let body : Bytes := match word with
    | 0x2b :: ds | 0x2d :: ds => ds
    | ds => ds
  body = "inf" || body = "nan" || body.head?.any Bytes.isDigit

/-- A value and what follows it on the line. -/
def value? (b : Bytes) : Option (Value × Bytes) :=
  match b with
  | 0x22 :: rest => (basicString? rest).map fun (t, rest) => (.text t, rest)
  | 0x27 :: rest => (literalString? rest).map fun (t, rest) => (.text t, rest)
  | 0x5b :: rest =>
    let inner := rest.takeWhile (· != 0x5d)
    if inner.length < rest.length then some (.other, rest.drop (inner.length + 1)) else none
  | _ =>
    let word := b.takeWhile fun c => isBare c || c = 0x2e || c = 0x2b || c = 0x3a
    let rest := b.drop word.length
    if word = "true" then some (.switch true, rest)
    else if word = "false" then some (.switch false, rest)
    else if isNumeric word then some (.other, rest)
    else none

/-- A key and what follows it on the line. -/
def key? (b : Bytes) : Option (Bytes × Bytes) :=
  match b with
  | 0x22 :: rest => basicString? rest
  | 0x27 :: rest => literalString? rest
  | _ =>
    let word := b.takeWhile fun c => isBare c || c = 0x2e
    if word.isEmpty then none else some (word, b.drop word.length)

/-- One line: nothing, a table header, or a key with its value. -/
inductive Entry where
  | blank
  | header (name : Bytes)
  | pair (key : Bytes) (value : Value)

def entry? (line : Bytes) : Option Entry :=
  let line := skip line
  if isTail line then some .blank
  else
    match line with
    | 0x5b :: rest =>
      let name := rest.takeWhile (· != 0x5d)
      if name.length < rest.length && isTail (rest.drop (name.length + 1)) then some (.header name)
      else none
    | _ => do
      let (key, rest) ← key? line
      match skip rest with
      | 0x3d :: rest =>
        let (v, rest) ← value? (skip rest)
        if isTail rest then some (.pair key v) else none
      | _ => none

/-- The key a table's entry is known by. -/
def qualified (table key : Bytes) : Bytes := if table.isEmpty then key else table ++ 0x2e :: key

/-- All pairs of a file; no key may come twice. -/
def pairs? (table : Bytes) (seen : List Bytes) : List Bytes → Option (List (Bytes × Value))
  | [] => some []
  | line :: rest => do
    match ← entry? line with
    | .blank => pairs? table seen rest
    | .header name => pairs? name seen rest
    | .pair key v =>
      let key := qualified table key
      if seen.contains key then none else return (key, v) :: (← pairs? table (key :: seen) rest)

/-- Keys are known in any case. -/
def assign? (s : Settings) (pair : Bytes × Value) : Option Settings :=
  match Settings.Key.ofName? (pair.1.map Bytes.lowerAscii) with
  | none => some s
  | some k =>
    match pair.2 with
    | .text t => s.setText t k
    | .switch on => s.setSwitch on k
    | .other => none

/-- A line without its line break. -/
def chomp (line : Bytes) : Bytes :=
  match line.reverse with
  | 0x0a :: 0x0d :: r => r.reverse
  | 0x0a :: r => r.reverse
  | _ => line

/-- The settings changed by a file; none if the file is malformed or a value does not fit. -/
def read? (s : Settings) (file : Bytes) : Option Settings := do
  (← pairs? [] [] ((Bytes.lines file).map chomp)).foldlM assign? s

end TokenShell.Toml
