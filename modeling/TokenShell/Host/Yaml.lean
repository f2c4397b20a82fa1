import TokenShell.Host.Toml

/-! Settings in YAML: a flat mapping of keys to scalars. -/
namespace TokenShell.Yaml

/-- A scalar as written, or anything else. -/
inductive Value where
  | plain (b : Bytes)
  | quoted (b : Bytes)
  | other
  deriving Repr, DecidableEq

open Toml (skip isSpace)

/-- A single-quoted scalar after its opening quote; a quote inside is doubled. -/
def singleQuoted? : Bytes → Option (Bytes × Bytes)
  | [] => none
  | 0x27 :: 0x27 :: rest => do
    let (text, rest) ← singleQuoted? rest
    return (0x27 :: text, rest)
  | 0x27 :: rest => some ([], rest)
  | b :: rest => do
    let (text, rest) ← singleQuoted? rest
    return (b :: text, rest)

/-- The characters of a one-letter escape. -/
def escaped? : UInt8 → Option Bytes
  | 0x30 => some [0x00]
  | 0x61 => some [0x07]
  | 0x62 => some [0x08]
  | 0x74 => some [0x09]
  | 0x6e => some [0x0a]
  | 0x76 => some [0x0b]
  | 0x66 => some [0x0c]
  | 0x72 => some [0x0d]
  | 0x65 => some [0x1b]
  | 0x20 => some [0x20]
  | 0x22 => some [0x22]
  | 0x2f => some [0x2f]
  | 0x5c => some [0x5c]
  | 0x4e => some (Bytes.ofScalar 0x85)
  | 0x5f => some (Bytes.ofScalar 0xa0)
  | 0x4c => some (Bytes.ofScalar 0x2028)
  | 0x50 => some (Bytes.ofScalar 0x2029)
  | _ => none

/-- A double-quoted scalar after its opening quote. -/
def doubleQuoted? : Bytes → Option (Bytes × Bytes)
  | [] => none
  | 0x22 :: rest => some ([], rest)
  | 0x5c :: 0x78 :: a :: b :: rest => do
    let ch ← Toml.numbered? [a, b]
    let (text, rest) ← doubleQuoted? rest
    return (ch ++ text, rest)
  | 0x5c :: 0x75 :: a :: b :: c :: d :: rest => do
    let ch ← Toml.numbered? [a, b, c, d]
    let (text, rest) ← doubleQuoted? rest
    return (ch ++ text, rest)
  | 0x5c :: 0x55 :: a :: b :: c :: d :: e :: f :: g :: h :: rest => do
    let ch ← Toml.numbered? [a, b, c, d, e, f, g, h]
    let (text, rest) ← doubleQuoted? rest
    return (ch ++ text, rest)
  | 0x5c :: b :: rest => do
    let ch ← escaped? b
    let (text, rest) ← doubleQuoted? rest
    return (ch ++ text, rest)
  | b :: rest =>
    if b = 0x5c then none
    else do
      let (text, rest) ← doubleQuoted? rest
      return (b :: text, rest)

/-- A plain text up to a comment, which needs a blank before it. -/
def beforeComment : Bytes → Bytes
  | [] => []
  | b :: rest =>
    match rest with
    | 0x23 :: _ => if isSpace b then [] else b :: beforeComment rest
    | _ => b :: beforeComment rest

/-- A colon that ends a key: one before a blank or at the end. -/
def keyColon (b : UInt8) (rest : Bytes) : Bool :=
  b = 0x3a && (rest.isEmpty || rest.head?.any isSpace)

/-- The text before the first colon that ends a key, and what follows the colon. -/
def cutKey? : Bytes → Option (Bytes × Bytes)
  | [] => none
  | b :: rest =>
    if keyColon b rest then some ([], rest)
    else (cutKey? rest).map fun (key, rest) => (b :: key, rest)

/-- Bytes that cannot start a plain scalar. -/
def isIndicator (b : UInt8) : Bool :=
  ([0x7c, 0x3e, 0x26, 0x2a, 0x21, 0x25, 0x40, 0x60, 0x2c, 0x5d, 0x7d] : Bytes).contains b

def plain? (b : Bytes) : Option Value :=
  let text := Bytes.trimRight isSpace (beforeComment b)
  if (cutKey? text).isSome then none else some (.plain text)

/-- A quoted scalar with nothing but a comment behind it. -/
def whole? : Option (Bytes × Bytes) → Option Value
  | some (text, rest) => if Toml.isTail rest then some (.quoted text) else none
  | none => none

def value? (b : Bytes) : Option Value :=
  match skip b with
  | [] => some (.plain [])
  | 0x23 :: _ => some (.plain [])
  | 0x22 :: rest => whole? (doubleQuoted? rest)
  | 0x27 :: rest => whole? (singleQuoted? rest)
  | 0x5b :: _ | 0x7b :: _ => some .other
  | 0x2d :: 0x20 :: _ => none
  | c :: rest => if isIndicator c then none else plain? (c :: rest)

/-- A key at the start of a line, with the rest behind its colon. -/
def key? (line : Bytes) : Option (Bytes × Bytes) :=
  let closed : Option (Bytes × Bytes) → Option (Bytes × Bytes)
    | some (key, rest) =>
      match skip rest with
      | 0x3a :: rest => if keyColon 0x3a rest then some (key, rest) else none
      | _ => none
    | none => none
  match line with
  | 0x22 :: rest => closed (doubleQuoted? rest)
  | 0x27 :: rest => closed (singleQuoted? rest)
  | _ => (cutKey? line).map fun (key, rest) => (Bytes.trimRight isSpace key, rest)

/-- Whether a line goes on with the value of the key before it. -/
def isNested : Bytes → Bool
  | b :: rest => isSpace b || (b = 0x2d && (rest.isEmpty || rest.head?.any isSpace))
  | [] => false

/-- All pairs of a file; no key may come twice. Nested lines make the value before them no scalar.
-/
def pairs? (found : List (Bytes × Value)) : List Bytes → Option (List (Bytes × Value))
  | [] => some found.reverse
  | line :: rest =>
    if Toml.isTail line || line = "---" then pairs? found rest
    else if isNested line then
      match found with
      | (key, .plain []) :: before => pairs? ((key, .other) :: before) rest
      | (key, .other) :: before => pairs? ((key, .other) :: before) rest
      | _ => none
    else do
      let (key, tail) ← key? line
      let v ← value? tail
      if found.any (·.1 == key) then none else pairs? ((key, v) :: found) rest

/-- The plain scalars that stand for no value. -/
def isNull (b : Bytes) : Bool := b = [] || b = "~" || b = "null" || b = "Null" || b = "NULL"

/-- The words that set a switch, whether quoted or not. -/
def switchWord? (b : Bytes) : Option Bool :=
  if b = "y" || b = "Y" || b = "yes" || b = "on" then some true
  else if b = "n" || b = "N" || b = "no" || b = "off" then some false
  else none

/-- A plain scalar as a switch. -/
def switch? (b : Bytes) : Option Bool :=
  if b = "true" || b = "True" || b = "TRUE" then some true
  else if b = "false" || b = "False" || b = "FALSE" then some false
  else switchWord? b

/-- Any scalar is a text; no value leaves a setting as it is. -/
def assign? (s : Settings) (pair : Bytes × Value) : Option Settings :=
  match Settings.Key.ofName? pair.1, pair.2 with
  | none, _ => some s
  | some _, .other => none
  | some .printTree, .quoted b => (switchWord? b).bind fun on => s.setSwitch on .printTree
  | some k, .quoted b => s.setText b k
  | some k, .plain b =>
    if isNull b then some s
    else if k = .printTree then (switch? b).bind fun on => s.setSwitch on k
    else s.setText b k

/-- The settings changed by a file; none if the file is malformed or a value does not fit. -/
def read? (s : Settings) (file : Bytes) : Option Settings := do
  (← pairs? [] ((Bytes.lines file).map Toml.chomp)).foldlM assign? s

end TokenShell.Yaml
