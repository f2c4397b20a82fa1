import TokenShell.Token.Quoting

/-! Token lines: reading a line into tokens and writing tokens as a line. -/
namespace TokenShell.Line

/-- Why a line is not a token line. -/
inductive Flaw where
  | unquotedValue (name : Bytes)
  | namelessValue
  | strayQuote
  | unexpected (byte : UInt8)
  | incomplete
  deriving Repr, DecidableEq

def Flaw.message : Flaw → Bytes
  | unquotedValue name => "expected quoted value after " ++ Text.quoted (name ++ [0x3a])
  | namelessValue => "value without a token name"
  | strayQuote => "quoted value must follow NAME:"
  | unexpected b => "unexpected character " ++ Text.quotedScalar b.toNat
  | incomplete => "incomplete token value"

/-- A flaw and the offset of the byte where it shows. -/
structure SyntaxError where
  position : Nat
  flaw : Flaw
  deriving Repr, DecidableEq

/-- Columns count from one. -/
def SyntaxError.text (e : SyntaxError) : Bytes :=
  ("column " : Bytes) ++ Bytes.decimal (e.position + 1) ++ (": " : Bytes) ++ e.flaw.message

/-- The bytes that only separate tokens. -/
def isBlank (b : UInt8) : Bool := b = 0x20 || b = 0x09 || b = 0x0d || b = 0x0a

def isNameByte (b : UInt8) : Bool :=
  b = 0x5f || (0x61 ≤ b && b ≤ 0x7a) || (0x41 ≤ b && b ≤ 0x5a) || Bytes.isDigit b

/-- The token under way. A name remembers the offset of its first byte. -/
inductive Pending where
  | between
  | bare (start : Nat) (name : Bytes)
  | colon (start : Nat) (name : Bytes)
  | valued (start : Nat) (name value : Bytes) (escaped : Bool)
  deriving Repr, DecidableEq

/-- Reads one byte at an offset: the tokens it completes and the token then under way. -/
def Pending.step (pos : Nat) (b : UInt8) : Pending → Except SyntaxError (List Token × Pending)
  | .colon start name =>
    if b = Quoting.quote then .ok ([], .valued start name [] false)
    else .error ⟨pos, .unquotedValue name⟩
  | .valued start name value true => .ok ([], .valued start name (value ++ [b]) false)
  | .valued start name value false =>
    if b = Quoting.backslash then .ok ([], .valued start name value true)
    else if b = Quoting.quote then .ok ([⟨name, value⟩], .between)
    else .ok ([], .valued start name (value ++ [b]) false)
  | .between =>
    if isBlank b then .ok ([], .between)
    else if isMarker b then .ok ([⟨[b], []⟩], .between)
    else if b = 0x3a then .error ⟨pos, .namelessValue⟩
    else if b = Quoting.quote then .error ⟨pos, .strayQuote⟩
    else if isNameByte b then .ok ([], .bare pos [b])
    else .error ⟨pos, .unexpected b⟩
  | .bare start name =>
    if isBlank b then .ok ([⟨name, []⟩], .between)
    else if isMarker b then .ok ([⟨name, []⟩, ⟨[b], []⟩], .between)
    else if b = 0x3a then .ok ([], .colon start name)
    else if b = Quoting.quote then .error ⟨pos, .strayQuote⟩
    else if isNameByte b then .ok ([], .bare start (name ++ [b]))
    else .error ⟨pos, .unexpected b⟩

/-- The end of the line: a bare name is complete, a value under way is not. -/
def Pending.finish : Pending → Except SyntaxError (List Token)
  | .between => .ok []
  | .bare _ name => .ok [⟨name, []⟩]
  | .colon start _ => .error ⟨start, .incomplete⟩
  | .valued start _ _ _ => .error ⟨start, .incomplete⟩

/-- Reads the rest of a line from an offset. -/
def read (pos : Nat) (p : Pending) : Bytes → Except SyntaxError (List Token)
  | [] => p.finish
  | b :: bs =>
    match p.step pos b with
    | .error e => .error e
    | .ok (ts, p') =>
      match read (pos + 1) p' bs with
      | .error e => .error e
      | .ok rest => .ok (ts ++ rest)

/-- The tokens of a line. -/
def tokenize (line : Bytes) : Except SyntaxError (List Token) := read 0 .between line

/-- The tokens in written form, separated by single spaces. -/
def format (ts : List Token) : Bytes := Bytes.join " " (ts.map Token.text)

end TokenShell.Line
