import TokenShell.Text.Quoted

/-! Tokens and the fixed vocabulary of token names. -/
namespace TokenShell

/-- The seven one-character tokens that shape the tree. -/
inductive Marker where
  | openGroup
  | closeGroup
  | openBlock
  | closeBlock
  | openCommand
  | closeCommand
  | terminator
  deriving Repr, DecidableEq

namespace Marker

def all : List Marker :=
  [openGroup, closeGroup, openBlock, closeBlock, openCommand, closeCommand, terminator]

def byte : Marker → UInt8
  | openGroup => 0x28
  | closeGroup => 0x29
  | openBlock => 0x7b
  | closeBlock => 0x7d
  | openCommand => 0x5b
  | closeCommand => 0x5d
  | terminator => 0x3b

def name (m : Marker) : Bytes := [m.byte]

def ofByte? (b : UInt8) : Option Marker := all.find? (·.byte == b)

def ofName? : Bytes → Option Marker
  | [b] => ofByte? b
  | _ => none

def isOpener : Marker → Bool
  | openGroup | openBlock | openCommand => true
  | _ => false

def isCloser : Marker → Bool
  | closeGroup | closeBlock | closeCommand => true
  | _ => false

/-- The marker that ends what an opener starts. -/
def closer? : Marker → Option Marker
  | openGroup => some closeGroup
  | openBlock => some closeBlock
  | openCommand => some closeCommand
  | _ => none

end Marker

/-- The operator names, the two groupings included. -/
inductive Symbol where
  | dot | or | nor | xor | xnor | and | eq | ne | lt | le | gt | ge | userop
  | tilde | doubletilde | plus | minus | star | slash | percent | carat | not | pipe | amp
  | paren | bracket
  deriving Repr, DecidableEq

namespace Symbol

def all : List Symbol :=
  [dot, or, nor, xor, xnor, and, eq, ne, lt, le, gt, ge, userop, tilde, doubletilde, plus, minus,
    star, slash, percent, carat, not, pipe, amp, paren, bracket]

def name : Symbol → Bytes
  | dot => "DOT"
  | or => "OR"
  | nor => "NOR"
  | xor => "XOR"
  | xnor => "XNOR"
  | and => "AND"
  | eq => "EQ"
  | ne => "NE"
  | lt => "LT"
  | le => "LE"
  | gt => "GT"
  | ge => "GE"
  | userop => "USEROP"
  | tilde => "TILDE"
  | doubletilde => "DOUBLETILDE"
  | plus => "PLUS"
  | minus => "MINUS"
  | star => "STAR"
  | slash => "SLASH"
  | percent => "PERCENT"
  | carat => "CARAT"
  | not => "NOT"
  | pipe => "PIPE"
  | amp => "AMP"
  | paren => "paren"
  | bracket => "bracket"

def ofName? (n : Bytes) : Option Symbol := all.find? (·.name == n)

/-- Whether the operator only groups: its operand is an expression of its own. -/
def isGrouping : Symbol → Bool
  | paren | bracket => true
  | _ => false

end Symbol

/-- The three kinds of literal. -/
inductive LiteralKind where
  | int
  | fixed
  | str
  deriving Repr, DecidableEq

namespace LiteralKind

def name : LiteralKind → Bytes
  | int => "INT"
  | fixed => "FIXED"
  | str => "STR"

def ofName? (n : Bytes) : Option LiteralKind := [int, fixed, str].find? (·.name == n)

end LiteralKind

/-- A name with an optional value; no value is the empty one. -/
structure Token where
  name : Bytes
  value : Bytes := []
  deriving Repr, DecidableEq

namespace Token

def ofMarker (m : Marker) : Token := ⟨m.name, []⟩

/-- A quote or a backslash in a value is written with a backslash before it. -/
def escapeByte (b : UInt8) : Bytes := if b = 0x27 || b = 0x5c then [0x5c, b] else [b]

/-- The written form: the name alone, or the name, a colon and the value in single quotes. -/
def text (t : Token) : Bytes :=
  if t.value.isEmpty then t.name
  else t.name ++ 0x3a :: 0x27 :: t.value.flatMap escapeByte ++ [0x27]

/-- A readable form for diagnostics, both parts in double quotes. -/
def debugText (t : Token) : Bytes :=
  ("token.Token\x7b" : Bytes) ++ Text.quoted t.name ++ (", " : Bytes) ++ Text.quoted t.value ++
    ("\x7d" : Bytes)

end Token

/-- What a token name stands for. -/
inductive Token.Kind where
  | marker (m : Marker)
  | literal (k : LiteralKind)
  | expression
  | identifier
  | fragment
  | declaration (renew : Bool)
  | initializer
  | operator (s : Symbol)
  | word
  deriving Repr, DecidableEq

namespace Token

def expressionName : Bytes := "exp"

def identifierName : Bytes := "ID"

def fragmentName : Bytes := "FRAG"

def newName : Bytes := "new"

def renewName : Bytes := "renew"

def initName : Bytes := "init"

/-- The kind of a name. A name without a meaning of its own is a word. -/
def kindOf (n : Bytes) : Kind :=
  match Marker.ofName? n, LiteralKind.ofName? n, Symbol.ofName? n with
  | some m, _, _ => .marker m
  | _, some k, _ => .literal k
  | _, _, some s => .operator s
  | none, none, none =>
    if n = expressionName then .expression
    else if n = identifierName then .identifier
    else if n = fragmentName then .fragment
    else if n = newName then .declaration false
    else if n = renewName then .declaration true
    else if n = initName then .initializer
    else .word

def kind (t : Token) : Kind := kindOf t.name

end Token

end TokenShell
