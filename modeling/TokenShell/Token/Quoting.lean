import TokenShell.Token.Basic

/-! Following quoted values through a line, byte by byte, and the nesting depth outside them. -/
namespace TokenShell

/-- Where a byte stands with respect to quoted values. -/
structure Quoting where
  /-- Inside a value, the opening quote included. -/
  inside : Bool := false
  /-- The next byte is escaped. -/
  escaped : Bool := false
  /-- This byte is the quote that ends a value. -/
  closing : Bool := false
  /-- This byte is a backslash that escapes the next one. -/
  escape : Bool := false
  deriving Repr, DecidableEq

namespace Quoting

def quote : UInt8 := 0x27

def backslash : UInt8 := 0x5c

def step (q : Quoting) (b : UInt8) : Quoting :=
  if q.escaped then ⟨q.inside, false, false, false⟩
  else if b = backslash && q.inside then ⟨q.inside, true, false, true⟩
  else if b = quote then ⟨!q.inside, false, q.inside, false⟩
  else ⟨q.inside, false, false, false⟩

/-- The position after the last byte. -/
def finish (q : Quoting) : Quoting := { q with closing := false, escape := false }

/-- Whether the byte belongs to a value, both quotes included. -/
def inValue (q : Quoting) : Bool := q.inside || q.closing

/-- Whether a value or an escape is left open. -/
def unterminated (q : Quoting) : Bool := q.inside || q.escaped

/-- Every byte of a text with its standing. -/
def trace (q : Quoting) : Bytes → List (UInt8 × Quoting)
  | [] => []
  | b :: bs => (b, q.step b) :: trace (q.step b) bs

/-- The standing after a whole text. -/
def after (q : Quoting) : Bytes → Quoting
  | [] => q
  | b :: bs => (q.step b).after bs

end Quoting

namespace Line

def isOpenMarker (b : UInt8) : Bool := (Marker.ofByte? b).any Marker.isOpener

def isCloseMarker (b : UInt8) : Bool := (Marker.ofByte? b).any Marker.isCloser

def isMarker (b : UInt8) : Bool := (Marker.ofByte? b).isSome

/-- What one byte outside values adds to the depth. -/
def nesting (b : UInt8) : Int :=
  if isOpenMarker b then 1 else if isCloseMarker b then -1 else 0

/-- The nesting depth a line leaves open, counting only markers outside values. -/
def depth (line : Bytes) : Int :=
  (Quoting.trace {} line).foldl (fun d p => if p.2.inValue then d else d + nesting p.1) 0

end Line

end TokenShell
