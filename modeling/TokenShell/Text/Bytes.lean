/-! Text as raw bytes. A line, a value or a command may hold any byte, valid UTF-8 or not. -/
namespace TokenShell

abbrev Bytes := List UInt8

namespace Bytes

/-- The UTF-8 bytes of a string; literals in the library are written this way. -/
def ofString (s : String) : Bytes := s.toList.flatMap String.utf8EncodeChar

instance : Coe String Bytes := ⟨ofString⟩

/-- The UTF-8 bytes of one code point. -/
def ofScalar (n : Nat) : Bytes := String.utf8EncodeChar (Char.ofNat n)

/-- A natural number in decimal digits. -/
def decimal (n : Nat) : Bytes := (Nat.toDigits 10 n).map fun c => c.val.toUInt8

/-- An integer in decimal digits, with a leading minus sign if negative. -/
def integer : Int → Bytes
  | .ofNat n => decimal n
  | .negSucc n => 0x2d :: decimal (n + 1)

/-- A natural number in decimal digits, filled with zeros on the left up to a width. -/
def zeroFilled (width n : Nat) : Bytes :=
  let ds := decimal n
  List.replicate (width - ds.length) 0x30 ++ ds

/-- Lower-case hexadecimal digits, filled with zeros on the left up to a width. -/
def hexadecimal (width n : Nat) : Bytes :=
  let ds := (Nat.toDigits 16 n).map fun c => c.val.toUInt8
  List.replicate (width - ds.length) 0x30 ++ ds

/-- The parts in order with a separator between neighbours. -/
def join (sep : Bytes) (parts : List Bytes) : Bytes := sep.intercalate parts

def isDigit (b : UInt8) : Bool := 0x30 ≤ b && b ≤ 0x39

/-- An ASCII letter in lower case; other bytes stay. -/
def lowerAscii (b : UInt8) : UInt8 := if 0x41 ≤ b && b ≤ 0x5a then b + 32 else b

/-- The value of a hexadecimal digit. -/
def hexDigit? (b : UInt8) : Option Nat :=
  let c := lowerAscii b
  if isDigit b then some (b.toNat - 0x30)
  else if 0x61 ≤ c && c ≤ 0x66 then some (c.toNat - 0x61 + 10)
  else none

def newline : UInt8 := 0x0a

def carriageReturn : UInt8 := 0x0d

/-- Removes the trailing bytes that satisfy a test. -/
def trimRight (p : UInt8 → Bool) (b : Bytes) : Bytes := (b.reverse.dropWhile p).reverse

/-- The parts of a text between the occurrences of a byte. -/
def split (sep : UInt8) : Bytes → List Bytes
  | [] => [[]]
  | b :: bs =>
    if b = sep then [] :: split sep bs
    else
      match split sep bs with
      | [] => [[b]]
      | p :: ps => (b :: p) :: ps

/-- Splits off the first line, its newline included; without a newline all bytes are the line. -/
def cutLine : Bytes → Bytes × Bytes
  | [] => ([], [])
  | b :: bs =>
    if b = newline then ([b], bs)
    else
      let (line, rest) := cutLine bs
      (b :: line, rest)

/-- All lines, each with its newline; only the last may lack one. -/
def lines : Bytes → List Bytes
  | [] => []
  | b :: bs =>
    if b = newline then [b] :: lines bs
    else
      match lines bs with
      | [] => [[b]]
      | l :: ls => (b :: l) :: ls

end Bytes

end TokenShell
