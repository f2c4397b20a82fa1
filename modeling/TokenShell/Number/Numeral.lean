import TokenShell.Number.Binary64
import TokenShell.Text.Bytes

/-! Reading doubles: decimal and hexadecimal numerals, infinities and NaN. -/
namespace TokenShell.Numeral

/-- The value of a digit of the base. -/
def digit? (hex : Bool) (b : UInt8) : Option Nat :=
  if hex || Bytes.isDigit b then Bytes.hexDigit? b else none

/-- The digits read so far. -/
structure Digits where
  value : Nat := 0
  any : Bool := false
  point : Bool := false
  fraction : Nat := 0

def Digits.push (d : Digits) (base n : Nat) : Digits :=
  { d with
    value := d.value * base + n
    any := true
    fraction := if d.point then d.fraction + 1 else d.fraction }

/-- Digits with at most one point; underscores are skipped here and checked on the whole. -/
def digits (hex : Bool) (d : Digits) : Bytes → Digits × Bytes
  | [] => (d, [])
  | b :: bs =>
    if b = 0x5f then digits hex d bs
    else if b = 0x2e then
      if d.point then (d, b :: bs) else digits hex { d with point := true } bs
    else
      match digit? hex b with
      | some n => digits hex (d.push (if hex then 16 else 10) n) bs
      | none => (d, b :: bs)

/-- Past this an exponent takes no further digits: every value has over- or underflowed. -/
def exponentLimit : Nat := 10000

def exponentDigits (e : Nat) : Bytes → Nat × Bytes
  | [] => (e, [])
  | b :: bs =>
    if b = 0x5f then exponentDigits e bs
    else if Bytes.isDigit b then
      exponentDigits (if e < exponentLimit then e * 10 + (b.toNat - 0x30) else e) bs
    else (e, b :: bs)

/-- Exponent digits, the first of which is no underscore. -/
def exponentValue? : Bytes → Option Nat
  | [] => none
  | b :: bs =>
    if Bytes.isDigit b then
      match exponentDigits 0 (b :: bs) with
      | (e, []) => some e
      | _ => none
    else none

/-- The exponent that ends a numeral; a hexadecimal one must have it. -/
def exponent? (hex : Bool) : Bytes → Option Int
  | [] => if hex then none else some 0
  | b :: bs =>
    if Bytes.lowerAscii b = (if hex then 0x70 else 0x65) then
      match bs with
      | 0x2b :: ds => (exponentValue? ds).map Int.ofNat
      | 0x2d :: ds => (exponentValue? ds).map fun e => -(e : Int)
      | ds => (exponentValue? ds).map Int.ofNat
    else none

/-- What precedes a byte, as far as underscores care. -/
inductive Before where
  | digit
  | underscore
  | other

/-- Every underscore stands between two digits. -/
def underscoresFit (hex : Bool) : Before → Bytes → Bool
  | .underscore, [] => false
  | _, [] => true
  | before, b :: bs =>
    if (digit? hex b).isSome then underscoresFit hex .digit bs
    else if b = 0x5f then
      match before with
      | .digit => underscoresFit hex .underscore bs
      | _ => false
    else
      match before with
      | .underscore => false
      | _ => underscoresFit hex .other bs

/-- An unsigned numeral split at its base mark, which counts as a digit before an underscore. -/
def splitBase : Bytes → Bool × Bytes
  | 0x30 :: x :: b :: bs =>
    if Bytes.lowerAscii x = 0x78 then (true, b :: bs) else (false, 0x30 :: x :: b :: bs)
  | bs => (false, bs)

/-- The double of `value * base ^ exponent`; none if it overflows. -/
def assemble? (negative : Bool) (base value : Nat) (exponent : Int) : Option Binary64 :=
  Binary64.ofRatio? negative (value * Nat.pow base exponent.toNat) (Nat.pow base (-exponent).toNat)

def number? (negative : Bool) (b : Bytes) : Option Binary64 :=
  let (hex, body) := splitBase b
  let (d, rest) := digits hex {} body
  if !d.any || !underscoresFit hex (if hex then .digit else .other) body then none
  else
    match exponent? hex rest with
    | none => none
    | some e =>
      if d.value = 0 then some (Binary64.zero negative)
      else if hex then assemble? negative 2 d.value (e - 4 * d.fraction)
      else assemble? negative 10 d.value (e - d.fraction)

/-- A numeral or a spelled-out infinity, after the sign. -/
def unsigned? (negative : Bool) (b : Bytes) : Option Binary64 :=
  let name := b.map Bytes.lowerAscii
  if name = "inf" || name = "infinity" then some (Binary64.infinity negative)
  else number? negative b

/-- Reads a double, correctly rounded; none if malformed or too large. -/
def read? (b : Bytes) : Option Binary64 :=
  match b with
  | 0x2b :: bs => unsigned? false bs
  | 0x2d :: bs => unsigned? true bs
  | bs => if bs.map Bytes.lowerAscii = "nan" then some Binary64.nan else unsigned? false bs

end TokenShell.Numeral
