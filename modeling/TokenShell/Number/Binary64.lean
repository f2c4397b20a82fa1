/-! Binary floating point of 64 bits, with exact comparison, remainder and rounding. -/
namespace TokenShell

/-- A double, known by its bits. -/
structure Binary64 where
  bits : UInt64
  deriving Repr, DecidableEq, Inhabited

namespace Binary64

def ofFloat (x : Float) : Binary64 := ⟨x.toBits⟩

def toFloat (x : Binary64) : Float := Float.ofBits x.bits

/-- The weight of the sign bit. -/
def signBit : Nat := Nat.pow 2 63

/-- The weight of the leading bit of a full significand. -/
def leadingBit : Nat := Nat.pow 2 52

def negative (x : Binary64) : Bool := signBit ≤ x.bits.toNat

/-- The bits without the sign. -/
def magnitude (x : Binary64) : Nat := x.bits.toNat % signBit

/-- The magnitude of infinity; the larger ones are not numbers. -/
def infinite : Nat := 2047 * leadingBit

def isNaN (x : Binary64) : Bool := infinite < x.magnitude

def isInfinite (x : Binary64) : Bool := x.magnitude = infinite

def isZero (x : Binary64) : Bool := x.magnitude = 0

def ofMagnitude (negative : Bool) (m : Nat) : Binary64 :=
  ⟨UInt64.ofNat (if negative then signBit + m else m)⟩

def nan : Binary64 := ofMagnitude false (infinite + leadingBit / 2)

def infinity (negative : Bool) : Binary64 := ofMagnitude negative infinite

def zero (negative : Bool) : Binary64 := ofMagnitude negative 0

/-- The integer `m` of a finite value `m * 2 ^ q`. -/
def significand (x : Binary64) : Nat :=
  if x.magnitude < leadingBit then x.magnitude else leadingBit + x.magnitude % leadingBit

/-- The power `q` of a finite value `m * 2 ^ q`, counted from the least one, -1074. -/
def scale (x : Binary64) : Nat := x.magnitude / leadingBit - 1

def leastPower : Int := -1074

/-- The power `q` of a finite value `m * 2 ^ q`. -/
def power (x : Binary64) : Int := x.scale + leastPower

/-- A quotient to the nearest integer, a half to the even one. -/
def roundHalfEven (num den : Nat) : Nat :=
  let quo := num / den
  let rem := num % den
  if den < 2 * rem ∨ (den = 2 * rem ∧ quo % 2 = 1) then quo + 1 else quo

/-- `num / (den * 2 ^ q)` as a quotient of natural numbers. -/
def scaled (num den : Nat) (q : Int) : Nat × Nat :=
  (num * Nat.pow 2 (-q).toNat, den * Nat.pow 2 q.toNat)

/-- The double nearest to a quotient, a half to the even one; none if it overflows. -/
def ofRatio? (negative : Bool) (num den : Nat) : Option Binary64 :=
  if num = 0 then some (zero negative)
  else
    let q₀ : Int := (num.log2 : Int) - den.log2 - 53
    let (n₀, d₀) := scaled num den q₀
    let q₁ := if 2 * leadingBit * d₀ ≤ n₀ then q₀ + 1 else q₀
    let q := max q₁ leastPower
    let (n, d) := scaled num den q
    let m := (q - leastPower).toNat * leadingBit + roundHalfEven n d
    if m < infinite then some (ofMagnitude negative m) else none

/-- The double nearest to an integer. -/
def ofInt (n : Int) : Binary64 := (ofRatio? (n < 0) n.natAbs 1).getD (infinity (n < 0))

/-- Numbers in order; zero of either sign has key zero. -/
def orderKey (x : Binary64) : Int := if x.negative then -x.magnitude else x.magnitude

/-- Numeric equality: a NaN differs from everything, the two zeros are equal. -/
def sameNumber (x y : Binary64) : Bool := !x.isNaN && !y.isNaN && x.orderKey = y.orderKey

/-- A total order: a NaN comes before every number and equals itself. -/
def order (x y : Binary64) : Ordering :=
  match x.isNaN, y.isNaN with
  | true, true => .eq
  | true, false => .lt
  | false, true => .gt
  | false, false => compare x.orderKey y.orderKey

def neg (x : Binary64) : Binary64 := ofMagnitude (!x.negative) x.magnitude

def add (x y : Binary64) : Binary64 := ofFloat (x.toFloat + y.toFloat)

def sub (x y : Binary64) : Binary64 := ofFloat (x.toFloat - y.toFloat)

def mul (x y : Binary64) : Binary64 := ofFloat (x.toFloat * y.toFloat)

def div (x y : Binary64) : Binary64 := ofFloat (x.toFloat / y.toFloat)

def pow (x y : Binary64) : Binary64 := ofFloat (x.toFloat.pow y.toFloat)

/-- The exact remainder of truncated division, with the sign of the dividend. -/
def rem (x y : Binary64) : Binary64 :=
  if x.isNaN || y.isNaN || x.isInfinite || y.isZero then nan
  else if y.isInfinite then x
  else
    let low := min x.scale y.scale
    let r := (x.significand * Nat.pow 2 (x.scale - low)) %
      (y.significand * Nat.pow 2 (y.scale - low))
    (ofRatio? x.negative (r * Nat.pow 2 low) (Nat.pow 2 leastPower.natAbs)).getD
      (zero x.negative)

end Binary64

end TokenShell
