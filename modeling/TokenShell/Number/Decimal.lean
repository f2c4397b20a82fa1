import TokenShell.Number.Binary64
import TokenShell.Text.Bytes

/-! The shortest decimal that reads back as a given double, and its layout. -/
namespace TokenShell.Decimal

/-- A positive decimal `digits * 10 ^ power`. -/
structure Scaled where
  digits : Nat
  power : Int
  deriving Repr, DecidableEq

/-- The number of decimal digits. -/
def width (n : Nat) : Nat := (Nat.toDigits 10 n).length

/-- The power of ten of the first digit of a positive quotient. -/
def leading (num den : Nat) : Int :=
  if den ≤ num then width (num / den) - 1
  else
    let j := width den - width num
    if den ≤ num * Nat.pow 10 j then -j else -(j + 1)

/-- The reals that round to one double: `4 * significand` in units of `2 ^ (power - 2)` with its
two bounds, which belong to the interval if the significand is even. -/
structure Interval where
  low : Nat
  value : Nat
  high : Nat
  power : Int
  closed : Bool

def Interval.of (x : Binary64) : Interval where
  low := 4 * x.significand - (if x.significand = Binary64.leadingBit ∧ 0 < x.scale then 1 else 2)
  value := 4 * x.significand
  high := 4 * x.significand + 2
  power := x.power - 2
  closed := x.significand % 2 = 0

/-- `c * 10 ^ k` and `v * 2 ^ q` brought to a common unit. -/
def aligned (c : Nat) (k : Int) (v : Nat) (q : Int) : Nat × Nat :=
  (c * Nat.pow 10 k.toNat * Nat.pow 2 (-q).toNat,
    v * Nat.pow 2 q.toNat * Nat.pow 10 (-k).toNat)

/-- Whether `c * 10 ^ k` rounds to the interval's double. -/
def Interval.holds (i : Interval) (c : Nat) (k : Int) : Bool :=
  let (a, lo) := aligned c k i.low i.power
  let (b, hi) := aligned c k i.high i.power
  if i.closed then lo ≤ a && b ≤ hi else lo < a && b < hi

/-- Of the two neighbours `c` and `c + 1` on a decimal grid, the nearer; in a tie the even one. -/
def Interval.nearer (i : Interval) (c : Nat) (k : Int) : Nat :=
  let (a, v) := aligned c k i.value i.power
  let (b, _) := aligned (c + 1) k i.value i.power
  if v - a < b - v ∨ (v - a = b - v ∧ c % 2 = 0) then c else c + 1

/-- The decimal on the grid `10 ^ k` that reads back, if there is one. -/
def Interval.onGrid? (i : Interval) (k : Int) : Option Scaled :=
  let (den, num) := aligned 1 k i.value i.power
  let c := num / den
  match i.holds c k, i.holds (c + 1) k with
  | true, true => some ⟨i.nearer c k, k⟩
  | true, false => some ⟨c, k⟩
  | false, true => some ⟨c + 1, k⟩
  | false, false => none

/-- Seventeen digits always suffice. -/
def mostDigits : Nat := 17

/-- The decimal with the fewest digits that reads back as a positive finite double. -/
def shortest (x : Binary64) : Scaled :=
  let i := Interval.of x
  let (den, num) := aligned 1 0 i.value i.power
  let top := leading num den
  let grids := (List.range mostDigits).map fun (n : Nat) => top - (n : Int)
  (grids.findSome? i.onGrid?).getD ⟨0, 0⟩

/-- How a decimal is laid out: positional for leading powers from `least` up to but not including
`bound`, else with an exponent of at least `exponentWidth` digits. -/
structure Layout where
  least : Int
  bound : Int
  exponentWidth : Nat

/-- The digits without trailing zeros. -/
def Scaled.significant (s : Scaled) : Bytes := Bytes.trimRight (· == 0x30) (Bytes.decimal s.digits)

/-- The power of ten of the first digit. -/
def Scaled.leading (s : Scaled) : Int := width s.digits - 1 + s.power

def withPoint (whole fraction : Bytes) : Bytes :=
  if fraction.isEmpty then whole else whole ++ 0x2e :: fraction

def exponentText (l : Layout) (x : Int) : Bytes :=
  (if x < 0 then "e-" else "e+") ++ Bytes.zeroFilled l.exponentWidth x.natAbs

def Layout.write (l : Layout) (s : Scaled) : Bytes :=
  let ds := s.significant
  let x := s.leading
  if x < l.least ∨ l.bound ≤ x then withPoint (ds.take 1) (ds.drop 1) ++ exponentText l x
  else if x < 0 then ("0." : Bytes) ++ List.replicate (-x - 1).toNat 0x30 ++ ds
  else
    let n := x.toNat + 1
    withPoint (ds.take n ++ List.replicate (n - ds.length) 0x30) (ds.drop n)

/-- Any double in a layout. -/
def Layout.text (l : Layout) (x : Binary64) : Bytes :=
  if x.isNaN then "NaN"
  else if x.isInfinite then if x.negative then "-Inf" else "+Inf"
  else
    let unsigned := if x.isZero then ("0" : Bytes) else l.write (shortest x)
    if x.negative then 0x2d :: unsigned else unsigned

/-- Six places before the point at most, and four zeros after it. -/
def general : Layout := ⟨-4, 6, 2⟩

end TokenShell.Decimal
