import TokenShell.Text.Bytes

/-! Reading signed decimal integers of 64 bits. -/
namespace TokenShell.Integer

/-- Why a text is not a 64-bit integer. -/
inductive Misfit where
  | malformed
  | outOfRange
  deriving Repr, DecidableEq

/-- Everything above this is out of range, even if the digits go on to be malformed. -/
def wordLimit : Nat := UInt64.size - 1

/-- Reads digits after a value already read; the first fault from the left counts. -/
def magnitude (value : Nat) : Bytes → Except Misfit Nat
  | [] => .ok value
  | b :: bs =>
    if Bytes.isDigit b then
      let next := value * 10 + (b.toNat - 0x30)
      if next ≤ wordLimit then magnitude next bs else .error .outOfRange
    else .error .malformed

/-- At least one digit. -/
def digits : Bytes → Except Misfit Nat
  | [] => .error .malformed
  | b :: bs => magnitude 0 (b :: bs)

/-- An integer that fits a 64-bit word with a sign. -/
def inRange (n : Int) : Except Misfit Int64 :=
  if Int64.minValue.toInt ≤ n ∧ n ≤ Int64.maxValue.toInt then .ok (Int64.ofInt n)
  else .error .outOfRange

/-- An optional sign and decimal digits. -/
def read : Bytes → Except Misfit Int64
  | 0x2b :: bs => do inRange (← digits bs)
  | 0x2d :: bs => do inRange (-(← digits bs : Nat))
  | bs => do inRange (← digits bs)

/-- A 64-bit integer in decimal. -/
def text (n : Int64) : Bytes := Bytes.integer n.toInt

end TokenShell.Integer
