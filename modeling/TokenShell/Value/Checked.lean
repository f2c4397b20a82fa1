/-! Arithmetic on 64-bit integers that refuses a result out of range. -/
namespace TokenShell.Checked

def add (a b : Int64) : Option Int64 :=
  let n := a + b
  if (0 ≤ b) = (a ≤ n) then some n else none

def sub (a b : Int64) : Option Int64 :=
  let n := a - b
  if (0 ≤ b) = (n ≤ a) then some n else none

/-- A product is checked by dividing it again; the least integer times -1 escapes that check. -/
def mul (a b : Int64) : Option Int64 :=
  if a = 0 ∨ b = 0 then some 0
  else
    let n := a * b
    if n / b ≠ a ∨ (a = -1 ∧ b = Int64.minValue) ∨ (b = -1 ∧ a = Int64.minValue) then none
    else some n

def neg (a : Int64) : Option Int64 := if a = Int64.minValue then none else some (-a)

/-- The truncated quotient by a divisor other than zero. -/
def div (a b : Int64) : Option Int64 :=
  if a = Int64.minValue ∧ b = -1 then none else some (a / b)

/-- `result * base ^ exponent` by repeated squaring. -/
def powFrom (result base : Int64) (exponent : Nat) : Option Int64 :=
  if exponent = 0 then some result
  else
    match if exponent % 2 = 1 then mul result base else some result with
    | none => none
    | some result =>
      if exponent / 2 = 0 then some result
      else
        match mul base base with
        | none => none
        | some base => powFrom result base (exponent / 2)
termination_by exponent
decreasing_by omega

def pow (base : Int64) (exponent : Nat) : Option Int64 := powFrom 1 base exponent

end TokenShell.Checked
