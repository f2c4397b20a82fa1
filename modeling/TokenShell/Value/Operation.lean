import TokenShell.Token.Basic
import TokenShell.Value.Basic
import TokenShell.Value.Checked

/-! What the operators compute. -/
namespace TokenShell

/-- Why an operator has no result. -/
inductive Operation.Fault where
  | overflow
  | divisionByZero
  | moduloByZero
  | unfitOperand (tag : Bytes)
  | unfitOperands (left right : Bytes)
  | unsupportedUnary
  | unsupportedBinary
  deriving Repr, DecidableEq

namespace Operation

/-- The result of checked arithmetic. -/
def checked : Option Int64 → Except Fault Value
  | some n => .ok (.int n)
  | none => .error .overflow

def unary : Option Symbol → Value → Except Fault Value
  | some .paren, x => .ok x
  | some .not, x => .ok (.bool !x.truthy)
  | some .plus, x => if x.isNumber then .ok x else .error (.unfitOperand x.tag)
  | some .minus, .int n => checked (Checked.neg n)
  | some .minus, .fixed x => .ok (.fixed x.neg)
  | some .minus, x => .error (.unfitOperand x.tag)
  | _, _ => .error .unsupportedUnary

/-- The six operators of arithmetic. -/
inductive Arithmetic where
  | plus
  | minus
  | star
  | slash
  | percent
  | carat
  deriving Repr, DecidableEq

/-- Integers in, an integer out; the exponent of a power is not negative. -/
def integers (a b : Int64) : Arithmetic → Except Fault Value
  | .plus => checked (Checked.add a b)
  | .minus => checked (Checked.sub a b)
  | .star => checked (Checked.mul a b)
  | .slash => if b = 0 then .error .divisionByZero else checked (Checked.div a b)
  | .percent => if b = 0 then .error .moduloByZero else .ok (.int (a % b))
  | .carat => checked (Checked.pow a b.toInt.toNat)

def doubles (a b : Binary64) : Arithmetic → Except Fault Value
  | .plus => .ok (.fixed (a.add b))
  | .minus => .ok (.fixed (a.sub b))
  | .star => .ok (.fixed (a.mul b))
  | .slash => if b.isZero then .error .divisionByZero else .ok (.fixed (a.div b))
  | .percent => if b.isZero then .error .moduloByZero else .ok (.fixed (a.rem b))
  | .carat => .ok (.fixed (a.pow b))

/-- Two integers stay integers, but for a power with a negative exponent. -/
def arithmetic (op : Arithmetic) (x y : Value) : Except Fault Value :=
  if !x.isNumber || !y.isNumber then .error (.unfitOperands x.tag y.tag)
  else
    match x, y with
    | .int a, .int b =>
      if op = .carat ∧ b < 0 then doubles x.asFixed y.asFixed op else integers a b op
    | _, _ => doubles x.asFixed y.asFixed op

/-- Byte strings in dictionary order. -/
def orderBytes : Bytes → Bytes → Ordering
  | [], [] => .eq
  | [], _ :: _ => .lt
  | _ :: _, [] => .gt
  | a :: as, b :: bs => if a < b then .lt else if b < a then .gt else orderBytes as bs

/-- The order of two numbers or two strings. -/
def order (x y : Value) : Except Fault Ordering :=
  match x, y with
  | .int a, .int b => .ok (compare a.toInt b.toInt)
  | .str a, .str b => .ok (orderBytes a b)
  | _, _ =>
    if x.isNumber && y.isNumber then .ok (x.asFixed.order y.asFixed)
    else .error (.unfitOperands x.tag y.tag)

def compared (test : Ordering → Bool) (x y : Value) : Except Fault Value := do
  return .bool (test (← order x y))

/-- Strings are joined, numbers added. -/
def sum : Value → Value → Except Fault Value
  | .str a, .str b => .ok (.str (a ++ b))
  | x, y => arithmetic .plus x y

def binary (s : Option Symbol) (x y : Value) : Except Fault Value :=
  match s with
  | some .and => .ok (.bool (x.truthy && y.truthy))
  | some .or => .ok (.bool (x.truthy || y.truthy))
  | some .nor => .ok (.bool !(x.truthy || y.truthy))
  | some .xor => .ok (.bool (x.truthy != y.truthy))
  | some .xnor => .ok (.bool (x.truthy == y.truthy))
  | some .eq => .ok (.bool (x.same y))
  | some .ne => .ok (.bool !(x.same y))
  | some .lt => compared Ordering.isLT x y
  | some .le => compared Ordering.isLE x y
  | some .gt => compared Ordering.isGT x y
  | some .ge => compared Ordering.isGE x y
  | some .plus => sum x y
  | some .minus => arithmetic .minus x y
  | some .star => arithmetic .star x y
  | some .slash => arithmetic .slash x y
  | some .percent => arithmetic .percent x y
  | some .carat => arithmetic .carat x y
  | _ => .error .unsupportedBinary

end Operation

end TokenShell
