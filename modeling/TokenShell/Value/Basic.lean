import TokenShell.Number.Decimal
import TokenShell.Number.Integer

/-! Values of expressions and commands. -/
namespace TokenShell

inductive Value where
  | nil
  | int (n : Int64)
  | fixed (x : Binary64)
  | str (s : Bytes)
  | bool (b : Bool)
  deriving Repr, DecidableEq, Inhabited

namespace Value

/-- The name of the value's type. -/
def tag : Value → Bytes
  | nil => "nil"
  | int _ => "int"
  | fixed _ => "fixed"
  | str _ => "str"
  | bool _ => "bool"

/-- The text a value is printed as and contributes to a command. -/
def text : Value → Bytes
  | nil => "nil"
  | int n => Integer.text n
  | fixed x => Decimal.general.text x
  | str s => s
  | bool true => "true"
  | bool false => "false"

def isNil : Value → Bool
  | nil => true
  | _ => false

def isNumber : Value → Bool
  | int _ | fixed _ => true
  | _ => false

/-- The integer, or zero if the value is none. -/
def asInt : Value → Int64
  | int n => n
  | _ => 0

/-- The number as a double, or zero if the value is no number. -/
def asFixed : Value → Binary64
  | fixed x => x
  | int n => Binary64.ofInt n.toInt
  | _ => Binary64.zero false

/-- The string, or the empty one if the value is none. -/
def asStr : Value → Bytes
  | str s => s
  | _ => []

/-- The truth value, or false if the value is none. -/
def asBool : Value → Bool
  | bool b => b
  | _ => false

/-- Nil, false, zero and the empty string are false, all else is true. -/
def truthy : Value → Bool
  | nil => false
  | bool b => b
  | int n => n != 0
  | fixed x => !x.isZero
  | str s => !s.isEmpty

/-- Equality as the language sees it: numbers compare numerically, other values by type and content.
-/
def same : Value → Value → Bool
  | int a, int b => a == b
  | nil, nil => true
  | str a, str b => a == b
  | bool a, bool b => a == b
  | x, y => x.isNumber && y.isNumber && x.asFixed.sameNumber y.asFixed

end Value

end TokenShell
