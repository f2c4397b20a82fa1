import TokenShell.Value.Operation

/-! Scopes: the variables declared in one block, and the chain of enclosing scopes. -/
namespace TokenShell

/-- A name together with the node that declares it. -/
abbrev Key := Bytes × Nat

/-- What a scope knows of a name: the node that declares it, and its cell, which is empty until the
declaration is evaluated. -/
structure Scope.Entry where
  name : Bytes
  declarer : Nat
  cell : Option Value
  deriving Repr, DecidableEq

/-- The variables of one block, and the links by which names are looked up. -/
structure Scope where
  /-- The number of the block; the global scope has zero. -/
  self : Nat := 0
  /-- The number of the scope around it, known from setup on. -/
  outer : Option Nat := none
  /-- The declared names in order. -/
  keys : List Key := []
  /-- The values of the names that have been written, the latest first. -/
  cells : List (Bytes × Value) := []
  deriving Repr, DecidableEq, Inhabited

namespace Scope

/-- The value stored under a name. -/
def cell? (s : Scope) (name : Bytes) : Option Value :=
  (s.cells.find? (·.1 == name)).map Prod.snd

def find? (s : Scope) (name : Bytes) : Option Entry :=
  (s.keys.find? (·.1 == name)).map fun k => ⟨k.1, k.2, s.cell? k.1⟩

def declares (s : Scope) (name : Bytes) : Bool := (s.find? name).isSome

/-- Adds a name, unless the scope declares it already. -/
def declare? (s : Scope) (name : Bytes) (declarer : Nat) : Option Scope :=
  if s.declares name then none else some { s with keys := s.keys ++ [(name, declarer)] }

/-- Takes back the declaration of a name with its value, if that node made it. -/
def retract (s : Scope) (name : Bytes) (declarer : Nat) : Scope :=
  if s.keys.contains (name, declarer) then
    { s with
      keys := s.keys.filter (· ≠ (name, declarer))
      cells := s.cells.filter (·.1 ≠ name) }
  else s

/-- The value of a declared name; nil while its cell is empty. -/
def get? (s : Scope) (name : Bytes) : Option Value := (s.find? name).map fun e => e.cell.getD .nil

/-- Stores a value under a name. -/
def bind (s : Scope) (name : Bytes) (v : Value) : Scope :=
  { s with cells := (name, v) :: s.cells.filter (·.1 ≠ name) }

/-- The declared names in dictionary order. -/
def names (s : Scope) : List Bytes :=
  (s.keys.map (·.1)).mergeSort fun a b => (Operation.orderBytes a b).isLE

/-- Where a search goes on: in the scope around this one, or in the global one as long as that is
not known. It ends with the global scope. -/
def next (s : Scope) : Option Nat := if s.self = 0 then none else some (s.outer.getD 0)

end Scope

/-- Scopes, each before the ones around it. The last one is the global scope. -/
abbrev Scopes := List Scope

namespace Scopes

/-- The scopes that the links lead to from the one with a given number, each with its position from
the global scope, which is its nesting level if no other scopes are given. -/
def trail : Option Nat → Scopes → List (Nat × Scope)
  | _, [] => []
  | b, s :: outer =>
    if b = some s.self then (outer.length, s) :: trail s.next outer else trail b outer

/-- The position of the first scope on the way out that declares a name. -/
def lookup (name : Bytes) (b : Option Nat) (ss : Scopes) : Option Nat :=
  ((ss.trail b).find? (·.2.declares name)).map Prod.fst

/-- How many scopes are around a scope. -/
def depth (b : Option Nat) (ss : Scopes) : Nat := (ss.trail b).length - 1

/-- The scope at a nesting level. -/
def level? (k : Nat) : Scopes → Option Scope
  | [] => none
  | s :: outer => if outer.length = k then some s else level? k outer

/-- Changes the scope at a nesting level. -/
def modifyLevel (k : Nat) (f : Scope → Scope) : Scopes → Scopes
  | [] => []
  | s :: outer => if outer.length = k then f s :: outer else s :: modifyLevel k f outer

/-- What the scope at a nesting level is called. -/
def describe : Nat → Bytes
  | 0 => "global"
  | k + 1 => ("block@" : Bytes) ++ Bytes.decimal (k + 1)

end Scopes

end TokenShell
