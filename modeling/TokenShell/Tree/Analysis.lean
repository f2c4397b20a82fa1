import TokenShell.Tree.Cause

/-! Analysis: declarations enter their scope and variables are bound, in source order. -/
namespace TokenShell

/-- Work that declares names and may fail; the names declared before a failure stay. -/
abbrev Analysis := ExceptT Failure (StateM Scopes)

namespace Analysis

def scopes : Analysis Scopes := fun s => (.ok s, s)

def fail {α : Type} (n : Node) (c : Cause) : Analysis α := fun s => (n.fail c, s)

/-- Declares a name in the innermost scope and gives its level. -/
def declare (v : Node) : Analysis Nat := fun
  | [] => (v.fail (.absent "scope"), [])
  | s :: outer =>
    match s.declare? v.label.token.value v.label.serial with
    | some s => (.ok outer.length, s :: outer)
    | none =>
      (v.fail (.nameConflict (Scopes.depth (some s.self) (s :: outer)) v.label.token.value),
        s :: outer)

/-- Works inside a scope and hands it back changed. -/
def inside {α : Type} (inner : Scope) (work : Analysis α) : Analysis (α × Scope) := fun outer =>
  match work (inner :: outer) with
  | (.ok a, s :: outer) => (.ok (a, s), outer)
  | (.ok a, []) => (.ok (a, inner), [])
  | (.error f, scopes) => (.error f, scopes.drop 1)

end Analysis

namespace Node

/-- Binds a variable to the scope at a level. -/
def bindTo (v : Node) (level : Nat) : Node :=
  match v.form with
  | .variable d _ => v.setLabel { v.label with form := .variable d (some level) }
  | _ => v

/-- A reference is bound to the innermost scope that declares its name, from its own block on. -/
def resolve (v : Node) : Analysis Node := do
  match (← Analysis.scopes).lookup v.label.token.value v.label.block with
  | some k => return v.bindTo k
  | none => Analysis.fail v (.undeclared v.label.token.value)

def isVariable (n : Node) : Bool :=
  match n.form with
  | .variable .. => true
  | _ => false

/-- The variable of an initializer is declared in the innermost scope, or bound where it is declared
already, from the block of the initializer on, if the declaration renews. -/
def introduce (renew : Bool) (block : Option Nat) (v : Node) : Analysis Node := do
  if !v.isVariable then Analysis.fail v (.absent "variable")
  else if renew then
    match (← Analysis.scopes).lookup v.label.token.value block with
    | some k => return v.bindTo k
    | none => Analysis.fail v (.renewUndeclared v.label.token.value)
  else return v.bindTo (← Analysis.declare v)

/-- The rule of each form, for a node whose children are analyzed. -/
def analyzeHead (renew : Bool) (n : Node) : Analysis Node := do
  match n.form with
  | .variable false _ => n.resolve
  | .initializer =>
    match n with
    | mk l (v :: ks) => return mk l ((← v.introduce renew l.block) :: ks)
    | mk _ [] => Analysis.fail n (.absent "variable")
  | _ => return n

def markAnalyzed (n : Node) : Node :=
  n.setLabel { n.label with flags := { n.label.flags with analyzed := true } }

mutual

/-- Analyzes a tree, children first. -/
def analyze (renew : Bool) : Node → Analysis Node
  | mk l ks =>
    if l.flags.analyzed then return mk l ks
    else if !l.flags.reordered then Analysis.fail (mk l ks) .analyzeBeforeReorder
    else
      match l.form with
      | .block kind scope => do
        let (ks, scope) ← Analysis.inside scope (analyzeAll false ks)
        return (mk { l with form := .block kind scope } ks).markAnalyzed
      | .declaration renews => do
        let ks ← analyzeAll renews ks
        return (mk l ks).markAnalyzed
      | _ => do
        let ks ← analyzeAll false ks
        return (← (mk l ks).analyzeHead renew).markAnalyzed

def analyzeAll (renew : Bool) : List Node → Analysis (List Node)
  | [] => return []
  | n :: ns => do
    let n ← n.analyze renew
    return n :: (← analyzeAll renew ns)

end

end Node

end TokenShell
