import TokenShell.Tree.Chain

/-! Reordering: every operator chain of a fragment is taken apart and built again by priority.
Groups and all nodes that are no operators are opaque operands, so nothing moves across them. -/
namespace TokenShell

/-- An operand of a chain. What is inside it is settled only after the chain around it. -/
structure Operand where
  label : Label
  width : Nat
  settled : Except Failure Node

namespace Operand

/-- The label of an operator with its operands in its slots. -/
def bind (l : Label) (operands : List Node) : Label :=
  match l.form with
  | .operator s a _ => { l with form := .operator s a (operands.map (·.label.serial)) }
  | _ => l

/-- An operator above its operands. -/
def seat (op : Label) (operands : List Node) : Node :=
  .mk (bind op operands) (operands.map (·.adopt (some op.serial)))

/-- Checks one operator of a built chain against its arity and the operator above it, and gives the
limit for the operators below it. -/
def check (l : Label) (count : Nat) (limit : Option Nat) : Except Failure (Option Nat) :=
  if count ≠ l.arity.width then l.fail (.operandCount l.arity l.name count)
  else if l.isGrouping ∧ l.arity ≠ .unary then l.fail (.groupWidth l.name)
  else if l.arity = .nullary then .ok limit
  else do
    let p ← l.priority
    match limit with
    | some q => if p < q then l.fail (.belowTighter l.name p q) else return some p
    | none => return some p

/-- Checks a built chain from the top. -/
def validate (limit : Option Nat) : Chain Operand → Except Failure Unit
  | .operand a =>
    if a.label.isOperator then do
      let _ ← check a.label a.width none
      return ()
    else return ()
  | .unary op x => do
    let p ← check op 1 limit
    validate p x
  | .binary op x y => do
    let p ← check op 2 limit
    validate p x
    validate p y

/-- The built chain as a node, with its operands settled from left to right. -/
def settle : Chain Operand → Except Failure Node
  | .operand a => a.settled
  | .unary op x => do return seat op [← settle x]
  | .binary op x y => do
    let x ← settle x
    let y ← settle y
    return seat op [x, y]

/-- The built chain below its parent. A single operand has not moved. -/
def hang (parent : Option Nat) : Chain Operand → Except Failure Node
  | .operand a => a.settled
  | chain => do return (← settle chain).adopt parent

/-- The items of a chain, or the failure met while taking it apart. -/
abbrev Items := Except Failure (List (Chain.Item Operand))

/-- Builds a chain. A failure of the chain comes at once, one inside its operands only on demand. -/
def rebuild (parent : Option Nat) (items : Items) : Except Failure (Except Failure Node) := do
  let chain ← Chain.build (·.label.token) (← items)
  validate none chain
  return hang parent chain

/-- Builds a chain and settles its operands. -/
def rebuildNow (parent : Option Nat) (items : Items) : Except Failure Node := do
  (← rebuild parent items)

/-- The items of a node from those of its children. Prefix and infix operators extend the chain, a
group rebuilds its own, and all else is one operand. -/
def items (l : Label) (parts : List Items) : Items :=
  if l.isOperator ∧ !l.flags.reordered then
    if l.isGrouping then do
      let inner ← parts.mapM (rebuild (some l.serial))
      return [.operand ⟨l, parts.length, do
        let ks ← inner.mapM id
        return .mk (bind l ks) ks⟩]
    else if l.arity = .nullary then
      return [.operand ⟨l, parts.length, .ok (.mk (bind l []) [])⟩]
    else do
      let p ← l.priority
      match l.arity, parts with
      | .unary, [x] => return .unary l p :: (← x)
      | .binary, [x, y] => do
        let x ← x
        let y ← y
        return x ++ .binary l p :: y
      | _, _ => l.fail (.unresolvedInChain l.name)
  else return [.operand ⟨l, parts.length, do
    return .mk l (← parts.mapM (rebuildNow (some l.serial)))⟩]

end Operand

namespace Node

mutual

/-- Marks a whole tree as reordered; all of it must be complete. -/
def markReordered : Node → Except Failure Node
  | mk l ks =>
    if !l.flags.complete then l.fail .reorderIncomplete
    else do
      let ks ← markReorderedAll ks
      return mk { l with flags := { l.flags with reordered := true } } ks

def markReorderedAll : List Node → Except Failure (List Node)
  | [] => return []
  | n :: ns => do
    let n ← n.markReordered
    return n :: (← markReorderedAll ns)

end

/-- Builds the chain that a node heads again below a parent, and then those inside its operands. -/
def rebuildAt (parent : Option Nat) (n : Node) : Except Failure Node :=
  Operand.rebuildNow parent (n.fold Operand.items)

def rebuild (n : Node) : Except Failure Node := n.rebuildAt n.label.parent

/-- Reorders every chain of a fragment, outer ones before those inside their operands. -/
def reorder (n : Node) : Except Failure Node := do (← n.rebuild).markReordered

end Node

end TokenShell
