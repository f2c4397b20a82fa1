import TokenShell.Tree.Basic

/-! Views of a tree: what stands in the slots of a node, and the scopes at a place. -/
namespace TokenShell

namespace Node

/-- The left or only operand of an operator, once its slots are filled. -/
def left? (n : Node) : Option Node := (n.label.operands n.kids)[0]?

/-- The right operand of a binary operator, once its slots are filled. -/
def right? (n : Node) : Option Node := (n.label.operands n.kids)[1]?

/-- The variable of an initializer. -/
def initialized? (n : Node) : Option Node :=
  match n.kids.head? with
  | some v =>
    match v.form with
    | .variable .. => some v
    | _ => none
  | none => none

/-- The expression of an initializer. -/
def initialValue? (n : Node) : Option Node := n.kids[1]?

/-- The expression wrapped by an expression node. -/
def wrapped? (n : Node) : Option Node :=
  match n.kids with
  | [e] => some e
  | _ => none

/-- The scope of a block reached by child positions; none if the way leaves the tree or does not end
at a block. -/
def scopeAt? : List Nat → Node → Option Scope
  | [], n => n.scope?
  | i :: is, n =>
    match n.kids[i]? with
    | some k => k.scopeAt? is
    | none => none

/-- The scopes of the blocks of a tree, each before the ones around it. -/
def blocks (n : Node) : Scopes :=
  n.fold fun l parts =>
    match l.form with
    | .block _ s => parts.flatten ++ [s]
    | _ => parts.flatten

end Node

namespace Tree

/-- The scope at a place given by child positions from the root; the root has the global scope. -/
def scopeAt? (t : Tree) : List Nat → Option Scope
  | [] => some t.globals
  | i :: is =>
    match t.roots[i]? with
    | some n => n.scopeAt? is
    | none => none

/-- All scopes of a tree, each before the ones around it. -/
def blocks (t : Tree) : Scopes := t.roots.flatMap Node.blocks ++ [t.globals]

end Tree

end TokenShell
