import TokenShell.Tree.Basic

/-! The tree as text: one node a line, indented by depth, with its phases and the cursor. -/
namespace TokenShell

namespace Label

/-- What a line shows between the token and the phases. -/
def remark (l : Label) : Bytes :=
  match l.form with
  | .block kind _ =>
    if kind = .undetermined then [] else (" (" : Bytes) ++ kind.text ++ (")" : Bytes)
  | .operator _ arity _ =>
    if arity = .unresolved then [] else (" (" : Bytes) ++ arity.text ++ (")" : Bytes)
  | .variable declares (some k) =>
    (if declares then (" (declares in " : Bytes) else " (reads ") ++ Scopes.describe k ++
      (")" : Bytes)
  | _ => []

/-- One line, with a mark behind the phases if the cursor is here. -/
def line (depth : Nat) (mark : Bytes) (l : Label) : Bytes :=
  List.replicate (2 * depth) 0x20 ++ l.text ++ l.remark ++ (" [" : Bytes) ++ l.flags.text ++
    ("]" : Bytes) ++ mark ++ [Bytes.newline]

end Label

namespace Node

mutual

def print (depth : Nat) : Node → Bytes
  | mk l ks => l.line depth [] ++ printAll (depth + 1) ks

def printAll (depth : Nat) : List Node → Bytes
  | [] => []
  | n :: ns => n.print depth ++ printAll depth ns

end

end Node

namespace Tree

/-- The mark of the cursor. -/
def mark (t : Tree) : Bytes := if t.expectHead then " < (" else " <"

/-- The open nodes from the outermost in; the last one is the cursor. -/
def printPath (mark : Bytes) (depth : Nat) : List Node → Bytes
  | [] => []
  | n :: ns =>
    n.label.line depth (if ns.isEmpty then mark else []) ++ Node.printAll (depth + 1) n.kids ++
      printPath mark (depth + 1) ns

/-- The whole tree. -/
def print (t : Tree) : Bytes :=
  rootToken.text ++ (if t.path.isEmpty then t.mark else []) ++ [Bytes.newline] ++
    Node.printAll 1 t.fragments ++ printPath t.mark 1 t.path.reverse

end Tree

end TokenShell
