import TokenShell.Tree.Scope

/-! Nodes of the evaluation tree. -/
namespace TokenShell

/-- How many operands an operator takes, once known. -/
inductive Arity where
  | unresolved
  | nullary
  | unary
  | binary
  deriving Repr, DecidableEq

def Arity.text : Arity → Bytes
  | unresolved => "unresolved"
  | nullary => "nullary"
  | unary => "unary"
  | binary => "binary"

/-- The number of operands an arity asks for. -/
def Arity.width : Arity → Nat
  | unresolved | nullary => 0
  | unary => 1
  | binary => 2

/-- What a block turned out to be: statements, or a single expression. -/
inductive BlockKind where
  | undetermined
  | code
  | expression
  deriving Repr, DecidableEq

def BlockKind.text : BlockKind → Bytes
  | undetermined => "undetermined"
  | code => "code"
  | expression => "expression"

/-- The variants of a node, each with the state that only it has. -/
inductive Form where
  /-- An operator; no symbol if its name is not an operator's. Its operand slots hold the numbers of
  the operands, once they are filled. -/
  | operator (symbol : Option Symbol) (arity : Arity) (slots : List Nat)
  /-- A block is a scope. -/
  | block (kind : BlockKind) (scope : Scope)
  | expression
  | command (skipped : Bool)
  | fragment
  /-- An identifier; once analyzed it is bound to the scope at a nesting level. -/
  | variable (declares : Bool) (binding : Option Nat)
  | literal (kind : LiteralKind) (value : Value)
  | declaration (renew : Bool)
  | initializer
  deriving Repr, DecidableEq

/-- The phases a node has been through. -/
structure Flags where
  setup : Bool := false
  complete : Bool := false
  reordered : Bool := false
  analyzed : Bool := false
  evaluated : Bool := false
  deriving Repr, DecidableEq

/-- One letter for each phase, a dash if it is still to come. -/
def Flags.text (f : Flags) : Bytes :=
  [if f.setup then 0x53 else 0x2d, if f.complete then 0x43 else 0x2d,
    if f.reordered then 0x52 else 0x2d, if f.analyzed then 0x41 else 0x2d,
    if f.evaluated then 0x45 else 0x2d]

/-- All of a node but its children. -/
structure Label where
  token : Token
  /-- The ordinal number of the inserted token that made the node. -/
  serial : Nat
  form : Form
  /-- The marker that opened the node; none for a leaf. -/
  opener : Option Marker := none
  /-- The ordinal number of the token that closed the node. -/
  closedAt : Option Nat := none
  flags : Flags := {}
  /-- The number of the parent once attached; the root has zero. -/
  parent : Option Nat := none
  /-- The number of the enclosing block, known from setup on; the global scope has zero. -/
  block : Option Nat := none
  result : Value := .nil
  deriving Repr, DecidableEq

/-- A node with its children in order. -/
inductive Node where
  | mk (label : Label) (kids : List Node)
  deriving Repr

namespace Node

def label : Node → Label
  | mk l _ => l

def kids : Node → List Node
  | mk _ ks => ks

def setLabel (n : Node) (l : Label) : Node := mk l n.kids

/-- The node with its parent link set. -/
def adopt (parent : Option Nat) (n : Node) : Node := n.setLabel { n.label with parent }

def flags (n : Node) : Flags := n.label.flags

def form (n : Node) : Form := n.label.form

def result (n : Node) : Value := n.label.result

/-- The node as its token. -/
def text (n : Node) : Bytes := n.label.token.text

def name (n : Node) : Bytes := n.label.token.name

def isBlock (n : Node) : Bool :=
  match n.form with
  | .block .. => true
  | _ => false

mutual

/-- Combines a tree from the leaves up. -/
def fold {α : Type} (f : Label → List α → α) : Node → α
  | mk l ks => f l (foldAll f ks)

def foldAll {α : Type} (f : Label → List α → α) : List Node → List α
  | [] => []
  | n :: ns => n.fold f :: foldAll f ns

end

/-- The labels of a tree, each before those of its children. -/
def labels (n : Node) : List Label := n.fold fun l parts => l :: parts.flatten

end Node

/-- The form of a node made from a token. Names without a form of their own become operators. -/
def Form.ofToken (t : Token) : Form :=
  match t.kind with
  | .literal k => .literal k .nil
  | .marker .openBlock => .block .undetermined {}
  | .marker .openCommand => .command false
  | .expression => .expression
  | .identifier => .variable false none
  | .fragment => .fragment
  | .declaration renew => .declaration renew
  | .initializer => .initializer
  | .operator s => .operator (some s) .unresolved []
  | .marker _ | .word => .operator none .unresolved []

namespace Label

def ofToken (t : Token) (serial : Nat) : Label := { token := t, serial, form := Form.ofToken t }

def name (l : Label) : Bytes := l.token.name

def text (l : Label) : Bytes := l.token.text

def isOperator (l : Label) : Bool :=
  match l.form with
  | .operator .. => true
  | _ => false

def isGrouping (l : Label) : Bool :=
  match l.form with
  | .operator (some s) _ _ => s.isGrouping
  | _ => false

def arity (l : Label) : Arity :=
  match l.form with
  | .operator _ a _ => a
  | _ => .unresolved

/-- The numbers in the operand slots. -/
def slots (l : Label) : List Nat :=
  match l.form with
  | .operator _ _ slots => slots
  | _ => []

/-- The children that stand in the operand slots. -/
def operands (l : Label) (ks : List Node) : List Node :=
  l.slots.filterMap fun i => ks.find? (·.label.serial == i)

/-- The number of the block that the node's children belong to. -/
def innerBlock (l : Label) : Option Nat :=
  match l.form with
  | .block .. => l.block.map fun _ => l.serial
  | _ => l.block

end Label

/-- A fresh node without children. -/
def Node.ofToken (t : Token) (serial : Nat) : Node := .mk (Label.ofToken t serial) []

end TokenShell
