import TokenShell.Tree.Cause

/-! Operator chains: a flat sequence of operands and operators, built into a tree by priority. -/
namespace TokenShell

/-- An operator tree over opaque operands. -/
inductive Chain (α : Type) where
  | operand (a : α)
  | unary (op : Label) (x : Chain α)
  | binary (op : Label) (x y : Chain α)
  deriving Repr

namespace Chain

variable {α : Type}

/-- One place in a flat chain; operators come with their priority. -/
inductive Item (α : Type) where
  | operand (a : α)
  | unary (op : Label) (priority : Nat)
  | binary (op : Label) (priority : Nat)
  deriving Repr

/-- An operator that waits for its last operand. -/
inductive Waiting (α : Type) where
  | unary (op : Label) (priority : Nat)
  | binary (x : Chain α) (op : Label) (priority : Nat)
  deriving Repr

def Waiting.priority : Waiting α → Nat
  | unary _ p => p
  | binary _ _ p => p

/-- Gives a waiting operator its last operand. -/
def Waiting.close (y : Chain α) : Waiting α → Chain α
  | unary op _ => .unary op y
  | binary x op _ => .binary op x y

/-- Closes the waiting operators that bind at least as tightly as a given priority. -/
def closeDownTo (p : Nat) (x : Chain α) : List (Waiting α) → Chain α × List (Waiting α)
  | [] => (x, [])
  | w :: ws => if p ≤ w.priority then closeDownTo p (w.close x) ws else (x, w :: ws)

/-- Closes all waiting operators. -/
def closeAll (x : Chain α) (ws : List (Waiting α)) : Chain α := ws.foldl (fun x w => w.close x) x

/-- A prefix operator may not follow an operator that binds more tightly. -/
def checkLoose (op : Label) (p : Nat) : List (Waiting α) → Except Failure Unit
  | [] => .ok ()
  | w :: _ => if p < w.priority then op.fail (.looseOperand op.name p w.priority) else .ok ()

/-- What stands where an operator should. -/
def leftoverText (text : α → Token) : Item α → Token
  | .operand a => text a
  | .unary op _ | .binary op _ => op.token

/-- Builds the tree of the remaining items: `x` is the operand just finished, if there is one, and
`ws` are the operators waiting, innermost first. Equal priorities associate to the left. -/
def buildFrom (text : α → Token) (ws : List (Waiting α)) :
    Option (Chain α) → List (Item α) → Except Failure (Chain α)
  | none, [] => .error { cause := .missingOperand, node := none }
  | none, .operand a :: items => buildFrom text ws (some (.operand a)) items
  | none, .unary op p :: items => do
    checkLoose op p ws
    buildFrom text (.unary op p :: ws) none items
  | none, .binary op _ :: _ => op.fail (.missingLeftOperand op.name)
  | some x, [] => .ok (closeAll x ws)
  | some x, .binary op p :: items =>
    let (x, ws) := closeDownTo p x ws
    buildFrom text (.binary x op p :: ws) none items
  | some _, item :: _ =>
    let t := leftoverText text item
    .error { cause := .leftover t.text, node := some t }

/-- The tree of a flat chain. -/
def build (text : α → Token) (items : List (Item α)) : Except Failure (Chain α) :=
  buildFrom text [] none items

end Chain

/-- The binding strength of an operator; a higher one binds more tightly. -/
def Symbol.priority? (s : Symbol) (a : Arity) : Option Nat :=
  match s with
  | .dot => some 1
  | .or | .nor | .xor | .xnor => some 2
  | .and => some 3
  | .eq | .ne => some 4
  | .lt | .le | .gt | .ge => some 5
  | .userop => some 6
  | .tilde | .doubletilde => some 7
  | .star | .slash | .percent => some 9
  | .carat => some 10
  | .not => some 11
  | .pipe => some 13
  | .amp => some 14
  | .paren | .bracket => some 15
  | .plus | .minus =>
    match a with
    | .binary => some 8
    | .unary => some 12
    | _ => none

/-- The priority of a complete operator. -/
def Label.priority (l : Label) : Except Failure Nat :=
  if !l.flags.complete then l.fail (.priorityOfIncomplete l.name)
  else
    match l.form with
    | .operator (some s) a _ =>
      match s.priority? a with
      | some p => .ok p
      | none => l.fail (.unknownPriority a l.name)
    | _ => l.fail (.unknownPriority l.arity l.name)

end TokenShell
