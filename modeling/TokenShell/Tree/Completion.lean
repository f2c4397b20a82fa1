import TokenShell.Number.Numeral
import TokenShell.Tree.Cause

/-! Setup links a node to its block; completion checks its shape once all its children are there. -/
namespace TokenShell

/-- The scope of a block is linked to the scope around it. -/
def Form.link (self outer : Nat) : Form → Form
  | .block kind scope => .block kind { scope with self, outer := some outer }
  | form => form

/-- Sets up a node whose parent's block for children is given, if the parent is set up. -/
def Label.setUp (l : Label) (within : Option Nat) : Except Failure Label :=
  if l.flags.setup then .ok l
  else
    match within with
    | none => l.fail .setupBeforeParent
    | some b =>
      .ok { l with
        block := some b
        form := l.form.link l.serial b
        flags := { l.flags with setup := true } }

namespace Node

mutual

/-- Sets up a whole tree from the top. -/
def setUp (within : Option Nat) : Node → Except Failure Node
  | mk l ks => do
    let l ← l.setUp within
    return mk l (← setUpAll l.innerBlock ks)

def setUpAll (within : Option Nat) : List Node → Except Failure (List Node)
  | [] => return []
  | n :: ns => do
    let n ← n.setUp within
    return n :: (← setUpAll within ns)

end

end Node

/-- A block whose only child is an expression is an expression, any other is code. -/
def BlockKind.ofKids : List Node → BlockKind
  | [n] => if n.form = .expression then .expression else .code
  | _ => .code

/-- The value a literal stands for. -/
def Label.literalValue (l : Label) : LiteralKind → Except Failure Value
  | .int =>
    match Integer.read l.token.value with
    | .ok n => .ok (.int n)
    | .error _ => l.fail (.invalidInteger l.token.value)
  | .fixed =>
    match Numeral.read? l.token.value with
    | some x => .ok (.fixed x)
    | none => l.fail (.invalidFixed l.token.value)
  | .str => .ok (.str l.token.value)

/-- Whether a node may be part of a command. -/
def Node.fitsCommand (n : Node) : Bool :=
  match n.form with
  | .fragment | .block .. => true
  | _ => false

/-- Marks a variable as the one an initializer declares. -/
def Node.declared? (n : Node) : Option Node :=
  match n.form with
  | .variable _ b => some (n.setLabel { n.label with form := .variable true b })
  | _ => none

namespace Label

/-- The arity of an operator from the number of its children. -/
def resolveArity (l : Label) (count : Nat) : Except Failure Arity :=
  match count with
  | 0 => .ok .nullary
  | 1 => .ok .unary
  | 2 => .ok .binary
  | n => l.fail (.tooManyOperands l.name n)

/-- An initializer has a variable and at most one expression; it makes the variable declare. -/
def completeInitializer (l : Label) (inDeclaration : Bool) (ks : List Node) :
    Except Failure (List Node) :=
  if !inDeclaration then l.fail .strayInitializer
  else
    match ks with
    | [first] | [first, _] =>
      match first.declared? with
      | some v => .ok (v :: ks.drop 1)
      | none => first.fail .unnamedInitializer
    | [_, _, _] => l.fail .typedInitializer
    | _ => l.fail (.initializerWidth ks.length)

/-- The shape rule of each form, for a node whose children are complete. -/
def checkShape (l : Label) (inDeclaration : Bool) (ks : List Node) :
    Except Failure (Form × List Node) :=
  match l.form with
  | .operator s _ slots => do return (.operator s (← l.resolveArity ks.length) slots, ks)
  | .block _ scope => .ok (.block (.ofKids ks) scope, ks)
  | .expression => if ks.length = 1 then .ok (l.form, ks) else l.fail (.expressionWidth ks.length)
  | .command _ =>
    if ks.isEmpty then l.fail .emptyCommand
    else
      match ks.find? fun k => !k.fitsCommand with
      | some k => k.fail (.unfitCommandPart k.name)
      | none => .ok (l.form, ks)
  | .fragment => if ks.isEmpty then .ok (l.form, ks) else l.fail .fragmentWithChildren
  | .variable .. =>
    if !ks.isEmpty then l.fail (.variableWithChildren l.token.value)
    else if l.token.value.isEmpty then l.fail .namelessVariable
    else .ok (l.form, ks)
  | .literal kind _ =>
    if !ks.isEmpty then l.fail .literalWithChildren
    else do return (.literal kind (← l.literalValue kind), ks)
  | .declaration _ =>
    if ks.isEmpty then l.fail (.emptyDeclaration l.name)
    else
      match ks.find? fun k => k.form ≠ .initializer with
      | some k => k.fail (.unfitDeclarationPart l.name k.name)
      | none => .ok (l.form, ks)
  | .initializer => do return (l.form, ← l.completeInitializer inDeclaration ks)

/-- Whether the children are parts of a declaration. -/
def isDeclaration (l : Label) : Bool :=
  match l.form with
  | .declaration _ => true
  | _ => false

end Label

namespace Node

mutual

/-- Completes a tree, children first. -/
def complete (inDeclaration : Bool) : Node → Except Failure Node
  | mk l ks =>
    if l.flags.complete then return mk l ks
    else if !l.flags.setup then l.fail .completeBeforeSetup
    else do
      let ks ← completeAll l.isDeclaration ks
      let (form, ks) ← l.checkShape inDeclaration ks
      return mk { l with form, flags := { l.flags with complete := true } } ks

def completeAll (inDeclaration : Bool) : List Node → Except Failure (List Node)
  | [] => return []
  | n :: ns => do
    let n ← n.complete inDeclaration
    return n :: (← completeAll inDeclaration ns)

end

end Node

end TokenShell
