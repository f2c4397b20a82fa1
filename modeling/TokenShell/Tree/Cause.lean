import TokenShell.Error.Fault
import TokenShell.Tree.Node

/-! Everything that can go wrong while a tree is built or evaluated. -/
namespace TokenShell

/-- The cause of a failure. The last group can arise in no reachable tree. -/
inductive Cause where
  -- nesting
  | headMissing
  | terminatorAfterOpen
  | terminatorInside (name : Bytes)
  | openerAsHead (name : Bytes)
  | closerAfterOpen (closer : Bytes)
  | unmatched (closer : Bytes)
  -- shape
  | tooManyOperands (name : Bytes) (count : Nat)
  | expressionWidth (count : Nat)
  | emptyCommand
  | unfitCommandPart (name : Bytes)
  | fragmentWithChildren
  | variableWithChildren (name : Bytes)
  | namelessVariable
  | literalWithChildren
  | invalidInteger (text : Bytes)
  | invalidFixed (text : Bytes)
  | emptyDeclaration (name : Bytes)
  | unfitDeclarationPart (name part : Bytes)
  | strayInitializer
  | typedInitializer
  | initializerWidth (count : Nat)
  | unnamedInitializer
  | groupWidth (name : Bytes)
  -- precedence
  | unknownPriority (arity : Arity) (name : Bytes)
  | looseOperand (name : Bytes) (priority limit : Nat)
  -- scope
  | nameConflict (level : Nat) (name : Bytes)
  | renewUndeclared (name : Bytes)
  | undeclared (name : Bytes)
  -- evaluation
  | operation (name : Bytes) (fault : Operation.Fault)
  | noLongerDeclared (name : Bytes)
  | noDispatcher (command : Bytes)
  | dispatchFailed (command : Bytes)
  | statusNotInteger (line : Bytes)
  -- guards
  | blockText (kind : BlockKind)
  | attachToCompleted (text : Bytes)
  | setupBeforeParent
  | completeBeforeSetup
  | reorderIncomplete
  | analyzeBeforeReorder
  | evaluateBeforeAnalysis
  | priorityOfIncomplete (name : Bytes)
  | unresolvedInChain (name : Bytes)
  | unresolvedInEvaluation (name : Bytes)
  | leftover (text : Bytes)
  | missingOperand
  | missingLeftOperand (name : Bytes)
  | operandCount (arity : Arity) (name : Bytes) (count : Nat)
  | belowTighter (name : Bytes) (priority limit : Nat)
  | absent (part : Bytes)
  deriving Repr, DecidableEq

namespace Cause

def kind : Cause → ErrorKind
  | unknownPriority .. | looseOperand .. | reorderIncomplete | priorityOfIncomplete .. | leftover ..
  | missingOperand | missingLeftOperand .. | belowTighter .. => .precedence
  | nameConflict .. | renewUndeclared .. | undeclared .. => .scope
  | statusNotInteger .. => .protocol
  | operation .. | noLongerDeclared .. | noDispatcher .. | dispatchFailed .. | blockText ..
  | evaluateBeforeAnalysis | unresolvedInEvaluation .. | absent .. => .runtime
  | _ => .structural

/-- Pieces of text in a row. -/
def words (parts : List Bytes) : Bytes := parts.flatten

def operationMessage (name : Bytes) : Operation.Fault → Bytes
  | .overflow => words ["integer overflow in ", name]
  | .divisionByZero => "division by zero"
  | .moduloByZero => "modulo by zero"
  | .unfitOperand t => words ["operator ", name, " does not apply to ", t]
  | .unfitOperands t u => words ["operator ", name, " does not apply to ", t, " and ", u]
  | .unsupportedUnary => words ["unary operator ", name, " is not supported for evaluation"]
  | .unsupportedBinary => words ["binary operator ", name, " is not supported for evaluation"]

def message : Cause → Bytes
  | headMissing => "( must be followed by a group head"
  | terminatorAfterOpen => "; right after ("
  | terminatorInside name => words ["; inside an open ", name]
  | openerAsHead name => words [name, " cannot be a group head"]
  | closerAfterOpen closer => words [closer, " right after ("]
  | unmatched closer => words ["unmatched ", closer]
  | tooManyOperands name n =>
    words ["operator ", name, " cannot have ", Bytes.decimal n, " children (at most 2)"]
  | expressionWidth n =>
    words ["expression block must wrap exactly one expression, got ", Bytes.decimal n]
  | emptyCommand => "empty command"
  | unfitCommandPart name => words ["command cannot contain ", name]
  | fragmentWithChildren => "command fragment cannot have children"
  | variableWithChildren name => words ["variable ", Text.quoted name, " cannot have children"]
  | namelessVariable => "variable without a name"
  | literalWithChildren => "literal cannot have children"
  | invalidInteger text => words ["invalid integer ", Text.quoted text]
  | invalidFixed text => words ["invalid fixed-point number ", Text.quoted text]
  | emptyDeclaration name => words [name, " without any variable"]
  | unfitDeclarationPart name part => words [name, " only accepts init children, got ", part]
  | strayInitializer => "init outside of a new statement"
  | typedInitializer => "typed declarations are not supported"
  | initializerWidth n =>
    words ["init takes a name and an optional initializer, got ", Bytes.decimal n, " children"]
  | unnamedInitializer => "init must start with a variable name"
  | groupWidth name => words [name, " must wrap exactly one operand"]
  | unknownPriority arity name => words ["unknown priority for ", arity.text, " operator ", name]
  | looseOperand name p limit =>
    words [name, " (priority ", Bytes.decimal p,
      ") cannot be an operand of an operator with priority ", Bytes.decimal limit,
      "; parenthesize it"]
  | nameConflict level name =>
    words ["block ", Scopes.describe level, " cannot add variable ", Text.quoted name,
      "; name conflicts in its scope"]
  | renewUndeclared name =>
    words ["cannot renew ", Text.quoted name, "; it is not declared in scope"]
  | undeclared name => words ["variable ", Text.quoted name, " is not declared in scope"]
  | operation name fault => operationMessage name fault
  | noLongerDeclared name => words ["variable ", Text.quoted name, " is no longer declared"]
  | noDispatcher command => words ["no dispatcher configured for command ", Text.quoted command]
  | dispatchFailed command => words ["dispatching ", Text.quoted command, " failed"]
  | statusNotInteger line => words ["status line ", Text.quoted line, " is not an integer"]
  | blockText kind => words ["cannot get command text of a ", kind.text, " block"]
  | attachToCompleted text => words ["cannot attach ", text, " to a completed node"]
  | setupBeforeParent => "cannot set up a node before its parent"
  | completeBeforeSetup => "cannot complete a node that is not set up"
  | reorderIncomplete => "cannot reorder an incomplete node"
  | analyzeBeforeReorder => "cannot analyze a node that is not reordered"
  | evaluateBeforeAnalysis => "cannot evaluate a node that is not analyzed"
  | priorityOfIncomplete name => words ["cannot query priority of incomplete operator ", name]
  | unresolvedInChain name => words ["operator ", name, " has unresolved arity"]
  | unresolvedInEvaluation name =>
    words ["operator ", name, " evaluated before its arity was resolved"]
  | leftover text => words ["operator chain has leftover ", text]
  | missingOperand => "operator chain ends without an operand"
  | missingLeftOperand name => words ["operator ", name, " is missing its left operand"]
  | operandCount arity name n =>
    words [arity.text, " operator ", name, " has ", Bytes.decimal n, " operands"]
  | belowTighter name p limit =>
    words [name, " (priority ", Bytes.decimal p, ") ended up below an operator with priority ",
      Bytes.decimal limit]
  | absent part => words ["absent ", part]

end Cause

/-- A failure: its cause, the node it shows at, the error behind it and the token being inserted. -/
structure Failure where
  cause : Cause
  node : Option Token
  inner : Option Fault := none
  token : Option Token := none
  deriving Repr

namespace Failure

def fault (f : Failure) : Fault :=
  .report f.cause.kind f.cause.message ((f.node.map Token.text).getD []) f.token f.inner

/-- Names the token being inserted, unless one is named already. -/
def withToken (f : Failure) (t : Token) : Failure := { f with token := f.token <|> some t }

end Failure

/-- A failure at a node. -/
def Label.fail {α : Type} (l : Label) (c : Cause) : Except Failure α :=
  .error { cause := c, node := some l.token }

/-- A failure at a node. -/
def Node.fail {α : Type} (n : Node) (c : Cause) : Except Failure α := n.label.fail c

end TokenShell
