import TokenShell.Dispatch.Basic
import TokenShell.Text.Blank

/-! Evaluation: values from the leaves up, cells of variables, and commands handed to a dispatcher.
-/
namespace TokenShell

/-- The state evaluation works on; `world` belongs to the dispatcher. -/
structure Machine (σ : Type) where
  scopes : Scopes
  world : σ
  cancelled : Bool
  outputs : List Output

/-- Work that may fail; what it did before a failure stays done. -/
abbrev Evaluation (σ : Type) := ExceptT Failure (StateM (Machine σ))

namespace Evaluation

variable {σ α : Type}

def fail (l : Label) (c : Cause) : Evaluation σ α := fun m => (l.fail c, m)

def emit (e : Event) : Evaluation σ Unit := fun m =>
  (.ok (), { m with outputs := m.outputs ++ [.log e] })

/-- The value of a name in the scope at a level. -/
def read (level : Nat) (name : Bytes) : Evaluation σ (Option Value) := fun m =>
  (.ok ((m.scopes.level? level).bind (·.get? name)), m)

/-- Writes the cell of a name in the scope at a level; false if the name is not declared there. -/
def write (level : Nat) (name : Bytes) (v : Value) : Evaluation σ Bool := fun m =>
  match m.scopes.level? level with
  | some s =>
    if s.declares name then
      (.ok true, { m with scopes := m.scopes.modifyLevel level (·.bind name v) })
    else (.ok false, m)
  | none => (.ok false, m)

/-- Hands a command to the dispatcher. -/
def dispatch (d : Dispatcher σ) (command : Bytes) : Evaluation σ (Except Fault Bytes) := fun m =>
  let (reply, world) := d.send m.cancelled command m.world
  (.ok reply.answer,
    { m with
      world
      cancelled := m.cancelled || reply.cancels
      outputs := m.outputs ++ reply.outputs })

/-- Works inside a scope and hands it back changed. -/
def inside (inner : Scope) (work : Evaluation σ α) : Evaluation σ (α × Scope) := fun m =>
  match work { m with scopes := inner :: m.scopes } with
  | (.ok a, m) =>
    match m.scopes with
    | s :: outer => (.ok (a, s), { m with scopes := outer })
    | [] => (.ok (a, inner), m)
  | (.error f, m) => (.error f, { m with scopes := m.scopes.drop 1 })

end Evaluation

namespace Node

/-- The text a block contributes to a command: the value of its single expression. -/
def blockText (n : Node) : Except Failure Bytes :=
  match n.form, n.kids with
  | .block .expression _, [e] => .ok e.result.text
  | .block kind _, _ => n.fail (.blockText kind)
  | _, _ => n.fail (.blockText .undetermined)

def isCodeBlock (n : Node) : Bool :=
  match n.form with
  | .block .code _ => true
  | _ => false

/-- The text one part contributes to a command. -/
def partText (n : Node) : Except Failure Bytes :=
  match n.form with
  | .fragment => .ok n.label.token.value
  | .block .. => n.blockText
  | _ => .ok []

/-- The text of a command: its parts in order, put together. -/
def commandText (parts : List Node) : Except Failure Bytes := do
  return (← parts.mapM partText).flatten

end Node

/-- The report on a status line that is no integer. -/
def Integer.Misfit.fault (text : Bytes) (m : Integer.Misfit) : Fault :=
  .plain (("strconv.Atoi: parsing " : Bytes) ++ Text.quoted text ++
    match m with
    | .malformed => (": invalid syntax" : Bytes)
    | .outOfRange => (": value out of range" : Bytes))

namespace Label

variable {σ : Type}

def withResult (l : Label) (v : Value) : Label := { l with result := v }

/-- An operator applied to the values in its slots. -/
def evaluateOperator (l : Label) (ks : List Node) : Evaluation σ Label :=
  let finish (r : Except Operation.Fault Value) : Evaluation σ Label :=
    match r with
    | .ok v => return l.withResult v
    | .error f => Evaluation.fail l (.operation l.name f)
  match l.form with
  | .operator s a _ =>
    match a, l.operands ks with
    | .nullary, _ => return l.withResult .nil
    | .unary, [x] => finish (Operation.unary s x.result)
    | .binary, [x, y] => finish (Operation.binary s x.result y.result)
    | .unresolved, _ => Evaluation.fail l (.unresolvedInEvaluation l.name)
    | _, _ => Evaluation.fail l (.absent "operand")
  | _ => Evaluation.fail l (.unresolvedInEvaluation l.name)

/-- A reference yields the value of its variable; a declared name yields nothing by itself. -/
def evaluateVariable (l : Label) : Evaluation σ Label := do
  match l.form with
  | .variable false (some k) =>
    match ← Evaluation.read k l.token.value with
    | some v => return l.withResult v
    | none => Evaluation.fail l (.noLongerDeclared l.token.value)
  | .variable false none => Evaluation.fail l (.absent "binding")
  | _ => return l

/-- An initializer writes its value, nil if it has none, to the cell of its variable. -/
def evaluateInitializer (l : Label) (ks : List Node) : Evaluation σ Label := do
  match ks with
  | [] => Evaluation.fail l (.absent "variable")
  | v :: rest =>
    let value := (rest.head?.map Node.result).getD .nil
    match v.form with
    | .variable _ (some k) =>
      if ← Evaluation.write k v.label.token.value value then return l.withResult value
      else Evaluation.fail v.label (.noLongerDeclared v.label.token.value)
    | _ => Evaluation.fail v.label (.absent "binding")

/-- A command is skipped if it holds a code block, else assembled and dispatched once. -/
def evaluateCommand (d : Option (Dispatcher σ)) (l : Label) (ks : List Node) :
    Evaluation σ Label := do
  if ks.any Node.isCodeBlock then
    Evaluation.emit .commandSkipped
    return { l with form := .command true, result := .nil }
  let command ← (Node.commandText ks : Except Failure Bytes)
  match d with
  | none => Evaluation.fail l (.noDispatcher command)
  | some d =>
    Evaluation.emit (.dispatching l.serial command)
    match ← Evaluation.dispatch d command with
    | .error f =>
      throw { cause := .dispatchFailed command, node := some l.token, inner := some f }
    | .ok line =>
      let status := Bytes.trim line
      match Integer.read status with
      | .error m =>
        throw { cause := .statusNotInteger line, node := some l.token,
                inner := some (m.fault status) }
      | .ok n =>
        Evaluation.emit (.commandFinished command n)
        return l.withResult (.int n)

/-- The value of the first child. -/
def evaluateFirst (l : Label) (ks : List Node) : Evaluation σ Label :=
  match ks with
  | n :: _ => return l.withResult n.result
  | [] => Evaluation.fail l (.absent "expression")

/-- The rule of each form, for a node whose children are evaluated. -/
def evaluate (d : Option (Dispatcher σ)) (l : Label) (ks : List Node) : Evaluation σ Label :=
  match l.form with
  | .literal _ v => return l.withResult v
  | .variable .. => l.evaluateVariable
  | .operator .. => l.evaluateOperator ks
  | .expression => l.evaluateFirst ks
  | .block .expression _ => l.evaluateFirst ks
  | .block _ _ => return l.withResult .nil
  | .fragment => return l.withResult (.str l.token.value)
  | .command _ => l.evaluateCommand d ks
  | .declaration _ =>
    match ks.getLast? with
    | some n => return l.withResult n.result
    | none => Evaluation.fail l (.absent "initializer")
  | .initializer => l.evaluateInitializer ks

def markEvaluated (l : Label) : Label := { l with flags := { l.flags with evaluated := true } }

end Label

namespace Node

variable {σ : Type}

mutual

/-- Evaluates a tree, children first and from left to right. -/
def evaluate (d : Option (Dispatcher σ)) : Node → Evaluation σ Node
  | mk l ks =>
    if l.flags.evaluated then return mk l ks
    else if !l.flags.analyzed then Evaluation.fail l .evaluateBeforeAnalysis
    else
      match l.form with
      | .block kind scope => do
        let (ks, scope) ← Evaluation.inside scope (evaluateAll d ks)
        let l ← { l with form := .block kind scope }.evaluate d ks
        return mk l.markEvaluated ks
      | _ => do
        let ks ← evaluateAll d ks
        let l ← l.evaluate d ks
        return mk l.markEvaluated ks

def evaluateAll (d : Option (Dispatcher σ)) : List Node → Evaluation σ (List Node)
  | [] => return []
  | n :: ns => do
    let n ← n.evaluate d
    return n :: (← evaluateAll d ns)

end

end Node

end TokenShell
