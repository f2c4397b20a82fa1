import TokenShell.Config.Settings
import TokenShell.Text.Lowercase
import TokenShell.Tree.Print
import TokenShell.Tree.Progress

/-! A session feeds lines to one tree and reports the results. -/
namespace TokenShell

/-- A session; `world` belongs to its dispatcher. -/
structure Session (σ : Type) where
  settings : Settings
  /-- Lays a table out, given its header and its rows. -/
  table : List Bytes → List (List Bytes) → Bytes
  tree : Tree := {}
  world : σ
  cancelled : Bool := false

/-- What became of one line. -/
structure Handled (σ : Type) where
  session : Session σ
  outputs : List Output := []
  quit : Bool := false

namespace Session

variable {σ : Type}

/-- Shown while a structure is open. -/
def continuationPrompt : Bytes := "....> "

def prompt (s : Session σ) : Bytes :=
  if s.tree.path.isEmpty then s.settings.prompt else continuationPrompt

/-- The global variables as a table. -/
def variableTable (s : Session σ) : Bytes :=
  let globals := s.tree.globals
  s.table ["Name", "Type", "Value"] (globals.names.map fun name =>
    let v := (globals.get? name).getD .nil
    [name, v.tag, v.text])

/-- Commands to the session itself, which start with a colon. -/
def control (s : Session σ) (line : Bytes) : Handled σ :=
  let name := Bytes.lower line
  if name = ":quit" || name = ":q" then { session := s, quit := true }
  else if name = ":tree" then { session := s, outputs := [.out .session s.tree.print] }
  else if name = ":vars" then { session := s, outputs := [.out .session s.variableTable] }
  else if name = ":reset" then
    let r := s.tree.reset
    { session := { s with tree := r.tree }
      outputs := r.events.map .log ++ [.out .session "reset\n"] }
  else if name = ":help" then
    { session := s, outputs := [.out .session "commands: :tree :vars :reset :quit\n"] }
  else
    { session := s
      outputs :=
        [.err .session (("unknown command " : Bytes) ++ line ++ ("; type :help\n" : Bytes))] }

/-- An error as it is shown to the user. -/
def complaint (f : Fault) : Output :=
  .err .session (("error: " : Bytes) ++ f.text ++ [Bytes.newline])

def shown (v : Value) : Output := .out .session (("=> " : Bytes) ++ v.text ++ [Bytes.newline])

/-- Inserts a line of tokens and evaluates what is ready; `interrupts` tells before which fragments
the run is cancelled from outside. -/
def feed (d : Option (Dispatcher σ)) (interrupts : List Bool) (s : Session σ) (toks : List Token) :
    Handled σ :=
  let r := s.tree.insertAll toks
  let e := r.tree.evaluate d s.world s.cancelled interrupts
  { session := { s with tree := e.tree, world := e.world, cancelled := e.cancelled }
    outputs :=
      r.events.map .log ++ (r.failure.map fun f => complaint f.fault).toList ++
        (if s.settings.printTree then [.out .session r.tree.print] else []) ++
        e.outputs ++ e.values.map shown ++ (e.stop.map fun x => complaint x.fault).toList }

/-- Handles one line of input. -/
def handleLine (d : Option (Dispatcher σ)) (interrupts : List Bool) (s : Session σ) (line : Bytes) :
    Handled σ :=
  match Bytes.trim line with
  | [] => { session := s }
  | 0x3a :: rest => s.control (0x3a :: rest)
  | line =>
    match Line.tokenize line with
    | .error e => { session := s, outputs := [complaint (.malformed e)] }
    | .ok toks => s.feed d interrupts toks

end Session

end TokenShell
