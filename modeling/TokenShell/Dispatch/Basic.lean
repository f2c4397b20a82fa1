import TokenShell.Tree.Event

/-! Dispatchers run assembled commands and answer each with a status line. -/
namespace TokenShell

/-- What a dispatcher shows while it works on a command. -/
inductive Notice where
  | statusLine (command line : Bytes)
  | shellFinished (command : Bytes) (status : Nat)
  | out (text : Bytes)
  | err (text : Bytes)
  deriving Repr

def Notice.output : Notice → Output
  | statusLine command line => .log (.statusLine command line)
  | shellFinished command status => .log (.shellFinished command status)
  | out text => .out .dispatcher text
  | err text => .err .dispatcher text

/-- A dispatcher's reaction to one command. -/
structure Reply where
  /-- The status line, or why there is none. -/
  answer : Except Fault Bytes
  /-- Whether the whole run is cancelled on the way. -/
  cancels : Bool := false
  notices : List Notice := []

def Reply.outputs (r : Reply) : List Output := r.notices.map Notice.output

/-- A dispatcher with a state of its own; it is told whether the run is cancelled. -/
structure Dispatcher (σ : Type) where
  send : Bool → Bytes → σ → Reply × σ

/-- One prepared reaction of a script. -/
structure Script.Entry where
  status : Bytes := "0"
  error : Option Bytes := none
  cancels : Bool := false

/-- A dispatcher that reacts by a list and records the commands it got. -/
structure Script where
  entries : List Script.Entry
  commands : List Bytes := []

/-- Answers by the next entry, and with status zero after the last. -/
def Script.send (command : Bytes) (s : Script) : Reply × Script :=
  let commands := s.commands ++ [command]
  match s.entries with
  | [] => ({ answer := .ok "0" }, { s with commands })
  | e :: rest =>
    ({ answer := match e.error with
        | some text => .error (.plain text)
        | none => .ok e.status
       cancels := e.cancels },
      ⟨rest, commands⟩)

def Script.dispatcher : Dispatcher Script := ⟨fun _ => Script.send⟩

end TokenShell
