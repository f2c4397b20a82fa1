import TokenShell.Dispatch.LineProtocol
import TokenShell.Session.Basic

/-! Running a session over input, line by line. -/
namespace TokenShell

/-- Unread input, and what else the dispatcher works on. -/
structure Feed (σ : Type) where
  input : Bytes
  rest : σ

namespace Feed

variable {σ : Type}

/-- A dispatcher that does not touch the input. -/
def beside (d : Dispatcher σ) : Dispatcher (Feed σ) := ⟨fun cancelled command f =>
  let (reply, rest) := d.send cancelled command f.rest
  (reply, { f with rest })⟩

/-- The line protocol with status lines taken from the input itself; the rest is the wire. -/
def lineProtocol : Dispatcher (Feed Bytes) := ⟨fun cancelled command f =>
  let (reply, c) := LineChannel.send cancelled command { input := f.input, wire := f.rest }
  (reply, ⟨c.input, c.wire⟩)⟩

end Feed

/-- How a run is cancelled from outside while it handles a line: before which fragments, and whether
after the last of them. -/
structure Interruption where
  fragments : List Bool := []
  after : Bool := false

/-- The end of a run. -/
structure Ran (σ : Type) where
  session : Session (Feed σ)
  outputs : List Output := []
  fault : Option Fault := none

namespace Session

variable {σ : Type}

def takeLine (s : Session (Feed σ)) : Bytes × Session (Feed σ) :=
  let (line, rest) := Bytes.cutLine s.world.input
  (line, { s with world := { s.world with input := rest } })

def endsLine (line : Bytes) : Bool := line.getLast? == some Bytes.newline

/-- Handles lines until the input ends, a line quits or the run is cancelled. `fuel` bounds the
number of lines, and each of them has its interruption. -/
def runFor (d : Option (Dispatcher (Feed σ))) :
    Nat → List Interruption → Session (Feed σ) → Ran σ
  | 0, _, s => { session := s }
  | fuel + 1, is, s =>
    let (line, s) := s.takeLine
    let i := is.headD {}
    let h := if line.isEmpty then { session := s } else s.handleLine d i.fragments line
    if h.quit || !endsLine line then { session := h.session, outputs := h.outputs }
    else if h.session.cancelled || i.after then
      { session := { h.session with cancelled := true }
        outputs := h.outputs
        fault := some .cancelled }
    else
      let r := runFor d fuel is.tail h.session
      { r with outputs := h.outputs ++ r.outputs }

/-- Handles all lines of the input. Every line takes at least one byte. -/
def run (d : Option (Dispatcher (Feed σ))) (is : List Interruption) (s : Session (Feed σ)) :
    Ran σ :=
  s.runFor d (s.world.input.length + 1) is

end Session

end TokenShell
