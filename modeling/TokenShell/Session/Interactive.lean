import TokenShell.Session.Basic

/-! The interactive loop: a line editor asks for every line and keeps a history of them. -/
namespace TokenShell

/-- How asking for a line ends. -/
inductive Entry where
  | line (text : Bytes)
  /-- The line is given up. -/
  | aborted
  /-- There is no more input. -/
  | ended
  | failed (f : Fault)

/-- What an editor with the state `η` does with a prompt. -/
structure Asked (η : Type) where
  /-- What it writes meanwhile. -/
  screen : Bytes := []
  entry : Entry
  state : η

/-- A line editor. -/
structure Editor (η : Type) where
  /-- Shows a prompt and reads a line. -/
  ask : Bytes → η → Asked η
  /-- Adds a line to the history. -/
  remember : Bytes → η → η

/-- The end of an interactive run. -/
structure Interaction (η σ : Type) where
  session : Session σ
  state : η
  outputs : List Output := []
  fault : Option Fault := none

namespace Session

variable {η σ : Type}

/-- Asks for lines and handles them until the input ends or a line quits; one that is given up
resets the tree. `fuel` bounds the number of lines. -/
def interact (d : Option (Dispatcher σ)) (ed : Editor η) :
    Nat → List (List Bool) → η → Session σ → Interaction η σ
  | 0, _, e, s => { session := s, state := e }
  | fuel + 1, is, e, s =>
    let a := ed.ask s.prompt e
    let shown : List Output := [.out .session a.screen]
    match a.entry with
    | .ended =>
      { session := s, state := a.state, outputs := shown ++ [.out .session [Bytes.newline]] }
    | .failed f => { session := s, state := a.state, outputs := shown, fault := some f }
    | .aborted =>
      let r := s.tree.reset
      let next := interact d ed fuel is a.state { s with tree := r.tree }
      { next with outputs := shown ++ r.events.map .log ++ next.outputs }
    | .line text =>
      let e := if (Bytes.trim text).isEmpty then a.state else ed.remember text a.state
      let h := s.handleLine d (is.headD []) text
      if h.quit then { session := h.session, state := e, outputs := shown ++ h.outputs }
      else
        let next := interact d ed fuel is.tail e h.session
        { next with outputs := shown ++ h.outputs ++ next.outputs }

end Session

end TokenShell
