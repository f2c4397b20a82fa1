import TokenShell.Tree.Basic
import TokenShell.Tree.Evaluation

/-! Evaluating the fragments that are ready, in source order. -/
namespace TokenShell

/-- Why evaluation stopped before the last ready fragment. -/
inductive Stop where
  | cancelled
  | failed (f : Failure)

def Stop.fault : Stop → Fault
  | cancelled => .cancelled
  | failed f => f.fault

/-- How far evaluation got. -/
structure Progress (σ : Type) where
  fragments : List Node
  machine : Machine σ
  values : List Value := []
  stop : Option Stop := none

namespace Progress

variable {σ : Type}

/-- Goes through the fragments in order, up to one that is not ready, that fails and is removed with
its declarations, or before which the run is cancelled, maybe by `interrupts`. -/
def of (d : Option (Dispatcher σ)) (interrupts : List Bool) (m : Machine σ) :
    List Node → Progress σ
  | [] => { fragments := [], machine := m }
  | n :: ns =>
    if n.flags.evaluated then
      let rest := of d interrupts m ns
      { rest with fragments := n :: rest.fragments }
    else if !n.isReady then { fragments := n :: ns, machine := m }
    else if m.cancelled || interrupts.headD false then
      { fragments := n :: ns, machine := { m with cancelled := true }, stop := some .cancelled }
    else
      match n.evaluate d m with
      | (.error f, m) =>
        { fragments := ns
          machine :=
            { m with
              scopes := m.scopes.map (·.rollback n)
              outputs := m.outputs ++ [.log (.evaluationFailed n.text f)] }
          stop := some (.failed f) }
      | (.ok n, m) =>
        let rest := of d interrupts.tail m ns
        { rest with fragments := n :: rest.fragments, values := n.result :: rest.values }

end Progress

/-- The result of evaluating a tree. -/
structure Evaluated (σ : Type) where
  tree : Tree
  world : σ
  cancelled : Bool
  outputs : List Output
  values : List Value
  stop : Option Stop

/-- Evaluates the ready fragments that are not evaluated yet. -/
def Tree.evaluate {σ : Type} (t : Tree) (d : Option (Dispatcher σ)) (world : σ) (cancelled : Bool)
    (interrupts : List Bool) : Evaluated σ :=
  let m : Machine σ := { scopes := [t.globals], world, cancelled, outputs := [] }
  let p := Progress.of d interrupts m t.fragments
  { tree := { t with fragments := p.fragments, globals := p.machine.scopes.head?.getD t.globals }
    world := p.machine.world
    cancelled := p.machine.cancelled
    outputs := p.machine.outputs
    values := p.values
    stop := p.stop }

end TokenShell
