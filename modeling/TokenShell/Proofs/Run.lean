import TokenShell.Tree.Progress

/-! Runs: calls made on a tree one after the other, and what they show. -/
namespace TokenShell

/-- A call on a tree. An evaluation may be cancelled from the start, and `interrupts` tells at which
of its fragments it has been cancelled since. -/
inductive Call where
  | insert (tok : Token)
  | reset
  | evaluate (cancelled : Bool) (interrupts : List Bool)

/-- Whether a call is an insertion or a reset. -/
def Call.edits : Call → Bool
  | .evaluate .. => false
  | _ => true

/-- The command node that a token closes. -/
def Tree.closes (t : Tree) (tok : Token) : List Nat :=
  match t.path with
  | [] => []
  | n :: _ =>
    if tok.kind = .marker .closeCommand ∧ t.expectHead = false ∧ n.closedBy .closeCommand then
      [n.label.serial]
    else []

/-- A tree, the state of its dispatcher, and what the calls so far have shown. -/
structure Run (σ : Type) where
  tree : Tree := {}
  world : σ
  /-- What each insertion and reset reported. -/
  reports : List (List Event × Option Failure) := []
  /-- How each evaluation stopped. -/
  stops : List (Option Stop) := []
  values : List Value := []
  outputs : List Output := []
  /-- The command nodes in the order in which they were closed. -/
  closed : List Nat := []

namespace Run

variable {σ : Type} {d : Option (Dispatcher σ)} {w : σ}

def step (d : Option (Dispatcher σ)) (r : Run σ) : Call → Run σ
  | .insert tok =>
    let s := r.tree.insert tok
    { r with
      tree := s.tree
      reports := r.reports ++ [(s.events, s.failure)]
      closed := r.closed ++ r.tree.closes tok }
  | .reset =>
    let s := r.tree.reset
    { r with tree := s.tree, reports := r.reports ++ [(s.events, s.failure)] }
  | .evaluate cancelled interrupts =>
    let e := r.tree.evaluate d r.world cancelled interrupts
    { r with
      tree := e.tree
      world := e.world
      stops := r.stops ++ [e.stop]
      values := r.values ++ e.values
      outputs := r.outputs ++ e.outputs }

/-- The run of some calls on a fresh tree. -/
def of (d : Option (Dispatcher σ)) (w : σ) (cs : List Call) : Run σ :=
  cs.foldl (step d) { world := w }

theorem of_concat (d : Option (Dispatcher σ)) (w : σ) (cs : List Call) (c : Call) :
    of d w (cs ++ [c]) = (of d w cs).step d c := by
  simp [of]

/-- What holds at first and is kept by every call holds of every run. -/
theorem invariant {P : Run σ → Prop} (h : P { world := w }) (hs : ∀ r c, P r → P (r.step d c))
    (cs : List Call) : P (of d w cs) := by
  unfold of
  generalize ({ world := w } : Run σ) = r at h
  induction cs generalizing r with
  | nil => exact h
  | cons c cs ih => exact ih _ (hs r c h)

end Run

/-- The trees that calls can lead to. -/
def Tree.Reachable (t : Tree) : Prop :=
  ∃ (σ : Type) (d : Option (Dispatcher σ)) (w : σ) (cs : List Call), (Run.of d w cs).tree = t

theorem Run.reachable {σ : Type} (d : Option (Dispatcher σ)) (w : σ) (cs : List Call) :
    (of d w cs).tree.Reachable :=
  ⟨σ, d, w, cs, rfl⟩

namespace Tree

/-- What holds of a fresh tree and is kept by every call on a tree that calls can lead to holds of
all such trees. -/
theorem Reachable.invariant {P : Tree → Prop} {t : Tree} (h : t.Reachable) (fresh : P {})
    (insert : ∀ t tok, t.Reachable → P t → P (t.insert tok).tree)
    (reset : ∀ t, t.Reachable → P t → P t.reset.tree)
    (evaluate : ∀ {σ : Type} (t : Tree) (d : Option (Dispatcher σ)) (w : σ) (cancelled : Bool)
      (interrupts : List Bool), t.Reachable → P t → P (t.evaluate d w cancelled interrupts).tree) :
    P t := by
  obtain ⟨σ, d, w, cs, rfl⟩ := h
  refine (Run.invariant (P := fun r => (∃ cs, Run.of d w cs = r) ∧ P r.tree)
    ⟨⟨[], rfl⟩, fresh⟩ ?_ cs).2
  rintro r c ⟨⟨cs, rfl⟩, hP⟩
  have hr := Run.reachable d w cs
  refine ⟨⟨cs ++ [c], Run.of_concat d w cs c⟩, ?_⟩
  cases c with
  | insert tok => exact insert _ tok hr hP
  | reset => exact reset _ hr hP
  | evaluate cancelled interrupts => exact evaluate _ d _ cancelled interrupts hr hP

end Tree

end TokenShell
