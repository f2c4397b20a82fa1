import TokenShell.Proofs.Basic
import TokenShell.Tree.Progress

/-! Dispatchers that cannot be told apart: evaluation does the same with either, as long as nothing
cancels the run. -/
namespace TokenShell

variable {σ τ α β : Type} {R : σ → τ → Prop}

/-- In states that correspond the dispatchers react alike, cancel nothing and come to states that
correspond. -/
structure Dispatcher.Mirrors (R : σ → τ → Prop) (d : Dispatcher σ)
    (e : Dispatcher τ) : Prop where
  reply : ∀ command w v, R w v → (e.send false command v).1 = (d.send false command w).1
  state : ∀ command w v, R w v → R (d.send false command w).2 (e.send false command v).2
  live : ∀ command w v, R w v → (d.send false command w).1.cancels = false

/-- Not written by the session itself. -/
def Output.Foreign : Output → Prop
  | .log _ => True
  | .out writer _ | .err writer _ => writer = .dispatcher

theorem Reply.foreign_outputs (r : Reply) : ∀ o ∈ r.outputs, o.Foreign := by
  intro o ho
  obtain ⟨n, -, rfl⟩ := List.mem_map.mp ho
  cases n <;> simp [Notice.output, Output.Foreign]

/-- Machines of a live run that differ in the state of the dispatcher only. -/
structure Machine.Mirrors (R : σ → τ → Prop) (m : Machine σ) (u : Machine τ) :
    Prop where
  scopes : u.scopes = m.scopes
  outputs : u.outputs = m.outputs
  state : R m.world u.world
  live : m.cancelled = false ∧ u.cancelled = false
  foreign : ∀ o ∈ m.outputs, o.Foreign

theorem Machine.Mirrors.withScopes {m : Machine σ} {u : Machine τ} (h : m.Mirrors R u)
    (scopes : Scopes) :
    Machine.Mirrors R { m with scopes := scopes } { u with scopes := scopes } :=
  ⟨rfl, h.outputs, h.state, h.live, h.foreign⟩

theorem Machine.Mirrors.log {m : Machine σ} {u : Machine τ} (h : m.Mirrors R u) (e : Event) :
    Machine.Mirrors R { m with outputs := m.outputs ++ [.log e] }
      { u with outputs := u.outputs ++ [.log e] } := by
  refine ⟨h.scopes, by simp only [h.outputs], h.state, h.live, ?_⟩
  exact List.forall_mem_append.mpr ⟨h.foreign, by simp [Output.Foreign]⟩

/-- Work that does the same on machines of which one mirrors the other. -/
def Evaluation.Mirrors (R : σ → τ → Prop) (x : Evaluation σ α)
    (y : Evaluation τ α) : Prop :=
  ∀ m u, m.Mirrors R u → (y u).1 = (x m).1 ∧ (x m).2.Mirrors R (y u).2

namespace Evaluation.Mirrors

variable {x : Evaluation σ α} {y : Evaluation τ α} {f : α → Evaluation σ β} {g : α → Evaluation τ β}

theorem pure (a : α) : Mirrors R (pure a : Evaluation σ α) (pure a) :=
  fun _ _ h => ⟨rfl, h⟩

theorem fail (l : Label) (c : Cause) :
    Mirrors R (Evaluation.fail l c : Evaluation σ α) (Evaluation.fail l c) :=
  fun _ _ h => ⟨rfl, h⟩

theorem throw (e : Failure) : Mirrors R (throw e : Evaluation σ α) (throw e) :=
  fun _ _ h => ⟨rfl, h⟩

theorem lift (x : Except Failure α) :
    Mirrors R (liftM x : Evaluation σ α) (liftM x : Evaluation τ α) := by
  intro m u h
  rw [run_lift, run_lift]
  exact ⟨rfl, h⟩

theorem emit (e : Event) :
    Mirrors R (Evaluation.emit e : Evaluation σ Unit) (Evaluation.emit e) :=
  fun _ _ h => ⟨rfl, h.log e⟩

theorem read (k : Nat) (name : Bytes) :
    Mirrors R (Evaluation.read k name : Evaluation σ (Option Value))
      (Evaluation.read k name) := by
  intro m u h
  simp only [Evaluation.read, h.scopes, true_and]
  exact h

theorem write (k : Nat) (name : Bytes) (v : Value) :
    Mirrors R (Evaluation.write k name v : Evaluation σ Bool) (Evaluation.write k name v) := by
  intro m u h
  simp only [Evaluation.write, h.scopes]
  split
  · split
    · exact ⟨rfl, h.withScopes _⟩
    · exact ⟨rfl, h⟩
  · exact ⟨rfl, h⟩

theorem dispatch {d : Dispatcher σ} {e : Dispatcher τ} (hd : d.Mirrors R e) (command : Bytes) :
    Mirrors R (Evaluation.dispatch d command) (Evaluation.dispatch e command) := by
  intro m u h
  have hr := hd.reply command _ _ h.state
  have hl := hd.live command _ _ h.state
  simp only [Evaluation.dispatch, h.live.1, h.live.2, hr, true_and]
  refine ⟨h.scopes, by simp only [h.outputs], hd.state command _ _ h.state, by simp [hl], ?_⟩
  exact List.forall_mem_append.mpr ⟨h.foreign, (d.send false command m.world).1.foreign_outputs⟩

theorem bind (hx : Mirrors R x y) (hf : ∀ a, Mirrors R (f a) (g a)) :
    Mirrors R (x >>= f) (y >>= g) := by
  intro m u h
  obtain ⟨h1, h2⟩ := hx m u h
  rw [run_bind, run_bind]
  rcases hm : x m with ⟨e | a, m'⟩
  all_goals
    rcases hu : y u with ⟨r, u'⟩
    rw [hm, hu] at h1 h2
    obtain rfl := h1
  · exact ⟨rfl, h2⟩
  · exact hf a m' u' h2

theorem inside (scope : Scope) (hx : Mirrors R x y) :
    Mirrors R (Evaluation.inside scope x) (Evaluation.inside scope y) := by
  intro m u h
  have hin := h.withScopes (scope :: m.scopes)
  rw [← h.scopes] at hin
  obtain ⟨h1, h2⟩ := hx _ _ hin
  unfold Evaluation.inside
  rw [← h.scopes]
  rcases hm : x { m with scopes := scope :: u.scopes } with ⟨e | a, ⟨ss, w, c, os⟩⟩
  all_goals
    rcases hu : y { u with scopes := scope :: u.scopes } with ⟨r, ⟨ss', v, c', os'⟩⟩
    rw [hm, hu] at h1 h2
    obtain rfl : r = _ := h1
    obtain rfl : ss' = ss := h2.scopes
  · exact ⟨rfl, h2.withScopes _⟩
  · cases ss' with
    | nil => exact ⟨rfl, h2⟩
    | cons s outer => exact ⟨rfl, h2.withScopes _⟩

end Evaluation.Mirrors

variable {d : Option (Dispatcher σ)} {e : Option (Dispatcher τ)}

namespace Label

theorem mirrors_evaluateOperator (l : Label) (ks : List Node) :
    Evaluation.Mirrors R (l.evaluateOperator ks) (l.evaluateOperator ks) := by
  unfold evaluateOperator
  dsimp only
  split
  · split
    · exact .pure _
    · split
      · exact .pure _
      · exact .fail _ _
    · split
      · exact .pure _
      · exact .fail _ _
    · exact .fail _ _
    · exact .fail _ _
  · exact .fail _ _

theorem mirrors_evaluateVariable (l : Label) :
    Evaluation.Mirrors R l.evaluateVariable l.evaluateVariable := by
  unfold evaluateVariable
  split
  · refine .bind (.read _ _) fun v => ?_
    cases v with
    | some v => exact .pure _
    | none => exact .fail _ _
  · exact .fail _ _
  · exact .pure _

theorem mirrors_evaluateInitializer (l : Label) (ks : List Node) :
    Evaluation.Mirrors R (l.evaluateInitializer ks) (l.evaluateInitializer ks) := by
  unfold evaluateInitializer
  split
  · exact .fail _ _
  · dsimp only
    split
    · refine .bind (.write _ _ _) fun b => ?_
      cases b with
      | true => exact .pure _
      | false => exact .fail _ _
    · exact .fail _ _

theorem mirrors_evaluateFirst (l : Label) (ks : List Node) :
    Evaluation.Mirrors R (l.evaluateFirst ks) (l.evaluateFirst ks) := by
  unfold evaluateFirst
  split
  · exact .pure _
  · exact .fail _ _

theorem mirrors_evaluateCommand (hd : Option.Rel (Dispatcher.Mirrors R) d e)
    (l : Label) (ks : List Node) :
    Evaluation.Mirrors R (l.evaluateCommand d ks) (l.evaluateCommand e ks) := by
  unfold evaluateCommand
  split
  · exact .bind (.emit _) fun _ => .pure _
  · refine .bind (.lift _) fun command => ?_
    cases hd with
    | none => exact .fail _ _
    | some hd =>
      refine .bind (.emit _) fun _ => .bind (.dispatch hd command) fun r => ?_
      cases r with
      | error f => exact .throw _
      | ok line =>
        dsimp only
        split
        · exact .throw _
        · exact .bind (.emit _) fun _ => .pure _

theorem mirrors_evaluate (hd : Option.Rel (Dispatcher.Mirrors R) d e) (l : Label)
    (ks : List Node) :
    Evaluation.Mirrors R (l.evaluate d ks) (l.evaluate e ks) := by
  unfold evaluate
  split
  · exact .pure _
  · exact l.mirrors_evaluateVariable
  · exact l.mirrors_evaluateOperator ks
  · exact l.mirrors_evaluateFirst ks
  · exact l.mirrors_evaluateFirst ks
  · exact .pure _
  · exact .pure _
  · exact mirrors_evaluateCommand hd l ks
  · split
    · exact .pure _
    · exact .fail _ _
  · exact l.mirrors_evaluateInitializer ks

end Label

namespace Node

theorem mirrors_evaluateAll {ks : List Node}
    (h : ∀ k ∈ ks, Evaluation.Mirrors R (k.evaluate d) (k.evaluate e)) :
    Evaluation.Mirrors R (evaluateAll d ks) (evaluateAll e ks) := by
  induction ks with
  | nil => exact .pure _
  | cons k ks ih =>
    rw [evaluateAll, evaluateAll]
    refine .bind (h k (by simp)) fun j => ?_
    exact .bind (ih fun i hi => h i (by simp [hi])) fun js => .pure _

theorem mirrors_evaluate (hd : Option.Rel (Dispatcher.Mirrors R) d e) (n : Node) :
    Evaluation.Mirrors R (n.evaluate d) (n.evaluate e) := by
  induction n using induct with
  | h l ks ih =>
    have hall := mirrors_evaluateAll ih
    rw [evaluate, evaluate]
    split
    · exact .pure _
    · split
      · exact .fail _ _
      · split
        · refine .bind (.inside _ hall) fun ⟨js, scope⟩ => ?_
          exact .bind (Label.mirrors_evaluate hd _ js) fun _ => .pure _
        · refine .bind hall fun js => ?_
          exact .bind (Label.mirrors_evaluate hd l js) fun _ => .pure _

end Node

/-- Passes over the fragments of a tree that come to the same and are not cut short. -/
structure Progress.Mirrors (R : σ → τ → Prop) (p : Progress σ)
    (q : Progress τ) : Prop where
  fragments : q.fragments = p.fragments
  machine : p.machine.Mirrors R q.machine
  values : q.values = p.values
  stop : q.stop = p.stop
  uncut : p.stop ≠ some .cancelled

theorem Progress.mirrors_of (hd : Option.Rel (Dispatcher.Mirrors R) d e) (ns : List Node)
    {m : Machine σ} {u : Machine τ} (h : m.Mirrors R u) :
    (of d [] m ns).Mirrors R (of e [] u ns) := by
  induction ns generalizing m u with
  | nil => exact ⟨rfl, h, rfl, rfl, by simp [of]⟩
  | cons n ns ih =>
    rw [of, of]
    split
    · have hrest := ih h
      exact ⟨congrArg (n :: ·) hrest.fragments, hrest.machine, hrest.values, hrest.stop,
        hrest.uncut⟩
    · split
      · exact ⟨rfl, h, rfl, rfl, by simp⟩
      · obtain ⟨h1, h2⟩ := Node.mirrors_evaluate hd n m u h
        simp only [h.live.1, h.live.2, List.headD_nil, Bool.or_self, Bool.false_eq_true, if_false]
        rcases hm : n.evaluate d m with ⟨f | j, m'⟩
        all_goals
          rcases hu : n.evaluate e u with ⟨r, u'⟩
          rw [hm, hu] at h1 h2
          obtain rfl := h1
        · have hs : u'.scopes = m'.scopes := h2.scopes
          have hback := (h2.withScopes (m'.scopes.map (·.rollback n))).log
            (.evaluationFailed n.text f)
          refine ⟨rfl, ?_, rfl, rfl, by simp⟩
          simpa only [hs] using hback
        · have hrest := ih h2
          exact ⟨congrArg (j :: ·) hrest.fragments, hrest.machine,
            congrArg (j.result :: ·) hrest.values, hrest.stop, hrest.uncut⟩

/-- Evaluations that come to the same and are not cut short. -/
structure Evaluated.Mirrors (R : σ → τ → Prop) (x : Evaluated σ)
    (y : Evaluated τ) : Prop where
  tree : y.tree = x.tree
  state : R x.world y.world
  live : x.cancelled = false ∧ y.cancelled = false
  outputs : y.outputs = x.outputs
  foreign : ∀ o ∈ x.outputs, o.Foreign
  values : y.values = x.values
  stop : y.stop = x.stop
  uncut : x.stop ≠ some .cancelled

theorem Evaluated.Mirrors.stop_eq_none {x : Evaluated σ} {y : Evaluated τ} (h : x.Mirrors R y)
    (hf : ∀ f, x.stop ≠ some (.failed f)) : x.stop = none := by
  cases hs : x.stop with
  | none => rfl
  | some stop =>
    cases stop with
    | cancelled => exact (h.uncut hs).elim
    | failed f => exact (hf f hs).elim

theorem Tree.mirrors_evaluate (hd : Option.Rel (Dispatcher.Mirrors R) d e) (t : Tree) {w : σ}
    {v : τ} (h : R w v) :
    (t.evaluate d w false []).Mirrors R (t.evaluate e v false []) := by
  have hm : Machine.Mirrors R ⟨[t.globals], w, false, []⟩ ⟨[t.globals], v, false, []⟩ :=
    ⟨rfl, rfl, h, ⟨rfl, rfl⟩, by simp⟩
  have hp := Progress.mirrors_of hd t.fragments hm
  unfold evaluate
  exact ⟨by simp only [hp.fragments, hp.machine.scopes], hp.machine.state, hp.machine.live,
    hp.machine.outputs, hp.machine.foreign, hp.values, hp.stop, hp.uncut⟩

end TokenShell
