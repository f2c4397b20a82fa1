import TokenShell.Proofs.Capture

/-! The rules that are applied when a tree is evaluated, node by node and fragment by fragment.
Where evaluation fails for want of a declaration, one of them does. -/
namespace TokenShell

/-! Rules that use no variable. -/

namespace Evaluation

variable {σ α β : Type} {x : Evaluation σ α} {f : α → Evaluation σ β}

/-- Work that changes no scope and does not fail for want of a declaration. -/
def Aloof (x : Evaluation σ α) : Prop :=
  ∀ m, (x m).2.scopes = m.scopes ∧ ∀ f name, (x m).1 = .error f → f.cause ≠ .noLongerDeclared name

namespace Aloof

theorem pure (a : α) : (pure a : Evaluation σ α).Aloof := fun _ => ⟨rfl, fun _ _ h => nomatch h⟩

theorem throw {e : Failure} (h : ∀ name, e.cause ≠ .noLongerDeclared name) :
    (throw e : Evaluation σ α).Aloof := by
  intro m
  refine ⟨rfl, fun f name hf => ?_⟩
  cases hf
  exact h name

theorem fail (l : Label) {c : Cause} (h : ∀ name, c ≠ .noLongerDeclared name) :
    (Evaluation.fail l c : Evaluation σ α).Aloof :=
  throw (e := { cause := c, node := some l.token }) h

theorem emit (e : Event) : (Evaluation.emit e : Evaluation σ Unit).Aloof :=
  fun _ => ⟨rfl, fun _ _ h => nomatch h⟩

theorem dispatch (e : Dispatcher σ) (command : Bytes) : (Evaluation.dispatch e command).Aloof :=
  fun _ => ⟨rfl, fun _ _ h => nomatch h⟩

theorem lift {x : Except Failure α}
    (h : ∀ f name, x = .error f → f.cause ≠ .noLongerDeclared name) :
    (liftM x : Evaluation σ α).Aloof := by
  intro m
  rw [run_lift]
  exact ⟨rfl, h⟩

theorem bind (hx : x.Aloof) (hf : ∀ a, (f a).Aloof) : (x >>= f).Aloof := by
  intro m
  obtain ⟨hs, he⟩ := hx m
  rw [run_bind]
  rcases hm : x m with ⟨e | a, m'⟩
  · rw [hm] at hs he
    exact ⟨hs, fun f name h => he f name (by cases h; rfl)⟩
  · rw [hm] at hs
    obtain ⟨hs', he'⟩ := hf a m'
    exact ⟨hs'.trans hs, he'⟩

end Aloof

end Evaluation

namespace Label

open Evaluation

variable {σ : Type} {l : Label} {ks : List Node}

theorem aloof_evaluateOperator (l : Label) (ks : List Node) :
    (l.evaluateOperator ks : Evaluation σ Label).Aloof := by
  unfold evaluateOperator
  dsimp only
  split
  · split
    · exact .pure _
    · split
      · exact .pure _
      · exact .fail _ (by simp)
    · split
      · exact .pure _
      · exact .fail _ (by simp)
    · exact .fail _ (by simp)
    · exact .fail _ (by simp)
  · exact .fail _ (by simp)

theorem aloof_evaluateFirst (l : Label) (ks : List Node) :
    (l.evaluateFirst ks : Evaluation σ Label).Aloof := by
  unfold evaluateFirst
  split
  · exact .pure _
  · exact .fail _ (by simp)

theorem cause_partText {k : Node} {f : Failure} (h : k.partText = .error f) :
    ∃ kind, f.cause = .blockText kind := by
  unfold Node.partText Node.blockText at h
  split at h
  · cases h
  · split at h
    · cases h
    · cases h
      exact ⟨_, rfl⟩
    · cases h
      exact ⟨_, rfl⟩
  · cases h

theorem cause_commandText {f : Failure} (h : Node.commandText ks = .error f) :
    ∃ kind, f.cause = .blockText kind := by
  have hparts : ks.mapM Node.partText = .error f := by
    unfold Node.commandText at h
    cases hm : ks.mapM Node.partText with
    | ok texts =>
      rw [hm] at h
      cases h
    | error e =>
      rw [hm] at h
      cases h
      rfl
  clear h
  induction ks with
  | nil => cases hparts
  | cons k ks ih =>
    rw [List.mapM_cons] at hparts
    cases hk : k.partText with
    | error e =>
      rw [hk] at hparts
      cases hparts
      exact cause_partText hk
    | ok text =>
      rw [hk] at hparts
      cases hm : ks.mapM Node.partText with
      | ok texts =>
        rw [hm] at hparts
        cases hparts
      | error e =>
        rw [hm] at hparts ih
        cases hparts
        exact ih rfl

theorem aloof_evaluateCommand (d : Option (Dispatcher σ)) (l : Label) (ks : List Node) :
    (l.evaluateCommand d ks).Aloof := by
  unfold evaluateCommand
  split
  · exact (Aloof.emit _).bind fun _ => .pure _
  · refine (Aloof.lift fun f name hf => ?_).bind fun command => ?_
    · obtain ⟨kind, hc⟩ := cause_commandText hf
      simp [hc]
    · cases d with
      | none => exact .fail _ (by simp)
      | some d =>
        refine (Aloof.emit _).bind fun _ => (Aloof.dispatch d command).bind fun r => ?_
        cases r with
        | error f => exact .throw (by simp)
        | ok line =>
          dsimp only
          split
          · exact .throw (by simp)
          · exact (Aloof.emit _).bind fun _ => .pure _

end Label

/-- The rule of a node that uses no variable. -/
theorem Visit.aloof {σ : Type} (d : Option (Dispatcher σ)) {x : Visit σ} (h : x.operand? = none) :
    (x.label.evaluate d x.kids).Aloof := by
  obtain ⟨l, ks, m⟩ := x
  dsimp only
  unfold Label.evaluate
  split
  · exact .pure _
  · next c b hf =>
    cases c with
    | false => simp [operand?, hf] at h
    | true =>
      simp only [Label.evaluateVariable, hf]
      exact .pure _
  · exact l.aloof_evaluateOperator ks
  · exact l.aloof_evaluateFirst ks
  · exact l.aloof_evaluateFirst ks
  · exact .pure _
  · exact .pure _
  · exact l.aloof_evaluateCommand d ks
  · split
    · exact .pure _
    · exact .fail _ (by simp)
  · next hf =>
    unfold Label.evaluateInitializer
    cases ks with
    | nil => exact .fail _ (by simp)
    | cons k ks =>
      dsimp only
      split
      · next c b hk => simp [operand?, hf, Node.isVariable, hk] at h
      · exact .fail _ (by simp)

theorem error_of_bind {S α β : Type} {x : ExceptT Failure (StateM S) α}
    {f : α → ExceptT Failure (StateM S) β} {s : S} {e : Failure} (h : ((x >>= f) s).1 = .error e) :
    (x s).1 = .error e ∨ ∃ a t, x s = (.ok a, t) ∧ (f a t).1 = .error e := by
  rw [run_bind] at h
  rcases hx : x s with ⟨e' | a, t⟩
  · rw [hx] at h
    cases h
    exact Or.inl rfl
  · rw [hx] at h
    exact Or.inr ⟨a, t, rfl, h⟩

theorem Evaluation.error_of_inside {σ α : Type} {scope : Scope} {x : Evaluation σ α} {m : Machine σ}
    {e : Failure} (h : (Evaluation.inside scope x m).1 = .error e) :
    (x { m with scopes := scope :: m.scopes }).1 = .error e := by
  rw [inside] at h
  split at h
  · split at h <;> cases h
  · next hx =>
    cases h
    rw [hx]

section Visits

variable {σ : Type} {d : Option (Dispatcher σ)} {m m' : Machine σ} {n n' : Node} {l : Label}
  {ks ns : List Node} {f : Failure} {name : Bytes}

namespace Node

theorem evaluate_block {kind : BlockKind} {scope : Scope} (he : l.flags.evaluated = false)
    (ha : l.flags.analyzed = true) (hf : l.form = .block kind scope) :
    (mk l ks).evaluate d = do
      let (ks, scope) ← Evaluation.inside scope (evaluateAll d ks)
      let l ← { l with form := .block kind scope }.evaluate d ks
      return mk l.markEvaluated ks := by
  rw [evaluate, if_neg (by simp [he]), if_neg (by simp [ha]), hf]

theorem evaluate_other (he : l.flags.evaluated = false) (ha : l.flags.analyzed = true)
    (hb : l.isBlock = false) : (mk l ks).evaluate d = do
      let ks ← evaluateAll d ks
      let l ← l.evaluate d ks
      return mk l.markEvaluated ks := by
  rw [evaluate, if_neg (by simp [he]), if_neg (by simp [ha])]
  split
  · next hf => simp [Label.isBlock, hf] at hb
  · rfl

theorem visits_block {kind : BlockKind} {scope : Scope} (he : l.flags.evaluated = false)
    (ha : l.flags.analyzed = true) (hf : l.form = .block kind scope) :
    (mk l ks).visits d m = visitsAll d ks { m with scopes := scope :: m.scopes } := by
  have hscope : (mk l ks).scope? = some scope := by rw [scope?, form_mk, hf]
  have hb : l.isBlock = true := Label.isBlock_iff.mpr ⟨kind, scope, hf⟩
  rw [visits, if_neg (by simp [he, ha]), hscope, if_pos hb, List.append_nil]
  rfl

theorem scope?_of_not_block (hb : l.isBlock = false) : (mk l ks).scope? = none := by
  unfold Label.isBlock at hb
  unfold scope?
  cases hf : l.form <;> simp_all

theorem visits_other (he : l.flags.evaluated = false) (ha : l.flags.analyzed = true)
    (hb : l.isBlock = false) : (mk l ks).visits d m = visitsAll d ks m ++
      match evaluateAll d ks m with
      | (.ok js, m) => [⟨l, js, m⟩]
      | (.error _, _) => [] := by
  rw [visits, if_neg (by simp [he, ha]), scope?_of_not_block hb, if_neg (by simp [hb])]
  rfl

/-- Where evaluation fails for want of a declaration, it is a rule that does. -/
theorem visit_of_error (hc : f.cause = .noLongerDeclared name) (h : (n.evaluate d m).1 = .error f) :
    ∃ x ∈ n.visits d m, (x.outcome d).1 = .error f := by
  induction n using induct generalizing m with
  | h l ks ih =>
    have hall : ∀ (m : Machine σ) (js : List Node), (∀ j ∈ js, j ∈ ks) →
        (evaluateAll d js m).1 = .error f → ∃ x ∈ visitsAll d js m, (x.outcome d).1 = .error f := by
      intro m js hsub h
      induction js generalizing m with
      | nil => cases h
      | cons j js ihs =>
        rw [evaluateAll] at h
        rw [visitsAll]
        rcases error_of_bind h with h | ⟨j', m₁, hj, h⟩
        · obtain ⟨x, hx, hf⟩ := ih j (hsub j (by simp)) h
          exact ⟨x, List.mem_append_left _ hx, hf⟩
        · rcases error_of_bind h with h | ⟨js', m₂, -, h⟩
          · obtain ⟨x, hx, hf⟩ := ihs m₁ (fun i hi => hsub i (by simp [hi])) h
            rw [hj]
            exact ⟨x, List.mem_append_right _ hx, hf⟩
          · cases h
    by_cases he : l.flags.evaluated = true
    · rw [evaluate, if_pos he] at h
      cases h
    by_cases ha : l.flags.analyzed = true
    · have he : l.flags.evaluated = false := by simpa using he
      cases hb : l.isBlock with
      | true =>
        obtain ⟨kind, scope, hf⟩ := Label.isBlock_iff.mp hb
        rw [evaluate_block he ha hf] at h
        rw [visits_block he ha hf]
        rcases error_of_bind h with h | ⟨⟨js, s⟩, m₁, -, h⟩
        · exact hall _ ks (fun _ hj => hj) (Evaluation.error_of_inside h)
        · -- The rule of a block uses no variable.
          rcases error_of_bind h with h | ⟨l', m₂, -, h⟩
          · have haloof := Visit.aloof (x := ⟨{ l with form := .block kind s }, js, m₁⟩) d rfl
            exact ((haloof m₁).2 f name h hc).elim
          · cases h
      | false =>
        rw [evaluate_other he ha hb] at h
        rw [visits_other he ha hb]
        rcases error_of_bind h with h | ⟨js, m₁, hjs, h⟩
        · obtain ⟨x, hx, hf⟩ := hall m ks (fun _ hj => hj) h
          exact ⟨x, List.mem_append_left _ hx, hf⟩
        · rw [hjs]
          refine ⟨⟨l, js, m₁⟩, List.mem_append_right _ (List.mem_singleton_self _), ?_⟩
          rcases error_of_bind h with h | ⟨l', m₂, -, h⟩
          · exact h
          · cases h
    · rw [evaluate, if_neg he, if_pos (by simpa using ha)] at h
      cases h
      cases hc

end Node

namespace Progress

theorem visits_skip {es : List Node} (interrupts : List Bool) (m : Machine σ) (rs : List Node)
    (he : ∀ n ∈ es, n.flags.evaluated = true) :
    visits d interrupts m (es ++ rs) = visits d interrupts m rs ∧
      of d interrupts m (es ++ rs) =
        { of d interrupts m rs with fragments := es ++ (of d interrupts m rs).fragments } := by
  induction es with
  | nil => exact ⟨rfl, rfl⟩
  | cons n es ih =>
    obtain ⟨hvisits, hof⟩ := ih fun k hk => he k (by simp [hk])
    have hn := he n (by simp)
    constructor
    · rw [List.cons_append, visits, if_pos hn, hvisits]
    · rw [List.cons_append, of, if_pos hn, hof]
      rfl

theorem visits_unready (interrupts : List Bool) (m : Machine σ) (he : n.flags.evaluated = false)
    (hr : n.isReady = false) : visits d interrupts m (n :: ns) = [] ∧
      of d interrupts m (n :: ns) = { fragments := n :: ns, machine := m } := by
  constructor
  · rw [visits, if_neg (by simp [he]), if_pos (by simp [hr])]
  · rw [of, if_neg (by simp [he]), if_pos (by simp [hr])]

theorem visits_interrupted {interrupts : List Bool} (he : n.flags.evaluated = false)
    (hr : n.isReady = true) (hi : (m.cancelled || interrupts.headD false) = true) :
    visits d interrupts m (n :: ns) = [] ∧ of d interrupts m (n :: ns) =
      { fragments := n :: ns
        machine := { m with cancelled := true }
        stop := some .cancelled } := by
  constructor
  · rw [visits, if_neg (by simp [he]), if_pos (by rw [Bool.or_assoc, hi, Bool.or_true])]
  · rw [of, if_neg (by simp [he]), if_neg (by simp [hr]), if_pos hi]

theorem visits_failed {interrupts : List Bool} (ns : List Node) (he : n.flags.evaluated = false)
    (hr : n.isReady = true) (hi : ¬(m.cancelled || interrupts.headD false) = true)
    (hn : n.evaluate d m = (.error f, m')) :
    visits d interrupts m (n :: ns) = n.visits d m ∧
      (of d interrupts m (n :: ns)).stop = some (.failed f) := by
  constructor
  · rw [visits, if_neg (by simp [he]), if_neg (by rw [Bool.or_assoc, hr]; simpa using hi), hn]
    exact List.append_nil _
  · rw [of, if_neg (by simp [he]), if_neg (by simp [hr]), if_neg hi, hn]

theorem visits_evaluated {interrupts : List Bool} (ns : List Node) (he : n.flags.evaluated = false)
    (hr : n.isReady = true) (hi : ¬(m.cancelled || interrupts.headD false) = true)
    (hn : n.evaluate d m = (.ok n', m')) :
    visits d interrupts m (n :: ns) = n.visits d m ++ visits d interrupts.tail m' ns ∧
      of d interrupts m (n :: ns) =
        { of d interrupts.tail m' ns with
          fragments := n' :: (of d interrupts.tail m' ns).fragments
          values := n'.result :: (of d interrupts.tail m' ns).values } := by
  constructor
  · rw [visits, if_neg (by simp [he]), if_neg (by rw [Bool.or_assoc, hr]; simpa using hi), hn]
  · rw [of, if_neg (by simp [he]), if_neg (by simp [hr]), if_neg hi, hn]

/-- Where a pass fails for want of a declaration, it is a rule that does. -/
theorem visit_of_error (interrupts : List Bool) (hc : f.cause = .noLongerDeclared name)
    (h : (of d interrupts m ns).stop = some (.failed f)) :
    ∃ x ∈ visits d interrupts m ns, (x.outcome d).1 = .error f := by
  induction ns generalizing m interrupts with
  | nil => cases h
  | cons n ns ih =>
    by_cases he : n.flags.evaluated = true
    · rw [of, if_pos he] at h
      rw [visits, if_pos he]
      exact ih interrupts h
    have he : n.flags.evaluated = false := by simpa using he
    by_cases hr : n.isReady = true
    · by_cases hi : (m.cancelled || interrupts.headD false) = true
      · rw [(visits_interrupted he hr hi).2] at h
        cases h
      · rcases hn : n.evaluate d m with ⟨e | n', m₁⟩
        · obtain ⟨hvisits, hstop⟩ := visits_failed ns he hr hi hn
          rw [hstop] at h
          cases h
          obtain ⟨x, hx, hf⟩ := Node.visit_of_error hc (by rw [hn])
          exact ⟨x, by rw [hvisits]; exact hx, hf⟩
        · obtain ⟨hvisits, hof⟩ := visits_evaluated ns he hr hi hn
          rw [hof] at h
          obtain ⟨x, hx, hf⟩ := ih interrupts.tail h
          exact ⟨x, by rw [hvisits]; exact List.mem_append_right _ hx, hf⟩
    · rw [(visits_unready interrupts m he (by simpa using hr)).2] at h
      cases h

end Progress

end Visits

end TokenShell
