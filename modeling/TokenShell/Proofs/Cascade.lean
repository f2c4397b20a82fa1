import TokenShell.Proofs.Scoping

/-! Fragments on their way through the phases: what becomes of them, and what they declare. -/
namespace TokenShell

theorem Label.isBlock_draft (l : Label) : l.draft.isBlock = l.isBlock := by
  simp only [isBlock, draft]
  cases l.form <;> rfl

namespace Label

/-- A label as a token makes it. -/
def seed (l : Label) : Label := { token := l.token, serial := l.serial, form := l.form.origin }

theorem seed_origin (l : Label) : l.origin.seed = l.seed := by
  simp only [seed, origin]
  cases l.form <;> rfl

theorem seed_plan (l : Label) : l.plan.seed = l.seed := by
  rw [← seed_origin, origin_plan, seed_origin]

theorem seed_draft (l : Label) : l.draft.seed = l.seed := by
  rw [← seed_plan, plan_draft, seed_plan]

theorem isOperator_seed (l : Label) : l.seed.isOperator = l.isOperator := by
  simp only [isOperator, seed]
  cases l.form <;> rfl

theorem isGrouping_seed (l : Label) : l.seed.isGrouping = l.isGrouping := by
  simp only [isGrouping, seed]
  cases l.form with
  | operator s a b => cases s <;> rfl
  | _ => rfl

end Label

namespace Node

variable {β : Type} {w : Label → List β} {g : Label → List (List β) → List β} {n m q : Node}
  {l : Label} {within : Option Nat} {renew : Bool} {s t : Scopes} {k : Key}

/-- The phases before analysis. They look at no scope. -/
def prepare (within : Option Nat) (n : Node) : Except Failure Node := do
  let n ← n.setUp within
  let n ← n.complete false
  n.reorder

theorem cascade_run (within : Option Nat) (n : Node) (s : Scopes) :
    n.cascade within s =
      match n.prepare within with
      | .ok m => m.analyze false s
      | .error f => (.error f, s) := by
  simp only [cascade, run_bind, run_lift]
  cases hs : n.setUp within with
  | error f => simp [prepare, hs, bind, Except.bind]
  | ok a =>
    cases hc : a.complete false with
    | error f => simp [prepare, hs, hc, bind, Except.bind]
    | ok b => cases hr : b.reorder <;> simp [prepare, hs, hc, hr, bind, Except.bind]

theorem fold_prepare (hg : Sequential w g) (h : n.prepare within = .ok m) :
    m.fold g = n.fold g := by
  obtain ⟨a, ha, h⟩ := except_bind_ok.mp h
  obtain ⟨b, hb, h⟩ := except_bind_ok.mp h
  rw [fold_reorder hg.inOrder h, fold_complete (Label.sketch_of_draft hg.draft) hb,
    fold_setUp hg.draft ha]

theorem complete_prepare (h : n.prepare within = .ok m) : m.flags.complete = true := by
  obtain ⟨a, -, h⟩ := except_bind_ok.mp h
  obtain ⟨b, -, h⟩ := except_bind_ok.mp h
  obtain ⟨⟨l, ks⟩, -, h⟩ := except_bind_ok.mp h
  rw [markReordered] at h
  split at h
  · cases h
  · next hc =>
    obtain ⟨js, -, h⟩ := except_bind_ok.mp h
    cases h
    simpa using hc

theorem raw_prepare (h : n.prepare within = .ok m) (hn : n.Raw) : m.Raw := by
  have hs : Sequential (fun l => [l.draft]) (sequenceStep Label.isBlock) := by
    refine sequential_sequence Label.isBlock_draft fun l hl => ?_
    rw [Label.isOperator] at hl
    rw [Label.isBlock]
    split at hl
    · next hf => rw [hf]
    · cases hl
  have he : m.sequence Label.isBlock = n.sequence Label.isBlock := fold_prepare hs h
  rwa [Raw, he]

theorem flags_bindTo (v : Node) (k : Nat) : (v.bindTo k).flags = v.flags := by
  unfold bindTo
  split <;> rfl

theorem flags_analyzeHead (h : n.analyzeHead renew s = (.ok m, t)) : m.flags = n.flags := by
  rcases analyzeHead_cases renew n with ⟨b, -, he⟩ | ⟨l, v, ks, rfl, -, he⟩ | ⟨l, rfl, -, he⟩ |
    ⟨-, -, he⟩
  · rw [he, resolve_run] at h
    split at h
    · cases h
      exact flags_bindTo n _
    · cases h
  · rw [he] at h
    obtain ⟨u, r, -, h⟩ := run_bind_ok.mp h
    cases h
    rfl
  · rw [he] at h
    cases h
  · rw [he] at h
    cases h
    rfl

theorem flags_analyze (h : n.analyze renew s = (.ok m, t)) :
    m.flags = { n.flags with analyzed := true } := by
  obtain ⟨l, ks⟩ := n
  rcases analyze_cases renew l ks with ⟨ha, he⟩ | ⟨-, -, he⟩ | ⟨-, kind, scope, -, he⟩ |
    ⟨-, renews, -, he⟩ | ⟨-, -, -, he⟩
  · rw [he] at h
    cases h
    rw [flags_mk, ← ha]
  · rw [he] at h
    cases h
  · rw [he] at h
    obtain ⟨⟨js, scope'⟩, u, -, h⟩ := run_bind_ok.mp h
    cases h
    rfl
  · rw [he] at h
    obtain ⟨js, u, -, h⟩ := run_bind_ok.mp h
    cases h
    rfl
  · rw [he] at h
    obtain ⟨js, u, -, h⟩ := run_bind_ok.mp h
    obtain ⟨j, v, hj, h⟩ := run_bind_ok.mp h
    cases h
    rw [markAnalyzed, setLabel, flags_mk, ← flags, flags_analyzeHead hj]
    rfl

/-! A fragment's passage through all phases. -/

theorem cascade_ok (h : n.cascade within s = (.ok q, t)) :
    ∃ m, n.prepare within = .ok m ∧ m.analyze false s = (.ok q, t) := by
  rw [cascade_run] at h
  split at h
  · next m hm => exact ⟨m, hm, h⟩
  · cases h

theorem fold_cascade (hg : Sequential w g) (hp : ∀ l, g l.plan = g l)
    (h : n.cascade within s = (.ok q, t)) : q.fold g = n.fold g := by
  obtain ⟨m, hm, hq⟩ := cascade_ok h
  rw [fold_analyze (Label.scheme_of_plan hp) hq, fold_prepare hg hm]

end Node

/-- A fold to lists that reads the operators of a chain in order and sees of a label what its token
made. No phase changes its value. -/
structure Faithful {β : Type} (w : Label → List β) (g : Label → List (List β) → List β) : Prop where
  seed : ∀ l : Label, g l.seed = g l
  unary : ∀ l x, l.isOperator = true → l.isGrouping = false → g l [x] = w l ++ x
  binary : ∀ l x y, l.isOperator = true → l.isGrouping = false → g l [x, y] = x ++ w l ++ y

namespace Faithful

variable {β : Type} {w : Label → List β} {g : Label → List (List β) → List β} {n q : Node}
  {within : Option Nat} {s t : Scopes}

theorem origin (hg : Faithful w g) (l : Label) : g l.origin = g l := by
  rw [← hg.seed, Label.seed_origin, hg.seed]

theorem plan (hg : Faithful w g) (l : Label) : g l.plan = g l := by
  rw [← hg.seed, Label.seed_plan, hg.seed]

theorem sequential (hg : Faithful w g) : Sequential w g where
  draft l := by rw [← hg.seed, Label.seed_draft, hg.seed]
  unary := hg.unary
  binary := hg.binary

theorem cascade (hg : Faithful w g) (h : n.cascade within s = (.ok q, t)) : q.fold g = n.fold g :=
  Node.fold_cascade hg.sequential hg.plan h

end Faithful

/-- What labels show by their tokens, the operators of a chain nothing. -/
structure Label.Lasting {β : Type} (own : Label → List β) : Prop where
  seed : ∀ l : Label, own l.seed = own l
  chain : ∀ l : Label, l.isOperator = true → l.isGrouping = false → own l = []

/-- What the labels of a tree show, each before those below it. -/
def Node.gather {β : Type} (own : Label → List β) (n : Node) : List β :=
  n.fold fun l parts => own l ++ parts.flatten

theorem Node.gather_mk {β : Type} (own : Label → List β) (l : Label) (ks : List Node) :
    (mk l ks).gather own = own l ++ ks.flatMap (gather own) := by
  rw [gather, fold_mk, List.flatMap_def]
  rfl

theorem Label.Lasting.faithful {β : Type} {own : Label → List β} (h : Lasting own) :
    Faithful (fun _ => []) (fun l parts => own l ++ parts.flatten) where
  seed l := by rw [h.seed]
  unary l x hl hg := by simp [h.chain l hl hg]
  binary l x y hl hg := by simp [h.chain l hl hg]

namespace Node

variable {n m q : Node} {l : Label} {within : Option Nat} {renew : Bool} {s t : Scopes} {k : Key}

theorem identifiers_lasting : Label.Lasting fun l => l.variableKey?.toList where
  seed l := by
    simp only [Label.variableKey?, Label.seed]
    cases l.form <;> rfl
  chain l hl _ := by
    cases hf : l.form <;> simp_all [Label.isOperator, Label.variableKey?]

theorem isReady_cascade (h : n.cascade within s = (.ok q, t)) : q.isReady = true := by
  obtain ⟨m, hm, hq⟩ := cascade_ok h
  rw [isReady, flags_analyze hq, complete_prepare hm]
  rfl

/-- What a fragment declares if it gets through the phases. -/
def promised (within : Option Nat) (n : Node) : List Key :=
  match n.prepare within with
  | .ok m => m.declarations false
  | .error _ => []

theorem promised_subset (h : k ∈ n.promised within) : k ∈ n.identifiers := by
  unfold promised at h
  split at h
  · next m hm =>
    have he : m.identifiers = n.identifiers :=
      fold_prepare identifiers_lasting.faithful.sequential hm
    rw [← he]
    exact declarations_subset h
  · cases h

theorem declarations_cascade (h : n.cascade within s = (.ok q, t)) :
    q.declarations false = n.promised within := by
  obtain ⟨m, hm, hq⟩ := cascade_ok h
  rw [promised, hm]
  exact declarations_congr (origin_analyze hq) false

theorem cascade_declares (within : Option Nat) (n : Node) :
    Declares (n.cascade within) (n.promised within) n.Raw := by
  cases hm : n.prepare within with
  | error f =>
    intro s u os ou _ _
    refine Declares.unchanged (r := .error f) ?_ ?_ (Or.inr fun a ha => by cases ha)
    · rw [cascade_run, hm]
    · rw [cascade_run, hm]
  | ok m =>
    have hc : n.cascade within = m.analyze false := by
      funext s
      rw [cascade_run, hm]
    rw [hc, promised, hm]
    exact (analyze_declares false m).mono (raw_prepare hm)

/-- A node that is not analyzed is not ready. -/
theorem Raw.not_ready (h : n.Raw) : n.isReady = false := by
  simp [isReady, h.flags.1]

theorem analyzed_of_ready (h : n.isReady = true) : n.flags.analyzed = true := by
  simp only [isReady, Bool.and_eq_true] at h
  exact h.2

end Node

/-! All the pending fragments of a container. -/

namespace Flushed

variable {within : Option Nat} {ns rs : List Node} {s u : Scope} {os ou : Scopes}

/-- A child of a container before and after a flush, with the scopes around the container's own. -/
def Passed (within : Option Nat) (os : Scopes) (n m : Node) : Prop :=
  m = n ∨ ∃ s new, n.cascade within (s :: os) = (.ok m, s.extend new :: os)

/-- What a faithful fold sees of the children of a container stays the same. -/
theorem fold_passed {β : Type} {w : Label → List β} {g : Label → List (List β) → List β}
    (hg : Faithful w g) {ks js : List Node} (h : List.Forall₂ (Passed within os) ks js) :
    js.map (Node.fold g) = ks.map (Node.fold g) := by
  refine Node.map_eq_of_forall₂ h ?_
  rintro k - j (rfl | ⟨s, new, hc⟩)
  · rfl
  · exact hg.cascade hc

theorem of_append (h : ∀ r ∈ rs, r.flags.analyzed = true) (ss : Scopes) (ns : List Node) :
    of within ss (rs ++ ns) = { of within ss ns with kids := rs ++ (of within ss ns).kids } := by
  induction rs with
  | nil => rfl
  | cons r rs ih =>
    rw [List.cons_append, of, if_pos (h r (by simp)), ih fun q hq => h q (by simp [hq])]
    rfl

/-- The outcome of a flush does not depend on the cells. -/
theorem of_alike (within : Option Nat) (ns : List Node) (hs : s.Alike u)
    (ho : List.Forall₂ Scope.Alike os ou) :
    ∃ js new events failure, of within (s :: os) ns = ⟨js, s.extend new :: os, events, failure⟩ ∧
      of within (u :: ou) ns = ⟨js, u.extend new :: ou, events, failure⟩ ∧
      List.Forall₂ (Passed within os) ns js ∧ (s.Distinct → (s.extend new).Distinct) := by
  induction ns generalizing s u with
  | nil => exact ⟨[], [], [], none, by simp [of], by simp [of], .nil, by simp⟩
  | cons n ns ih =>
    have hsame : List.Forall₂ (Passed within os) (n :: ns) (n :: ns) :=
      List.forall₂_same.mpr fun _ _ => Or.inl rfl
    by_cases ha : n.flags.analyzed = true
    · obtain ⟨js, new, ev, fl, h1, h2, hp, hd⟩ := ih hs
      refine ⟨n :: js, new, ev, fl, ?_, ?_, .cons (Or.inl rfl) hp, hd⟩
      · rw [of, if_pos ha, h1]
      · rw [of, if_pos ha, h2]
    · obtain ⟨r, new, h1, h2, -, -, hd⟩ := Node.cascade_declares within n s u os ou hs ho
      cases r with
      | error f =>
        refine ⟨n :: ns, new, [], some f, ?_, ?_, hsame, hd⟩
        · rw [of, if_neg ha, h1]
        · rw [of, if_neg ha, h2]
      | ok q =>
        obtain ⟨js, new', ev, fl, k1, k2, hp, hd'⟩ := ih (hs.extend new)
        have hdepth := Scopes.depth_congr q.label.block (List.Forall₂.cons (hs.extend new) ho)
        refine ⟨q :: js, new ++ new',
          .ready q.text (Scopes.depth q.label.block (s.extend new :: os)) :: ev, fl, ?_, ?_,
          .cons (Or.inr ⟨_, _, h1⟩) hp, fun h => ?_⟩
        · rw [of, if_neg ha, h1]
          simp only [k1, Scope.extend_extend]
        · rw [of, if_neg ha, h2]
          simp only [k2, Scope.extend_extend, ← hdepth]
        · rw [← Scope.extend_extend]
          exact hd' (hd h)

/-- Raw fragments that get through a flush are ready and have declared just what they declare; what
a failing one declared is among its own variables. -/
theorem of_exact (within : Option Nat) (h : ∀ n ∈ ns, n.Raw) (s : Scope) (os : Scopes) :
    ∃ qs rest extra events failure,
      of within (s :: os) ns = ⟨qs ++ rest,
        s.extend (qs.flatMap (Node.declarations false) ++ extra) :: os, events, failure⟩ ∧
      (∀ q ∈ qs, q.isReady = true) ∧ (∀ n ∈ rest, n.Raw) ∧
      (∀ k ∈ extra, k ∈ rest.flatMap Node.identifiers) ∧ (failure = none → rest = []) ∧
      (∀ n ∈ rest, n ∈ ns) ∧ ∀ q ∈ qs, ∃ n ∈ ns, ∃ u new,
        n.cascade within (u :: os) = (.ok q, u.extend new :: os) ∧
        ∀ k ∈ (u.extend new).keys, k ∈ (s.extend (qs.flatMap (Node.declarations false))).keys := by
  induction ns generalizing s with
  | nil =>
    exact ⟨[], [], [], [], none, by simp [of], by simp, by simp, by simp, by simp, by simp, by simp⟩
  | cons n ns ih =>
    have hn : n.Raw := h n (by simp)
    have ha : ¬ n.flags.analyzed = true := by simp [hn.flags.1]
    obtain ⟨r, new, h1, -, hsub, hall, -⟩ :=
      Node.cascade_declares within n s s os os (.refl s) (List.forall₂_same.mpr fun _ _ => .refl _)
    cases r with
    | error f =>
      refine ⟨[], n :: ns, new, [], some f, ?_, by simp, h, ?_, by simp, fun _ hm => hm, by simp⟩
      · rw [of, if_neg ha, h1]
        rfl
      · intro k hk
        rw [List.flatMap_cons]
        exact List.mem_append_left _ (Node.promised_subset (hsub.mem hk))
    | ok q =>
      obtain ⟨qs, rest, extra, ev, fl, k1, hq, hr, he, hf, hm, hc⟩ :=
        ih (fun m hm => h m (by simp [hm])) (s.extend new)
      have hnew : new = q.declarations false := by
        rw [hall hn q rfl, Node.declarations_cascade h1]
      have hkeys : (s.extend ((q :: qs).flatMap (Node.declarations false))).keys =
          ((s.extend new).extend (qs.flatMap (Node.declarations false))).keys := by
        rw [Scope.extend_extend, List.flatMap_cons, hnew]
      refine ⟨q :: qs, rest, extra,
        .ready q.text (Scopes.depth q.label.block (s.extend new :: os)) :: ev, fl, ?_, ?_, hr, he,
        hf, fun m hm' => List.mem_cons_of_mem _ (hm m hm'), ?_⟩
      · rw [of, if_neg ha, h1]
        simp only [k1, Scope.extend_extend, ← hnew, List.flatMap_cons, List.cons_append,
          List.append_assoc]
      · intro p hp
        rcases List.mem_cons.mp hp with rfl | hp
        · exact Node.isReady_cascade h1
        · exact hq p hp
      · intro p hp
        rw [hkeys]
        rcases List.mem_cons.mp hp with rfl | hp
        · refine ⟨n, by simp, s, new, h1, fun k hk => ?_⟩
          rw [Scope.keys_extend]
          exact List.mem_append_left _ hk
        · obtain ⟨m, hm', hc⟩ := hc p hp
          exact ⟨m, List.mem_cons_of_mem _ hm', hc⟩

end Flushed

end TokenShell
