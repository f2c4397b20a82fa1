import TokenShell.Proofs.Links
import TokenShell.Proofs.Resolution

/-! What a scope declares follows from what has been analyzed below it, in every state that a run
comes to. -/
namespace TokenShell

namespace Node

variable {n m q : Node} {l : Label} {ks : List Node} {b : Bool}

/-! Initializers stand right below a declaration. -/

/-- What is left of the marks below a declaration: the initializer that comes first is in its place.
-/
def housed : List Bool → List Bool
  | true :: more => more
  | marks => marks

def strayStep (l : Label) (parts : List (List Bool)) : List Bool :=
  match l.form with
  | .block .. => parts.flatten.map fun _ => false
  | .declaration _ => parts.flatMap housed
  | .initializer => true :: parts.flatten
  | _ => parts.flatten

/-- A mark for each initializer that does not stand right below a declaration, a false one if it is
inside a block of the tree. -/
def strays (n : Node) : List Bool := n.fold strayStep

theorem strayStep_faithful : Faithful (fun _ => []) strayStep where
  seed l := by
    funext parts
    simp only [strayStep, Label.seed]
    cases l.form <;> rfl
  unary l x ho _ := by
    obtain ⟨s, a, k, hf⟩ := Label.isOperator_iff.mp ho
    simp [strayStep, hf]
  binary l x y ho _ := by
    obtain ⟨s, a, k, hf⟩ := Label.isOperator_iff.mp ho
    simp [strayStep, hf]

theorem strays_mk (l : Label) (ks : List Node) :
    (mk l ks).strays = strayStep l (ks.map strays) := by
  rw [strays, fold_mk]
  rfl

theorem mem_housed {marks : List Bool} : false ∈ housed marks ↔ false ∈ marks := by
  rw [housed.eq_def]
  split <;> simp

theorem false_mem_strays : false ∈ (mk l ks).strays ↔
    if l.isBlock = true then ∃ k ∈ ks, k.strays ≠ [] else ∃ k ∈ ks, false ∈ k.strays := by
  rw [strays_mk, strayStep, Label.isBlock]
  cases l.form with
  | block _ _ =>
    simp only [List.mem_map, List.mem_flatten, if_true]
    constructor
    · rintro ⟨x, ⟨_, ⟨k, hk, rfl⟩, hx⟩, -⟩
      exact ⟨k, hk, List.ne_nil_of_mem hx⟩
    · rintro ⟨k, hk, hne⟩
      obtain ⟨x, hx⟩ := List.exists_mem_of_ne_nil _ hne
      exact ⟨x, ⟨_, ⟨k, hk, rfl⟩, hx⟩, trivial⟩
  | declaration _ => simp [mem_housed]
  | _ => simp

/-- A fragment that completes has all its initializers in their places. -/
theorem strays_complete {inside : Bool} (hx : false ∉ n.strays) (h : n.complete inside = .ok m)
    (hn : n.Upper Label.Planted) : n.strays = (if n.form = .initializer then [true] else []) ∧
      (n.form = .initializer → inside = true) := by
  induction n using induct generalizing inside m with
  | h l ks ih =>
    obtain ⟨hl, -⟩ := upper_mk.mp hn
    obtain ⟨js, form, is, hjs, hs, -⟩ := (complete_ok h).resolve_left (by simp [hl.flags])
    rw [false_mem_strays] at hx
    by_cases hb : l.isBlock = true
    · rw [if_pos hb] at hx
      have hnil : ∀ k ∈ ks, k.strays = [] := by
        intro k hm
        by_contra hne
        exact hx ⟨k, hm, hne⟩
      obtain ⟨kind, scope, hf⟩ := Label.isBlock_iff.mp hb
      simpa [strays_mk, strayStep, hf] using hnil
    rw [if_neg hb] at hx
    have hdone : ∀ k ∈ ks, ∃ j, k.complete l.isDeclaration = .ok j :=
      forall_of_forall₂ (mapM_ok hjs).flip fun j _ k hj => ⟨j, hj⟩
    have hkids : ∀ k ∈ ks, k.strays = (if k.form = .initializer then [true] else []) ∧
        (k.form = .initializer → l.isDeclaration = true) := by
      intro k hm
      obtain ⟨j, hj⟩ := hdone k hm
      exact ih k hm (fun hf => hx ⟨k, hm, hf⟩) hj (hn.kids (by simpa using hb) k hm)
    have hnil : l.isDeclaration = false → (ks.map strays).flatten = [] := by
      intro hd
      refine List.flatten_eq_nil_iff.mpr fun p hp => ?_
      obtain ⟨k, hm, rfl⟩ := List.mem_map.mp hp
      obtain ⟨hs, hi⟩ := hkids k hm
      rw [hs, if_neg fun hf => by simp [hi hf] at hd]
    rw [strays_mk, strayStep, form_mk]
    cases hf : l.form with
    | block _ _ => exact (hb (by rw [Label.isBlock, hf])).elim
    | declaration _ =>
      refine ⟨?_, by simp⟩
      simp only [reduceCtorEq, if_false]
      refine List.flatMap_eq_nil_iff.mpr fun p hp => ?_
      obtain ⟨k, hm, rfl⟩ := List.mem_map.mp hp
      rw [(hkids k hm).1]
      split <;> rfl
    | initializer =>
      simp only [hnil (by rw [Label.isDeclaration, hf]), if_true, true_and]
      intro _
      rw [Label.checkShape, hf] at hs
      obtain ⟨_, hi, -⟩ := except_bind_ok.mp hs
      unfold Label.completeInitializer at hi
      split at hi
      · cases hi
      · next hin => simpa using hin
    | _ => simpa using hnil (by rw [Label.isDeclaration, hf])

theorem strays_cascade {within : Option Nat} {ss us : Scopes} (hx : false ∉ n.strays)
    (hn : n.Upper Label.Planted) (h : n.cascade within ss = (.ok q, us)) : q.strays = [] := by
  rw [strays, strayStep_faithful.cascade h]
  obtain ⟨m, hm, -⟩ := cascade_ok h
  obtain ⟨u, hu, hm⟩ := except_bind_ok.mp hm
  rw [hn.setUp] at hu
  cases hu
  obtain ⟨c, hc, -⟩ := except_bind_ok.mp hm
  obtain ⟨hs, hi⟩ := strays_complete hx hc hn
  rw [if_neg fun hf => by simpa using hi hf] at hs
  exact hs

/-! Outside the blocks of a fragment all variables are analyzed, or none is. -/

theorem outer_analyzed {a : Bool} {P : Node → Prop}
    (hP : ∀ l ks, P (mk l ks) → l.flags.analyzed = a ∧ (l.isBlock = false → ∀ k ∈ ks, P k))
    (h : P n) : ∀ v, .mention v ∈ n.fold sightStep → v.isOuter = true → v.analyzed = a := by
  induction n using induct with
  | h l ks ih =>
    intro v hm ho
    obtain ⟨hl, hk⟩ := hP l ks h
    rw [fold_mk] at hm
    by_cases hb : l.isBlock = true
    · obtain ⟨kind, scope, hf⟩ := Label.isBlock_iff.mp hb
      have hin : Sight.isOuter (.mention v) = false := by
        rw [sightStep, hf] at hm
        exact Sight.isOuter_enclose _ _ _ _ (by simpa using hm)
      rw [Sight.isOuter, ho] at hin
      cases hin
    · have hb : l.isBlock = false := by simpa using hb
      have hkids : ∀ v, .mention v ∈ (ks.map (fold sightStep)).flatten → v.isOuter = true →
          v.analyzed = a := by
        intro v hm ho
        obtain ⟨_, hp, hm⟩ := List.mem_flatten.mp hm
        obtain ⟨k, hkm, rfl⟩ := List.mem_map.mp hp
        exact ih k hkm (hk hb k hkm) v hm ho
      have hmap : ∀ (xs : List Sight) (g : Sight → Sight), (g = id ∨ ∃ b, g = Sight.under b) →
          (∀ x ∈ xs, x ∈ (ks.map (fold sightStep)).flatten) → .mention v ∈ xs.map g →
          v.analyzed = a := by
        intro xs g hg hsub hm
        obtain ⟨x, hx, he⟩ := List.mem_map.mp hm
        cases x with
        | scope _ _ => rcases hg with rfl | ⟨b, rfl⟩ <;> cases he
        | mention u =>
          have hu := hkids u (hsub _ hx)
          rcases hg with rfl | ⟨b, rfl⟩ <;> cases he <;> exact hu ho
      rcases sightStep_cases hb (ks.map (fold sightStep)) with ⟨g, hg, he⟩ | ⟨d, k, -, he⟩ |
        ⟨-, u, more, hflat, -, he⟩
      · rw [he] at hm
        exact hmap _ g hg (fun _ hx => hx) hm
      · rw [he] at hm
        rcases List.mem_cons.mp hm with hv | hm
        · cases hv
          exact hl
        · exact hmap _ _ (Or.inr ⟨false, rfl⟩) (fun _ hx => hx) hm
      · rw [he] at hm
        rcases List.mem_append.mp hm with hm | hm
        · refine hmap more _ (Or.inr ⟨false, rfl⟩) (fun x hx => ?_) hm
          rw [hflat]
          exact List.mem_cons_of_mem _ hx
        · cases List.mem_singleton.mp hm
          exact hl

/-- The keys that the analyzed variables of a tree have been entered with. -/
def entered (n : Node) : List Key := (n.sights false).filterMap Sight.entered?

theorem sights_analyzed {a : Bool} {P : Node → Prop}
    (hP : ∀ l ks, P (mk l ks) → l.flags.analyzed = a ∧ (l.isBlock = false → ∀ k ∈ ks, P k))
    (h : P n) : ∀ v, .mention v ∈ n.sights b → v.isOuter = true → v.analyzed = a := by
  intro v hm ho
  obtain ⟨x, hx, he⟩ := List.mem_map.mp hm
  cases x with
  | scope _ _ => cases he
  | mention u =>
    cases he
    exact outer_analyzed hP h u hx ho

theorem Raw.analyzed_sights (h : n.Raw) : ∀ v, .mention v ∈ n.sights b → v.isOuter = true →
    v.analyzed = false :=
  sights_analyzed (fun _ _ h => ⟨(raw_mk.mp h).1.1, (raw_mk.mp h).2⟩) h

theorem Settled.analyzed_sights (h : n.Settled) : ∀ v, .mention v ∈ n.sights b → v.isOuter = true →
    v.analyzed = true :=
  sights_analyzed (fun _ _ h => ⟨h.analyzed, fun _ => (settled_mk.mp h).2⟩) h

theorem Raw.entered (h : n.Raw) : n.entered = [] := by
  refine List.filterMap_eq_nil_iff.mpr fun x hx => ?_
  cases x with
  | scope _ _ => rfl
  | mention v =>
    rw [Sight.entered?, if_neg]
    rintro ⟨ho, -, ha⟩
    rw [h.analyzed_sights v hx ho] at ha
    cases ha

theorem Settled.entered_eq_named (h : n.Settled) : n.entered = Sight.named (n.sights false) := by
  rw [Node.entered, Sight.named, List.map_filterMap]
  refine List.filterMap_congr fun x hx => ?_
  cases x with
  | scope _ _ => rfl
  | mention v =>
    rw [Sight.entered?, Sight.declared?]
    by_cases ho : v.isOuter = true
    · by_cases hr : v.role = .declares
      · simp [ho, hr, h.analyzed_sights v hx ho]
      · simp [hr]
    · simp [ho]

/-- The variables that a settled tree shows as declaring are those that analysis declares. -/
theorem Settled.named_sights (h : n.Settled) (hb : b = true → n.form = .initializer) :
    Sight.named (n.sights b) = n.declarations b := by
  induction n using induct generalizing b with
  | h l ks ih =>
    obtain ⟨hl, hk⟩ := settled_mk.mp h
    have hshape := hl.shaped
    have hkids : ∀ (js : List Node) c, (∀ k ∈ js, k ∈ ks) →
        (∀ k ∈ js, c = true → k.form = .initializer) →
        Sight.named (js.flatMap (sights c)) = declarationsAll c js := by
      intro js c hsub hc
      rw [declarationsAll_eq, Sight.named, List.filterMap_flatMap, List.map_flatMap]
      exact List.flatMap_congr fun k hm => ih k (hsub k hm) (hk k (hsub k hm)) (hc k hm)
    rw [declarations]
    cases hf : l.form with
    | block kind scope =>
      refine List.map_eq_nil_iff.mpr (List.filterMap_eq_nil_iff.mpr fun x hx => ?_)
      rw [sights_block hf] at hx
      rcases List.mem_append.mp hx with hx | hx
      · exact Sight.declared?_inner (Sight.isOuter_enclose _ _ _ x hx)
      · cases List.mem_singleton.mp hx
        rfl
    | declaration renews =>
      rw [hf] at hshape
      rw [sights_declaration hf]
      refine hkids ks renews (fun _ hm => hm) fun k hm _ => (initializer_iff k).mpr (hshape.2 _ ?_)
      rw [List.map_map]
      exact List.mem_map.mpr ⟨k, hm, rfl⟩
    | «variable» d k =>
      rw [hf] at hshape
      obtain rfl : ks = [] := by simpa [Form.Shaped] using hshape
      rw [sights_variable hf]
      rfl
    | initializer =>
      rw [hf] at hshape
      obtain ⟨v, rest, k, rfl, hv⟩ := initializer_cons hshape fun k hm => (hk k hm).done.shaped
      have hrest := hkids rest false (fun k hm => by simp [hm]) (by simp)
      have hfirst : (Node.mk v []).declarations false = [] := by
        rw [declarations, hv]
        rfl
      rw [sights_initializer hf hv, Sight.named_append, hrest, declarationsAll, hfirst,
        List.nil_append]
      congr 1
      rw [Sight.named_outer (by rfl), introduced, isVariable, form_mk, hv]
      cases b <;> rfl
    | _ =>
      obtain rfl : b = false := by
        by_contra hne
        have := hb (by simpa using hne)
        rw [form_mk, hf] at this
        cases this
      rw [sights_other (by simp [Label.isBlock, hf]) (by simp [hf]) (by simp [hf]) (by simp [hf])]
      exact hkids ks false (fun _ hm => hm) (by simp)

end Node

/-! Evaluation changes no more of a tree than its results and the cells of its scopes. -/

/-- The form up to what evaluation does to it. -/
def Form.contour : Form → Form
  | .block kind s => .block kind (({} : Scope).extend s.keys)
  | .command _ => .command false
  | form => form

namespace Label

variable {σ : Type} {d : Option (Dispatcher σ)} {l l' : Label} {ks : List Node} {m m' : Machine σ}

def contour (l : Label) : Label :=
  { l with form := l.form.contour, flags := { l.flags with evaluated := false }, result := .nil }

theorem contour_of_outline (hb : l.isBlock = false) (h : l'.outline = l.outline) :
    l'.contour = l.contour := by
  have hform : l'.form.outline = l.form.outline := congrArg Label.form h
  have hcontour : l'.form.contour = l.form.contour := by
    rw [isBlock] at hb
    cases hl : l.form <;> cases hl' : l'.form <;> simp_all [Form.outline, Form.contour]
  simp only [outline, Label.mk.injEq] at h
  simp [contour, hcontour, h]

theorem contour_evaluate (h : l.evaluate d ks m = (.ok l', m')) : l'.contour = l.contour := by
  by_cases hb : l.isBlock = true
  · obtain ⟨kind, scope, hf⟩ := isBlock_iff.mp hb
    obtain ⟨v, rfl⟩ : ∃ v, l' = l.withResult v := by
      rw [evaluate, hf] at h
      cases kind with
      | expression =>
        dsimp only at h
        rw [evaluateFirst.eq_def] at h
        split at h <;> cases h
        exact ⟨_, rfl⟩
      | _ =>
        cases h
        exact ⟨_, rfl⟩
    rfl
  · obtain ⟨-, out, -, -, -, hall⟩ := dispatches_evaluate d l ks m
    exact contour_of_outline (by simpa using hb) (hall l' (by rw [h])).2.1

end Label

namespace Node

variable {σ α : Type} {d : Option (Dispatcher σ)} {g : Label → List α → α} {n n' : Node}
  {ks js : List Node} {m m' : Machine σ}

theorem inside_keys {scope scope' : Scope}
    (h : Evaluation.inside scope (evaluateAll d ks) m = (.ok (js, scope'), m')) :
    scope'.keys = scope.keys ∧ ∃ m₁, evaluateAll d ks { m with scopes := scope :: m.scopes } =
      (.ok js, m₁) := by
  obtain ⟨hkeys, -⟩ := dispatches_all d ks { m with scopes := scope :: m.scopes }
  rw [Evaluation.inside] at h
  split at h
  · next a m₁ hw =>
    rw [hw] at hkeys
    split at h
    · next s outer hs =>
      cases h
      rw [hs] at hkeys
      exact ⟨(Scope.Alike.of_outline (List.cons.inj hkeys).1).keys, m₁, hw⟩
    · next hs =>
      rw [hs] at hkeys
      cases hkeys
  · cases h

theorem fold_evaluateAll
    (hk : ∀ k ∈ ks, ∀ m m' j, k.evaluate d m = (.ok j, m') → j.fold g = k.fold g)
    (h : evaluateAll d ks m = (.ok js, m')) : js.map (fold g) = ks.map (fold g) := by
  induction ks generalizing js m with
  | nil =>
    cases h
    rfl
  | cons k ks ih =>
    obtain ⟨j, js, t, hj, hjs, rfl⟩ := evaluateAll_cons_ok.mp h
    rw [List.map_cons, List.map_cons, hk k (by simp) _ _ _ hj,
      ih (fun i hi => hk i (by simp [hi])) hjs]

theorem fold_evaluate (hg : ∀ l, g l.contour = g l) (h : n.evaluate d m = (.ok n', m')) :
    n'.fold g = n.fold g := by
  induction n using induct generalizing n' m m' with
  | h l ks ih =>
    have hk : ∀ k ∈ ks, ∀ m m' j, k.evaluate d m = (.ok j, m') → j.fold g = k.fold g :=
      fun k hk m m' j h => ih k hk h
    have hlabel : ∀ {l₁ l₂ : Label} {js : List Node}, l₂.contour = l₁.contour →
        js.map (fold g) = ks.map (fold g) → l₁.contour = l.contour →
        (mk l₂.markEvaluated js).fold g = (mk l ks).fold g := by
      intro l₁ l₂ js h₂ hjs h₁
      rw [fold_mk, fold_mk, hjs, ← hg, ← hg l, ← h₁, ← h₂]
      rfl
    rcases evaluate_cases d l ks with ⟨-, he⟩ | ⟨-, -, he⟩ | ⟨-, kind, scope, hf, he⟩ | ⟨-, -, he⟩
    · rw [he] at h
      cases h
      rfl
    · rw [he] at h
      cases h
    · rw [he] at h
      obtain ⟨⟨js, scope'⟩, t, hj, h⟩ := run_bind_ok.mp h
      obtain ⟨l₂, u, hl, h⟩ := run_bind_ok.mp h
      cases h
      obtain ⟨hkeys, m₁, hjs⟩ := inside_keys hj
      refine hlabel (Label.contour_evaluate hl) (fold_evaluateAll hk hjs) ?_
      simp [Label.contour, hf, Form.contour, hkeys]
    · rw [he] at h
      obtain ⟨js, t, hj, h⟩ := run_bind_ok.mp h
      obtain ⟨l₂, u, hl, h⟩ := run_bind_ok.mp h
      cases h
      exact hlabel (Label.contour_evaluate hl) (fold_evaluateAll hk hj) rfl

theorem sights_evaluate (h : n.evaluate d m = (.ok n', m')) (b : Bool) :
    n'.sights b = n.sights b := by
  have hg : ∀ l, sightStep l.contour = sightStep l := by
    intro l
    funext parts
    have hkeys : ∀ s : Scope, (({} : Scope).extend s.keys).keys = s.keys := fun s => by
      rw [Scope.keys_extend]
      rfl
    simp only [sightStep, Label.contour]
    cases l.form with
    | block kind s => simp only [Form.contour, hkeys]
    | _ => rfl
  rw [sights, fold_evaluate hg h, sights]

end Node

theorem Progress.Pass.sights {σ : Type} {d : Option (Dispatcher σ)} {m m' : Machine σ}
    {ns ns' : List Node} {vs : List Value} (h : Pass d m ns ns' vs m') (b : Bool) :
    ns'.map (Node.sights b) = ns.map (Node.sights b) := by
  induction h with
  | nil => rfl
  | skip _ _ ih => rw [List.map_cons, List.map_cons, ih]
  | step _ _ _ hn _ ih => rw [List.map_cons, List.map_cons, ih, Node.sights_evaluate hn]

end TokenShell
