import TokenShell.Proofs.Basic

/-! What the phases leave of a tree. Each is seen through folds: a fold that does not look at what a
phase changes has the same value before and after it. -/
namespace TokenShell

/-- A form as it is before completion, with what setup, analysis and evaluation have added. -/
def Form.sketch : Form → Form
  | .operator s _ _ => .operator s .unresolved []
  | .block _ scope => .block .undetermined scope
  | .variable _ b => .variable false b
  | .literal k _ => .literal k .nil
  | form => form

/-- A form as it is before setup, with what analysis and evaluation have added. -/
def Form.draft : Form → Form
  | .block _ scope => .block .undetermined { scope with self := 0, outer := none }
  | form => form.sketch

/-- A form as it was inserted. -/
def Form.origin : Form → Form
  | .operator s _ _ => .operator s .unresolved []
  | .block _ _ => .block .undetermined {}
  | .command _ => .command false
  | .variable _ _ => .variable false none
  | .literal k _ => .literal k .nil
  | form => form

namespace Label

/-- What setup, completion and reordering leave alone. -/
def draft (l : Label) : Label :=
  { l with
    form := l.form.draft
    flags := { analyzed := l.flags.analyzed, evaluated := l.flags.evaluated }
    parent := none
    block := none }

/-- What completion leaves alone, and reordering but for parents. -/
def sketch (l : Label) : Label :=
  { l with
    form := l.form.sketch
    flags := { l.flags with complete := false, reordered := false } }

/-- What the phases up to analysis leave alone. -/
def plan (l : Label) : Label :=
  { l with
    form := l.form.origin
    flags := { evaluated := l.flags.evaluated }
    parent := none
    block := none }

/-- What analysis leaves alone. -/
def scheme (l : Label) : Label :=
  { l with form := l.form.origin, flags := { l.flags with analyzed := false } }

/-- What no phase changes. -/
def origin (l : Label) : Label :=
  { token := l.token, serial := l.serial, form := l.form.origin, opener := l.opener,
    closedAt := l.closedAt }

theorem draft_sketch (l : Label) : l.sketch.draft = l.draft := by
  simp only [sketch, draft]
  cases l.form <;> rfl

theorem plan_draft (l : Label) : l.draft.plan = l.plan := by
  simp only [draft, plan]
  cases l.form <;> rfl

theorem plan_scheme (l : Label) : l.scheme.plan = l.plan := by
  simp only [scheme, plan]
  cases l.form <;> rfl

theorem origin_plan (l : Label) : l.plan.origin = l.origin := by
  simp only [plan, origin]
  cases l.form <;> rfl

theorem origin_scheme (l : Label) : l.scheme.origin = l.origin := by
  rw [← origin_plan, plan_scheme, origin_plan]

theorem draft_setUp {l m : Label} {within : Option Nat} (h : l.setUp within = .ok m) :
    m.draft = l.draft := by
  unfold setUp at h
  split at h
  · cases h
    rfl
  · cases within with
    | none => cases h
    | some k =>
      cases h
      simp only [draft]
      cases l.form <;> rfl

theorem sketch_bind (l : Label) (ks : List Node) : (Operand.bind l ks).sketch = l.sketch := by
  unfold Operand.bind
  split
  · next h => simp [sketch, h, Form.sketch]
  · rfl

/-- What does not look at what setup changes either does not look at what completion changes. -/
theorem sketch_of_draft {α : Type} {g : Label → α} (hg : ∀ l, g l.draft = g l) (l : Label) :
    g l.sketch = g l := by
  rw [← hg, draft_sketch, hg]

theorem scheme_of_plan {α : Type} {g : Label → α} (hg : ∀ l, g l.plan = g l) (l : Label) :
    g l.scheme = g l := by
  rw [← hg, plan_scheme, hg]

end Label

namespace Node

variable {α : Type} {g : Label → List α → α} {n m : Node} {ks js : List Node}
  {within : Option Nat} {inside : Bool}

theorem map_eq_of_forall₂ {R : Node → Node → Prop} {f : Node → α} (h : List.Forall₂ R ks js)
    (hf : ∀ k ∈ ks, ∀ j, R k j → f j = f k) : js.map f = ks.map f := by
  induction h with
  | nil => rfl
  | cons hr _ ih =>
    rw [List.map_cons, List.map_cons, hf _ (by simp) _ hr, ih fun k hk => hf k (by simp [hk])]

theorem setUpAll_eq_mapM (within : Option Nat) (ks : List Node) :
    setUpAll within ks = ks.mapM (setUp within) := by
  induction ks with
  | nil => rfl
  | cons k ks ih => simp only [setUpAll, ih, List.mapM_cons]

theorem completeAll_eq_mapM (inside : Bool) (ks : List Node) :
    completeAll inside ks = ks.mapM (complete inside) := by
  induction ks with
  | nil => rfl
  | cons k ks ih => simp only [completeAll, ih, List.mapM_cons]

theorem markReorderedAll_eq_mapM (ks : List Node) :
    markReorderedAll ks = ks.mapM markReordered := by
  induction ks with
  | nil => rfl
  | cons k ks ih => simp only [markReorderedAll, ih, List.mapM_cons]

theorem fold_setUp (hg : ∀ l, g l.draft = g l) (h : n.setUp within = .ok m) :
    m.fold g = n.fold g := by
  induction n using induct generalizing within m with
  | h l ks ih =>
    rw [setUp] at h
    obtain ⟨l', hl, h⟩ := except_bind_ok.mp h
    obtain ⟨js, hjs, h⟩ := except_bind_ok.mp h
    cases h
    rw [setUpAll_eq_mapM] at hjs
    rw [fold_mk, fold_mk, map_eq_of_forall₂ (mapM_ok hjs) fun k hk j hj => ih k hk hj,
      ← hg, Label.draft_setUp hl, hg]

theorem declared?_ok (hg : ∀ l, g l.sketch = g l) (h : n.declared? = some m) :
    m.fold g = n.fold g := by
  obtain ⟨l, ks⟩ := n
  rw [declared?] at h
  split at h
  · next d b hf =>
    cases h
    have hd : ({ l with form := .variable true b } : Label).sketch = l.sketch := by
      simp only [form_mk] at hf
      simp [Label.sketch, hf, Form.sketch]
    rw [setLabel_mk, fold_mk, fold_mk, ← hg, label_mk, hd, hg]
  · cases h

theorem completeInitializer_ok {l : Label} (hg : ∀ l, g l.sketch = g l)
    (h : l.completeInitializer inside ks = .ok js) : js.map (fold g) = ks.map (fold g) := by
  unfold Label.completeInitializer at h
  split at h
  · cases h
  · split at h
    · split at h
      · next hv =>
        cases h
        simp [declared?_ok hg hv]
      · cases h
    · split at h
      · next hv =>
        cases h
        simp [declared?_ok hg hv]
      · cases h
    · cases h
    · cases h

/-- The shape rule may refine the form of a node, and makes the variable of an initializer
declare. -/
theorem checkShape_ok {l : Label} {form : Form} (hg : ∀ l, g l.sketch = g l)
    (h : l.checkShape inside ks = .ok (form, js)) :
    form.sketch = l.form.sketch ∧ js.map (fold g) = ks.map (fold g) := by
  rw [Label.checkShape] at h
  split at h
  · next hf =>
    obtain ⟨a, -, h⟩ := except_bind_ok.mp h
    cases h
    simp [hf, Form.sketch]
  · next hf =>
    cases h
    simp [hf, Form.sketch]
  · split at h <;> cases h
    exact ⟨rfl, rfl⟩
  · split at h
    · cases h
    · split at h <;> cases h
      exact ⟨rfl, rfl⟩
  · split at h <;> cases h
    exact ⟨rfl, rfl⟩
  · split at h
    · cases h
    · split at h <;> cases h
      exact ⟨rfl, rfl⟩
  · next hf =>
    split at h
    · cases h
    · obtain ⟨v, -, h⟩ := except_bind_ok.mp h
      cases h
      simp [hf, Form.sketch]
  · split at h
    · cases h
    · split at h <;> cases h
      exact ⟨rfl, rfl⟩
  · obtain ⟨js, hi, h⟩ := except_bind_ok.mp h
    cases h
    exact ⟨rfl, completeInitializer_ok hg hi⟩

/-- A node is complete already, or it gets its children and its form from the shape rule. -/
theorem complete_ok {l : Label} (h : (mk l ks).complete inside = .ok m) :
    l.flags.complete = true ∧ m = mk l ks ∨
      ∃ js form is, ks.mapM (complete l.isDeclaration) = .ok js ∧
        l.checkShape inside js = .ok (form, is) ∧
        m = mk { l with form, flags := { l.flags with complete := true } } is := by
  rw [complete] at h
  split at h
  · next hc =>
    cases h
    exact Or.inl ⟨hc, rfl⟩
  · split at h
    · cases h
    · obtain ⟨js, hjs, h⟩ := except_bind_ok.mp h
      obtain ⟨⟨form, is⟩, hs, h⟩ := except_bind_ok.mp h
      cases h
      rw [completeAll_eq_mapM] at hjs
      exact Or.inr ⟨js, form, is, hjs, hs, rfl⟩

theorem fold_complete (hg : ∀ l, g l.sketch = g l) (h : n.complete inside = .ok m) :
    m.fold g = n.fold g := by
  induction n using induct generalizing inside m with
  | h l ks ih =>
    rcases complete_ok h with ⟨-, rfl⟩ | ⟨js, form, is, hjs, hs, rfl⟩
    · rfl
    · obtain ⟨hf, hm⟩ := checkShape_ok hg hs
      have hd : ({ l with form, flags := { l.flags with complete := true } } : Label).sketch =
          l.sketch := by
        simp [Label.sketch, hf]
      rw [fold_mk, fold_mk, hm, map_eq_of_forall₂ (mapM_ok hjs) fun k hk j hj => ih k hk hj,
        ← hg, hd, hg]

theorem fold_markReordered
    (hg : ∀ l : Label, g { l with flags := { l.flags with reordered := true } } = g l)
    (h : n.markReordered = .ok m) : m.fold g = n.fold g := by
  induction n using induct generalizing m with
  | h l ks ih =>
    rw [markReordered] at h
    split at h
    · cases h
    · obtain ⟨js, hjs, h⟩ := except_bind_ok.mp h
      cases h
      rw [markReorderedAll_eq_mapM] at hjs
      rw [fold_mk, fold_mk, map_eq_of_forall₂ (mapM_ok hjs) fun k hk j hj => ih k hk hj, hg]

/-! Analysis and evaluation keep what was inserted. -/

section Analysis

variable {renew : Bool} {s s' : Scopes}

theorem resolve_run (v : Node) (s : Scopes) :
    v.resolve s = match s.lookup v.label.token.value v.label.block with
      | some k => (.ok (v.bindTo k), s)
      | none => (v.fail (.undeclared v.label.token.value), s) := by
  unfold resolve
  rw [run_bind]
  simp only [Analysis.scopes]
  cases s.lookup v.label.token.value v.label.block <;> rfl

theorem introduce_run (renew : Bool) (b : Option Nat) (v : Node) (s : Scopes) :
    v.introduce renew b s =
      if !v.isVariable then (v.fail (.absent "variable"), s)
      else if renew then
        match s.lookup v.label.token.value b with
        | some k => (.ok (v.bindTo k), s)
        | none => (v.fail (.renewUndeclared v.label.token.value), s)
      else
        match Analysis.declare v s with
        | (.ok k, s) => (.ok (v.bindTo k), s)
        | (.error f, s) => (.error f, s) := by
  unfold introduce
  split
  · rfl
  · split
    · rw [run_bind]
      simp only [Analysis.scopes]
      cases s.lookup v.label.token.value b <;> rfl
    · rw [run_bind]
      rcases Analysis.declare v s with ⟨_ | _, _⟩ <;> rfl

theorem fold_bindTo (hg : ∀ l, g l.scheme = g l) (v : Node) (k : Nat) :
    (v.bindTo k).fold g = v.fold g := by
  obtain ⟨l, ks⟩ := v
  unfold bindTo
  split
  · next d b hf =>
    have ho : ({ l with form := .variable d (some k) } : Label).scheme = l.scheme := by
      simp only [form_mk] at hf
      simp [Label.scheme, hf, Form.origin]
    rw [setLabel_mk, fold_mk, fold_mk, label_mk, ← hg, ho, hg]
  · rfl

theorem fold_markAnalyzed (hg : ∀ l, g l.scheme = g l) (n : Node) :
    n.markAnalyzed.fold g = n.fold g := by
  obtain ⟨l, ks⟩ := n
  rw [markAnalyzed, setLabel_mk, fold_mk, fold_mk, ← hg, ← hg l]
  rfl

theorem introduce_ok {v : Node} {b : Option Nat} (h : v.introduce renew b s = (.ok m, s')) :
    ∃ k, m = v.bindTo k := by
  rw [introduce_run] at h
  split at h
  · cases h
  · split at h
    · split at h
      · cases h
        exact ⟨_, rfl⟩
      · cases h
    · split at h
      · cases h
        exact ⟨_, rfl⟩
      · cases h

theorem analyzeHead_cases (renew : Bool) (n : Node) :
    (∃ b, n.form = .variable false b ∧ n.analyzeHead renew = n.resolve) ∨
    (∃ l v ks, n = mk l (v :: ks) ∧ l.form = .initializer ∧
      n.analyzeHead renew = do return mk l ((← v.introduce renew l.block) :: ks)) ∨
    (∃ l, n = mk l [] ∧ l.form = .initializer ∧
      n.analyzeHead renew = Analysis.fail n (.absent "variable")) ∨
    ((∀ b, n.form ≠ .variable false b) ∧ n.form ≠ .initializer ∧
      n.analyzeHead renew = return n) := by
  unfold analyzeHead
  split
  · next b hf => exact Or.inl ⟨b, hf, rfl⟩
  · next hf =>
    split
    · exact Or.inr (Or.inl ⟨_, _, _, rfl, hf, rfl⟩)
    · exact Or.inr (Or.inr (Or.inl ⟨_, rfl, hf, rfl⟩))
  · next hv hi => exact Or.inr (Or.inr (Or.inr ⟨hv, hi, rfl⟩))

/-- Analysis has a rule for blocks, one for declarations, and one for all else. -/
theorem analyze_cases (renew : Bool) (l : Label) (ks : List Node) :
    (l.flags.analyzed = true ∧ (mk l ks).analyze renew = return mk l ks) ∨
    (l.flags.analyzed = false ∧ l.flags.reordered = false ∧
      (mk l ks).analyze renew = Analysis.fail (mk l ks) .analyzeBeforeReorder) ∨
    (l.flags.analyzed = false ∧ ∃ kind scope, l.form = .block kind scope ∧
      (mk l ks).analyze renew = do
        let (ks, scope) ← Analysis.inside scope (analyzeAll false ks)
        return (mk { l with form := .block kind scope } ks).markAnalyzed) ∨
    (l.flags.analyzed = false ∧ ∃ renews, l.form = .declaration renews ∧
      (mk l ks).analyze renew = do
        let ks ← analyzeAll renews ks
        return (mk l ks).markAnalyzed) ∨
    (l.flags.analyzed = false ∧ (∀ kind scope, l.form ≠ .block kind scope) ∧
      (∀ renews, l.form ≠ .declaration renews) ∧
      (mk l ks).analyze renew = do
        let ks ← analyzeAll false ks
        return (← (mk l ks).analyzeHead renew).markAnalyzed) := by
  rw [analyze]
  split
  · next ha => exact Or.inl ⟨ha, rfl⟩
  · next ha =>
    have ha : l.flags.analyzed = false := by simpa using ha
    split
    · next hr => exact Or.inr (Or.inl ⟨ha, by simpa using hr, rfl⟩)
    · split
      · next kind scope hf => exact Or.inr (Or.inr (Or.inl ⟨ha, kind, scope, hf, rfl⟩))
      · next renews hf => exact Or.inr (Or.inr (Or.inr (Or.inl ⟨ha, renews, hf, rfl⟩)))
      · next hb hd => exact Or.inr (Or.inr (Or.inr (Or.inr ⟨ha, hb, hd, rfl⟩)))

theorem fold_analyzeHead (hg : ∀ l, g l.scheme = g l) (h : n.analyzeHead renew s = (.ok m, s')) :
    m.fold g = n.fold g := by
  rcases analyzeHead_cases renew n with ⟨b, -, he⟩ | ⟨l, v, ks, rfl, -, he⟩ | ⟨l, rfl, -, he⟩ |
    ⟨-, -, he⟩
  · rw [he, resolve_run] at h
    split at h
    · cases h
      exact fold_bindTo hg n _
    · cases h
  · rw [he] at h
    obtain ⟨u, t, hu, h⟩ := run_bind_ok.mp h
    cases h
    obtain ⟨k, rfl⟩ := introduce_ok hu
    rw [fold_mk, fold_mk, List.map_cons, List.map_cons, fold_bindTo hg]
  · rw [he] at h
    cases h
  · rw [he] at h
    cases h
    rfl

theorem fold_analyzeAll
    (hk : ∀ k ∈ ks, ∀ b s s' m, k.analyze b s = (.ok m, s') → m.fold g = k.fold g)
    (h : analyzeAll renew ks s = (.ok js, s')) : js.map (fold g) = ks.map (fold g) := by
  induction ks generalizing js s with
  | nil =>
    cases h
    rfl
  | cons k ks ih =>
    obtain ⟨j, js, t, hj, hjs, rfl⟩ := analyzeAll_cons_ok.mp h
    rw [List.map_cons, List.map_cons, hk k (by simp) _ _ _ _ hj,
      ih (fun i hi => hk i (by simp [hi])) hjs]

theorem inside_ok {α : Type} {inner scope : Scope} {work : Analysis α} {a : α}
    (h : Analysis.inside inner work s = (.ok (a, scope), s')) :
    ∃ t, work (inner :: s) = (.ok a, t) := by
  unfold Analysis.inside at h
  split at h
  · next hw =>
    cases h
    exact ⟨_, hw⟩
  · next hw =>
    cases h
    exact ⟨_, hw⟩
  · cases h

theorem fold_analyze (hg : ∀ l, g l.scheme = g l) (h : n.analyze renew s = (.ok m, s')) :
    m.fold g = n.fold g := by
  induction n using induct generalizing renew m s s' with
  | h l ks ih =>
    have hk : ∀ k ∈ ks, ∀ b s s' m, k.analyze b s = (.ok m, s') → m.fold g = k.fold g :=
      fun k hk b s s' m h => ih k hk h
    rcases analyze_cases renew l ks with ⟨-, he⟩ | ⟨-, -, he⟩ | ⟨-, kind, scope, hf, he⟩ |
      ⟨-, renews, -, he⟩ | ⟨-, -, -, he⟩
    · rw [he] at h
      cases h
      rfl
    · rw [he] at h
      cases h
    · rw [he] at h
      obtain ⟨⟨js, scope'⟩, t, hj, h⟩ := run_bind_ok.mp h
      cases h
      obtain ⟨u, hj⟩ := inside_ok hj
      have ho : ({ l with form := .block kind scope' } : Label).scheme = l.scheme := by
        simp [Label.scheme, hf, Form.origin]
      rw [fold_markAnalyzed hg, fold_mk, fold_mk, fold_analyzeAll hk hj, ← hg, ho, hg]
    · rw [he] at h
      obtain ⟨js, t, hj, h⟩ := run_bind_ok.mp h
      cases h
      rw [fold_markAnalyzed hg, fold_mk, fold_mk, fold_analyzeAll hk hj]
    · rw [he] at h
      obtain ⟨js, t, hj, h⟩ := run_bind_ok.mp h
      obtain ⟨j, u, hh, h⟩ := run_bind_ok.mp h
      cases h
      rw [fold_markAnalyzed hg, fold_analyzeHead hg hh, fold_mk, fold_mk, fold_analyzeAll hk hj]

end Analysis

end Node

end TokenShell
