import TokenShell.Proofs.Commands

/-! Binding: which global names a tree refers to, and that analysis binds to declared ones only. -/
namespace TokenShell

namespace Scopes

variable {s : Scope} {ss os : Scopes} {x : Bytes}

/-- The global scope declares the name. -/
def Knows (ss : Scopes) (x : Bytes) : Prop := ∃ s, ss.level? 0 = some s ∧ s.declares x = true

theorem knows_singleton : Knows [s] x ↔ s.declares x = true := by
  simp [Knows, level?]

theorem knows_cons (h : os ≠ []) : Knows (s :: os) x ↔ Knows os x := by
  simp [Knows, level?, h]

theorem level?_zero_concat (os : Scopes) (s : Scope) : level? 0 (os ++ [s]) = some s := by
  induction os with
  | nil => rfl
  | cons o os ih => simp [level?, ih]

theorem knows_of_lookup {b : Option Nat} (h : ss.lookup x b = some 0) : ss.Knows x :=
  lookup_level h

theorem Knows.extend (h : Knows (s :: os) x) (new : List Key) : Knows (s.extend new :: os) x := by
  by_cases ho : os = []
  · subst ho
    exact knows_singleton.mpr (Scope.declares_extend (knows_singleton.mp h) new)
  · exact (knows_cons ho).mpr ((knows_cons ho).mp h)

end Scopes

/-- The name of a variable that is bound to the global scope. -/
def Label.globalName? (l : Label) : Option Bytes :=
  match l.form with
  | .variable _ (some 0) => some l.token.value
  | _ => none

theorem Label.globalName?_draft (l : Label) : l.draft.globalName? = l.globalName? := by
  simp only [globalName?, draft]
  cases l.form with
  | «variable» d b => rcases b with _ | _ | _ <;> rfl
  | _ => rfl

namespace Node

variable {n m v : Node} {l : Label} {ks js : List Node} {renew : Bool} {s : Scope} {os ss : Scopes}
  {x : Bytes} {within : Option Nat}

/-- The global names a tree refers to. -/
def reaches (n : Node) : List Bytes :=
  n.fold fun l parts => l.globalName?.toList ++ parts.flatten

theorem reaches_mk (l : Label) (ks : List Node) :
    (mk l ks).reaches = l.globalName?.toList ++ ks.flatMap reaches := by
  rw [reaches, fold_mk, List.flatMap_def]
  rfl

theorem reaches_sequential : Sequential (fun _ => [])
    (fun l parts => l.globalName?.toList ++ parts.flatten) where
  draft l := by rw [Label.globalName?_draft]
  unary l x hl _ := by
    cases hf : l.form <;> simp_all [Label.isOperator, Label.globalName?]
  binary l x y hl _ := by
    cases hf : l.form <;> simp_all [Label.isOperator, Label.globalName?]

theorem reaches_setLabel (n : Node) {l : Label} (h : l.globalName? = n.label.globalName?) :
    (n.setLabel l).reaches = n.reaches := by
  obtain ⟨m, ks⟩ := n
  rw [setLabel_mk, reaches_mk, reaches_mk, h]
  rfl

theorem reaches_markAnalyzed (n : Node) : n.markAnalyzed.reaches = n.reaches :=
  reaches_setLabel n rfl

/-- A variable is bound to the global scope by its own name. -/
theorem reaches_bindTo {k : Nat} (h : x ∈ (v.bindTo k).reaches) :
    x ∈ v.reaches ∨ k = 0 ∧ x = v.label.token.value := by
  obtain ⟨l, ks⟩ := v
  unfold bindTo at h
  split at h
  · rw [setLabel_mk, reaches_mk] at h
    rcases List.mem_append.mp h with h | h
    · right
      cases k with
      | zero => exact ⟨rfl, by simpa [Label.globalName?] using h⟩
      | succ k => simp [Label.globalName?] at h
    · left
      rw [reaches_mk]
      exact List.mem_append_right _ h
  · exact Or.inl h

theorem reaches_resolve (h : v.resolve ss = (.ok m, os)) (hx : x ∈ m.reaches) :
    x ∈ v.reaches ∨ os.Knows x := by
  rw [resolve_run] at h
  split at h
  · next k hk =>
    cases h
    rcases reaches_bindTo hx with hx | ⟨rfl, rfl⟩
    · exact Or.inl hx
    · exact Or.inr (Scopes.knows_of_lookup hk)
  · cases h

theorem reaches_introduce {b : Option Nat} (h : v.introduce renew b (s :: os) = (.ok m, ss))
    (hx : x ∈ m.reaches) : x ∈ v.reaches ∨ ss.Knows x := by
  rw [introduce_run] at h
  split at h
  · cases h
  · split at h
    · split at h
      · next k hk =>
        cases h
        rcases reaches_bindTo hx with hx | ⟨rfl, rfl⟩
        · exact Or.inl hx
        · exact Or.inr (Scopes.knows_of_lookup hk)
      · cases h
    · simp only [Analysis.declare, Scope.declare?_eq] at h
      cases hd : s.declares v.label.token.value with
      | true =>
        rw [hd] at h
        cases h
      | false =>
        rw [hd] at h
        cases h
        rcases reaches_bindTo hx with hx | ⟨ho, rfl⟩
        · exact Or.inl hx
        · obtain rfl : os = [] := by simpa using ho
          refine Or.inr (Scopes.knows_singleton.mpr (Scope.declares_iff.mpr ?_))
          exact ⟨(v.label.token.value, v.label.serial), by simp, rfl⟩

theorem reaches_analyzeHead (h : n.analyzeHead renew (s :: os) = (.ok m, ss)) (hx : x ∈ m.reaches) :
    x ∈ n.reaches ∨ ss.Knows x := by
  rcases analyzeHead_cases renew n with ⟨b, -, he⟩ | ⟨l, v, ks, rfl, -, he⟩ | ⟨l, rfl, -, he⟩ |
    ⟨-, -, he⟩
  · rw [he] at h
    exact reaches_resolve h hx
  · rw [he] at h
    obtain ⟨u, t, hu, h⟩ := run_bind_ok.mp h
    cases h
    simp only [reaches_mk, List.flatMap_cons, List.mem_append] at hx ⊢
    rcases hx with hx | hx | hx
    · exact Or.inl (Or.inl hx)
    · rcases reaches_introduce hu hx with hx | hx
      · exact Or.inl (Or.inr (Or.inl hx))
      · exact Or.inr hx
    · exact Or.inl (Or.inr (Or.inr hx))
  · rw [he] at h
    cases h
  · rw [he] at h
    cases h
    exact Or.inl hx

theorem analyzeAll_scopes {ks : List Node} (renew : Bool) {r : Except Failure (List Node)}
    (h : analyzeAll renew ks (s :: os) = (r, ss)) : ∃ new, ss = s.extend new :: os := by
  obtain ⟨r', new, h1, -⟩ :=
    analyzeAll_declares (fun k _ b => analyze_declares b k) renew s s os os (.refl _)
    (List.forall₂_same.mpr fun _ _ => .refl _)
  rw [h] at h1
  exact ⟨new, (Prod.mk.inj h1).2⟩

theorem reaches_analyzeAll
    (hk : ∀ k ∈ ks, ∀ b s os ss m x, k.analyze b (s :: os) = (.ok m, ss) → x ∈ m.reaches →
      x ∈ k.reaches ∨ ss.Knows x)
    (h : analyzeAll renew ks (s :: os) = (.ok js, ss)) (hx : x ∈ js.flatMap reaches) :
    x ∈ ks.flatMap reaches ∨ ss.Knows x := by
  induction ks generalizing js s with
  | nil =>
    cases h
    exact Or.inl hx
  | cons k ks ih =>
    obtain ⟨j, js, t, hj, hjs, rfl⟩ := analyzeAll_cons_ok.mp h
    obtain ⟨r, new, h1, -⟩ := analyze_declares renew k s s os os (.refl _)
      (List.forall₂_same.mpr fun _ _ => .refl _)
    rw [hj] at h1
    obtain ⟨-, rfl⟩ := Prod.mk.inj h1
    simp only [List.flatMap_cons, List.mem_append] at hx ⊢
    rcases hx with hx | hx
    · rcases hk k (by simp) _ _ _ _ _ _ hj hx with hx | hx
      · exact Or.inl (Or.inl hx)
      · obtain ⟨new', rfl⟩ := analyzeAll_scopes renew hjs
        exact Or.inr (hx.extend new')
    · rcases ih (fun i hi => hk i (by simp [hi])) hjs hx with hx | hx
      · exact Or.inl (Or.inr hx)
      · exact Or.inr hx

theorem reaches_mk_analyzeAll {l' : Label} (hl : l'.globalName? = l.globalName?)
    (hk : ∀ k ∈ ks, ∀ b s os ss m x, k.analyze b (s :: os) = (.ok m, ss) → x ∈ m.reaches →
      x ∈ k.reaches ∨ ss.Knows x)
    (h : analyzeAll renew ks (s :: os) = (.ok js, ss)) (hx : x ∈ (mk l' js).reaches) :
    x ∈ (mk l ks).reaches ∨ ss.Knows x := by
  rw [reaches_mk, hl] at hx
  rw [reaches_mk]
  rcases List.mem_append.mp hx with hx | hx
  · exact Or.inl (List.mem_append_left _ hx)
  · exact (reaches_analyzeAll hk h hx).imp_left (List.mem_append_right _)

/-- A tree refers to no global name after analysis that it did not refer to before, unless the
global scope declares it then. -/
theorem reaches_analyze (h : n.analyze renew (s :: os) = (.ok m, ss)) (hx : x ∈ m.reaches) :
    x ∈ n.reaches ∨ ss.Knows x := by
  induction n using induct generalizing renew m s os ss x with
  | h l ks ih =>
    have hk : ∀ k ∈ ks, ∀ b s os ss m x, k.analyze b (s :: os) = (.ok m, ss) → x ∈ m.reaches →
        x ∈ k.reaches ∨ ss.Knows x := fun k hk b s os ss m x h hx => ih k hk h hx
    rcases analyze_cases renew l ks with ⟨-, he⟩ | ⟨-, -, he⟩ | ⟨-, kind, scope, hf, he⟩ |
      ⟨-, renews, -, he⟩ | ⟨-, -, -, he⟩
    · rw [he] at h
      cases h
      exact Or.inl hx
    · rw [he] at h
      cases h
    · rw [he] at h
      obtain ⟨⟨js, scope'⟩, t, hj, h⟩ := run_bind_ok.mp h
      cases h
      have hl : ({ l with form := .block kind scope' } : Label).globalName? = l.globalName? := by
        simp [Label.globalName?, hf]
      rw [reaches_markAnalyzed] at hx
      unfold Analysis.inside at hj
      rcases hw : analyzeAll false ks (scope :: s :: os) with ⟨_ | js', ss'⟩
      · rw [hw] at hj
        cases hj
      · obtain ⟨new, rfl⟩ := analyzeAll_scopes false hw
        rw [hw] at hj
        cases hj
        exact (reaches_mk_analyzeAll hl hk hw hx).imp_right (Scopes.knows_cons (by simp)).mp
    · rw [he] at h
      obtain ⟨js, t, hj, h⟩ := run_bind_ok.mp h
      cases h
      rw [reaches_markAnalyzed] at hx
      exact reaches_mk_analyzeAll rfl hk hj hx
    · rw [he] at h
      obtain ⟨js, t, hj, h⟩ := run_bind_ok.mp h
      obtain ⟨j, u, hh, h⟩ := run_bind_ok.mp h
      cases h
      obtain ⟨new, rfl⟩ := analyzeAll_scopes false hj
      rw [reaches_markAnalyzed] at hx
      rcases reaches_analyzeHead hh hx with hx | hx
      · refine (reaches_mk_analyzeAll rfl hk hj hx).imp_right fun hx => ?_
        obtain ⟨r', new', h1, -⟩ := analyzeHead_declares (e := True) renew l js (s.extend new)
          (s.extend new) os os (.refl _) (List.forall₂_same.mpr fun _ _ => .refl _)
        rw [hh] at h1
        obtain ⟨-, rfl⟩ := Prod.mk.inj h1
        exact hx.extend new'
      · exact Or.inr hx

theorem reaches_cascade (h : n.cascade within (s :: os) = (.ok m, ss)) (hx : x ∈ m.reaches) :
    x ∈ n.reaches ∨ ss.Knows x := by
  obtain ⟨k, hk, hm⟩ := cascade_ok h
  have he : k.reaches = n.reaches := fold_prepare reaches_sequential hk
  rw [← he]
  exact reaches_analyze hm hx

theorem reaches_push (n k : Node) : (n.push k).reaches = n.reaches ++ k.reaches := by
  obtain ⟨l, ks⟩ := n
  simp [push, reaches_mk]

theorem reaches_shut (n : Node) (time : Nat) : (n.shut time).reaches = n.reaches :=
  reaches_setLabel n rfl

theorem reaches_sprout (tok : Token) (serial : Nat) (k : Site) (m : Option Marker) :
    (sprout tok serial k m).reaches = [] := by
  have hf : (sprout tok serial k m).label.globalName? = none := by
    simp only [Label.globalName?, sprout, label_mk, Form.ofToken]
    cases tok.kind with
    | marker m => cases m <;> rfl
    | _ => rfl
  rw [sprout, label_mk] at hf
  rw [sprout, reaches_mk]
  exact List.append_eq_nil_iff.mpr ⟨by rw [Option.toList_eq_nil_iff]; exact hf, rfl⟩

theorem reaches_setScope (n : Node) (s : Scope) : (n.setScope s).reaches = n.reaches := by
  unfold setScope
  split
  · next hf =>
    refine reaches_setLabel n ?_
    rw [form] at hf
    simp [Label.globalName?, hf]
  · rfl

theorem reaches_passed {ks js : List Node}
    (h : List.Forall₂ (Flushed.Passed within os) ks js) (ho : os ≠ [])
    (hx : x ∈ js.flatMap reaches) : x ∈ ks.flatMap reaches ∨ os.Knows x := by
  induction h with
  | nil => exact Or.inl hx
  | cons hp _ ih =>
    simp only [List.flatMap_cons, List.mem_append] at hx ⊢
    rcases hx with hx | hx
    · rcases hp with rfl | ⟨s, new, hc⟩
      · exact Or.inl (Or.inl hx)
      · rcases reaches_cascade hc hx with hx | hx
        · exact Or.inl (Or.inl hx)
        · exact Or.inr ((Scopes.knows_cons ho).mp hx)
    · rcases ih hx with hx | hx
      · exact Or.inl (Or.inr hx)
      · exact Or.inr hx

end Node

namespace Tree

variable {t u : Tree} {tok : Token} {f : Option Failure} {n : Node} {path : List Node} {x : Bytes}
  {extra : List Key}

/-- The names that the ready fragments declare. -/
def readyNames (t : Tree) : List Bytes :=
  ((t.fragments.filter (·.isReady)).flatMap (Node.declarations false)).map Prod.fst

/-- Nothing refers to a global name that no ready fragment declares, and no name is declared
twice. -/
structure Bound (t : Tree) : Prop where
  fragments : ∀ n ∈ t.fragments, ∀ x ∈ n.reaches, x ∈ t.readyNames
  path : ∀ n ∈ t.path, ∀ x ∈ n.reaches, x ∈ t.readyNames
  distinct : t.globals.Distinct

theorem Grown.declares_iff (h : t.Grown [] {} []) :
    t.globals.declares x = true ↔ x ∈ t.readyNames := by
  obtain ⟨qs, ps, hf, hq, hp, hg, -⟩ := h.parts
  obtain ⟨hkept, -⟩ := filter_ready hq hp
  have hkeys : t.globals.keys = qs.flatMap (Node.declarations false) := by
    rw [hg, Scope.keys_extend]
    simp
  rw [Scope.declares_iff, hkeys, readyNames, hf, List.nil_append, hkept, List.mem_map]

theorem Bound.append (h : t.Bound) (hn : n.isReady = false)
    (hx : ∀ x ∈ n.reaches, x ∈ t.readyNames) : (t.append n).Bound := by
  unfold Tree.append
  split
  · next hp =>
    have hnames :
        ({ t with fragments := t.fragments ++ [n] } : Tree).readyNames = t.readyNames := by
      simp [readyNames, hn]
    refine ⟨?_, ?_, h.distinct⟩
    · intro m hm
      rw [hnames]
      rcases List.mem_append.mp hm with hm | hm
      · exact h.fragments m hm
      · obtain rfl := List.mem_singleton.mp hm
        exact hx
    · intro m hm
      rw [hnames]
      exact h.path m hm
  · next p path hp =>
    have hpath := h.path
    rw [hp] at hpath
    refine ⟨h.fragments, ?_, h.distinct⟩
    intro m hm
    rcases List.mem_cons.mp hm with rfl | hm
    · intro x hm
      rw [Node.reaches_push] at hm
      rcases List.mem_append.mp hm with hm | hm
      · exact hpath p (by simp) x hm
      · exact hx x hm
    · exact hpath m (by simp [hm])

theorem Bound.leave (h : t.Bound) (ho : ∀ n ∈ t.path, n.Opened) : t.leave.Bound := by
  unfold Tree.leave
  split
  · exact h
  · next n path hp =>
    have hpath := h.path
    rw [hp] at hpath ho
    have hrest : ({ t with path } : Tree).Bound :=
      ⟨h.fragments, fun m hm => hpath m (by simp [hm]), h.distinct⟩
    refine hrest.append (Node.raw_shut (ho n (by simp)).raw _).not_ready ?_
    rw [Node.reaches_shut]
    exact hpath n (by simp)

theorem scopes_tail {kind : BlockKind} {s : Scope} (hp : t.path = n :: path)
    (hn : n.form = .block kind s) : ∃ os, t.scopes.tail = os ++ [t.globals] := by
  have hs : n.scope? = some s := by rw [Node.scope?, hn]
  exact ⟨path.filterMap Node.scope?, by simp [scopes, hp, hs]⟩

theorem Bound.flush (h : t.Bound) (hg : t.Grown [] {} []) (hs : t.atScope = true) :
    t.flush.tree.Bound := by
  cases hp : t.path with
  | nil =>
    obtain ⟨qs, ps, hf, hq, hraw, -, -⟩ := hg.parts
    obtain ⟨qs', rest, extra, ev, fl, he, hq', hraw', -, -, hrest, hc⟩ :=
      flush_exact hp hf (by simpa using hq) hraw
    have hnames : t.flush.tree.readyNames =
        t.readyNames ++ (qs'.flatMap (Node.declarations false)).map Prod.fst := by
      have hready : ∀ q ∈ qs ++ qs', q.isReady = true := fun q hm =>
        (List.mem_append.mp hm).elim (hq q) (hq' q)
      simp only [readyNames, he, hf, List.nil_append, (filter_ready hq hraw).1,
        ← List.append_assoc, (filter_ready hready hraw').1, List.flatMap_append, List.map_append]
    have hold : ∀ n ∈ t.fragments, ∀ x ∈ n.reaches, x ∈ t.flush.tree.readyNames := by
      intro n hn x hx
      rw [hnames]
      exact List.mem_append_left _ (h.fragments n hn x hx)
    refine ⟨?_, by simp [he, hp], distinct_flush h.distinct⟩
    intro n hn x hx
    rw [he] at hn
    simp only [List.nil_append, List.mem_append] at hn
    rcases hn with hn | hn | hn
    · exact hold n (by simp [hf, hn]) x hx
    · obtain ⟨m, hm, s, new, hcas, hkeys⟩ := hc n hn
      rcases Node.reaches_cascade hcas hx with hx | hx
      · exact hold m (by simp [hf, hm]) x hx
      · obtain ⟨k, hk, rfl⟩ := Scope.declares_iff.mp (Scopes.knows_singleton.mp hx)
        have hk := hkeys k hk
        rw [Scope.keys_extend] at hk
        rw [hnames]
        rcases List.mem_append.mp hk with hk | hk
        · exact List.mem_append_left _ (hg.declares_iff.mp (Scope.declares_iff.mpr ⟨k, hk, rfl⟩))
        · exact List.mem_append_right _ (List.mem_map_of_mem hk)
    · exact hold n (by simp [hf, hrest n hn]) x hx
  | cons n path =>
    obtain ⟨js, scope, ev, fl, he, -, hj, -⟩ := flush_inner hp hp (.refl _)
    have hpath := h.path
    rw [hp] at hpath
    rw [he]
    refine ⟨h.fragments, ?_, h.distinct⟩
    intro m hm x hx
    rcases List.mem_cons.mp hm with rfl | hm
    · obtain ⟨l, ks⟩ := n
      have hb : ∃ kind s, l.form = .block kind s := by
        simp only [Tree.atScope, hp, Node.isBlock, Node.form_mk] at hs
        split at hs
        · next kind s hf => exact ⟨kind, s, hf⟩
        · cases hs
      obtain ⟨kind, s, hb⟩ := hb
      obtain ⟨os, hos⟩ := scopes_tail hp hb
      rw [Node.reaches_setScope, Node.reaches_mk, Node.label_mk] at hx
      have hown : ∀ x ∈ (Node.mk l ks).reaches, x ∈ t.readyNames := hpath _ (by simp)
      rw [Node.reaches_mk] at hown
      rcases List.mem_append.mp hx with hx | hx
      · exact hown x (List.mem_append_left _ hx)
      · rw [hos] at hj
        rcases Node.reaches_passed hj (by simp) hx with hx | ⟨s', hs', hd⟩
        · exact hown x (List.mem_append_right _ hx)
        · rw [Scopes.level?_zero_concat] at hs'
          obtain rfl := Option.some.inj hs'
          exact hg.declares_iff.mp hd
    · exact hpath m (by simp [hm]) x hx

theorem Bound.closing (h : t.Bound) (hg : t.Grown [] {} []) (hu : t.Closing tok u) : u.Bound := by
  rcases hg.closing_cases hu with rfl | ⟨hs, rfl, -⟩
  · exact h
  · exact h.flush hg hs

theorem Bound.place (h : t.Bound) (hg : t.Grown [] {} []) (hp : t.Placed tok u f) : u.Bound := by
  cases hp with
  | refused f _ => exact h
  | awaiting _ => exact ⟨h.fragments, h.path, h.distinct⟩
  | leaf k _ =>
    refine h.append (Node.raw_sprout _ _ _ _).not_ready ?_
    rw [Node.reaches_sprout]
    simp
  | entered k m _ =>
    refine ⟨h.fragments, ?_, h.distinct⟩
    intro n hn
    rcases List.mem_cons.mp hn with rfl | hn
    · rw [Node.reaches_sprout]
      simp
    · exact h.path n hn
  | flushed _ hs => exact h.flush hg hs
  | blocked f n path hp hc _ => exact h.flush hg (hg.atScope hp hc)
  | left v hv => exact (h.closing hg hv).leave (hg.closing (by simp) hv).opened
  | delivered v hv hs =>
    have hgv := hg.closing (by simp) hv
    exact ((h.closing hg hv).leave hgv.opened).flush hgv.leave hs

theorem Bound.reset (h : t.Bound) (ho : ∀ n ∈ t.path, n.Opened) : t.reset.tree.Bound := by
  have hf := reset_fragments ho
  have hnames : t.reset.tree.readyNames = t.readyNames := by
    simp [readyNames, hf]
  refine ⟨?_, by simp [Tree.reset], ?_⟩
  · intro n hn
    rw [hf] at hn
    rw [hnames]
    exact h.fragments n (List.mem_filter.mp hn).1
  · exact distinct_reset h.distinct

/-- What is true of every tree that nothing has been evaluated in. -/
structure Planned (t : Tree) : Prop where
  numbered : t.Numbered
  grown : t.Grown [] {} []
  bound : t.Bound
  fresh : t.Fresh
  pending : ∀ n ∈ t.fragments, n.flags.evaluated = false

theorem planned_fresh : ({} : Tree).Planned where
  numbered := sound_fresh.numbered
  grown := ⟨⟨[], [], rfl, by simp, by simp, rfl, by simp⟩, by simp⟩
  bound := ⟨by simp, by simp, List.nodup_nil⟩
  fresh := ⟨by simp, by simp⟩
  pending := by simp

theorem Planned.sound (h : t.Planned) : t.Sound :=
  h.grown.sound (by simp) (by simp) h.numbered (by simp [Scope.Covered]) h.bound.distinct

theorem pending_carries {more : List Nat} (hc : t.Carries u more)
    (h : ∀ n ∈ t.fragments, n.flags.evaluated = false) :
    ∀ n ∈ u.fragments, n.flags.evaluated = false := by
  intro n hn
  cases he : n.flags.evaluated with
  | false => rfl
  | true =>
    rw [h n (hc.evaluated n hn he)] at he
    cases he

theorem Grown.reset_fresh (h : t.Grown [] {} extra) (hn : t.Numbered) (hd : t.globals.Distinct) :
    t.reset.tree.Grown [] {} [] := by
  obtain ⟨qs, ps, -, hq, -, he⟩ := h.reset (by simp) (by simp) hn (by simp [Scope.Covered]) hd
  rw [he]
  exact ⟨⟨qs, [], by simp, hq, by simp, by simp, by simp⟩, by simp⟩

theorem Planned.reset (h : t.Planned) : t.reset.tree.Planned where
  numbered := h.sound.reset.numbered
  grown := h.grown.reset_fresh h.numbered h.bound.distinct
  bound := h.bound.reset h.grown.opened
  fresh := (carries_reset h.fresh h.grown.opened).fresh
  pending := pending_carries (carries_reset h.fresh h.grown.opened) h.pending

theorem Planned.insert (h : t.Planned) (tok : Token) : (t.insert tok).tree.Planned := by
  have hc := carries_insert h.fresh h.sound tok
  have hb : ({ t with clock := t.clock + 1 } : Tree).Bound :=
    ⟨h.bound.fragments, h.bound.path, h.bound.distinct⟩
  have hplaced := placed_place { t with clock := t.clock + 1 } tok
  obtain ⟨extra, hg', he⟩ := h.grown.tick.place (by simp) hplaced
  have hb' := hb.place h.grown.tick hplaced
  refine ⟨(h.sound.insert tok).numbered, ?_, ?_, hc.fresh, pending_carries hc h.pending⟩
  · rcases insert_tree t tok with ⟨hf, ht, -⟩ | ⟨f, -, ht, -⟩
    · rw [ht]
      rwa [he hf] at hg'
    · rw [ht]
      exact hg'.reset_fresh (h.numbered.place tok)
        (distinct_place (placed_place { t with clock := t.clock + 1 } tok) h.bound.distinct)
  · rcases insert_tree t tok with ⟨-, ht, -⟩ | ⟨f, -, ht, -⟩
    · rw [ht]
      exact hb'
    · rw [ht]
      exact hb'.reset hg'.opened

end Tree

end TokenShell
