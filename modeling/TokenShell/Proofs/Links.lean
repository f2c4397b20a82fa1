import TokenShell.Proofs.Places

/-! Links: every node names its parent and the scope it belongs to, every block the scope around it,
and the scopes that these links lead to from a block are those of the blocks around it. -/
namespace TokenShell

theorem Token.kind_of_block {tok : Token} {kind : BlockKind} {s : Scope}
    (h : Form.ofToken tok = .block kind s) : tok.kind = .marker .openBlock ∧ s = {} := by
  rw [Form.ofToken] at h
  split at h <;> cases h
  exact ⟨‹_›, rfl⟩

/-- A new block has an empty scope with the links of its place. -/
theorem Node.form_sprout {tok : Token} {serial : Nat} {site : Node.Site} {m : Option Marker}
    {kind : BlockKind} {s : Scope} (h : (Node.sprout tok serial site m).form = .block kind s) :
    tok.kind = .marker .openBlock ∧ s = { self := serial, outer := some site.block } := by
  rw [Node.sprout, Node.form_mk] at h
  dsimp only at h
  cases hf : Form.ofToken tok with
  | block k u =>
    obtain ⟨hk, rfl⟩ := Token.kind_of_block hf
    rw [hf] at h
    cases h
    exact ⟨hk, rfl⟩
  | _ => rw [hf] at h; cases h

namespace Label

variable {l m : Label} {b : Nat}

/-- The scope of a block. -/
def scope? (l : Label) : Option Scope :=
  match l.form with
  | .block _ s => some s
  | _ => none

theorem scope?_isSome (l : Label) : l.scope?.isSome = l.isBlock := by
  unfold scope? isBlock
  cases l.form <;> rfl

/-- A label that belongs to the scope with a given number. The scope of a block is linked to it, and
stores values for its own names only. -/
structure Housed (b : Nat) (l : Label) : Prop where
  numbered : 0 < l.serial
  block : l.block = some b
  scope : ∀ s, l.scope? = some s → s.self = l.serial ∧ s.outer = some b ∧ s.Covered

/-- What the nodes below a node are linked to. -/
def site (b : Nat) (l : Label) : Node.Site := ⟨l.serial, if l.isBlock then l.serial else b⟩

theorem Housed.innerBlock (h : l.Housed b) : l.innerBlock = some (l.site b).block := by
  unfold Label.innerBlock site isBlock
  rw [h.block]
  cases l.form <;> rfl

/-- Labels with the same number and links. -/
structure Alongside (l m : Label) : Prop where
  serial : m.serial = l.serial
  parent : m.parent = l.parent
  block : m.block = l.block
  isBlock : m.isBlock = l.isBlock
  scope : ∀ u, m.scope? = some u → ∃ s, l.scope? = some s ∧ u.self = s.self ∧ u.outer = s.outer ∧
    (s.Covered → u.Covered)

/-- What leaves the form alone leaves its scope alone. -/
theorem alongside_of_form (hs : m.serial = l.serial) (hp : m.parent = l.parent)
    (hb : m.block = l.block) (hf : m.form = l.form) : l.Alongside m := by
  refine ⟨hs, hp, hb, by rw [isBlock, isBlock, hf], fun u hu => ⟨u, ?_, rfl, rfl, id⟩⟩
  rwa [scope?, hf] at hu

theorem Alongside.site (h : l.Alongside m) (b : Nat) : m.site b = l.site b := by
  rw [Label.site, Label.site, h.isBlock, h.serial]

theorem Alongside.housed (h : l.Alongside m) (hl : l.Housed b) : m.Housed b := by
  refine ⟨h.serial ▸ hl.numbered, h.block.trans hl.block, fun u hu => ?_⟩
  obtain ⟨s, hs, hself, houter, hcovered⟩ := h.scope u hu
  obtain ⟨hs₁, hs₂, hs₃⟩ := hl.scope s hs
  exact ⟨by rw [hself, hs₁, h.serial], houter.trans hs₂, hcovered hs₃⟩

theorem scope?_sketch (l : Label) : l.sketch.scope? = l.scope? := by
  simp only [scope?, sketch]
  cases l.form <;> rfl

theorem scope?_outline (l : Label) : l.outline.scope? = l.scope?.map Scope.outline := by
  simp only [scope?, outline]
  cases l.form <;> rfl

theorem isBlock_sketch (l : Label) : l.sketch.isBlock = l.isBlock := by
  rw [← scope?_isSome, scope?_sketch, scope?_isSome]

theorem isBlock_outline (l : Label) : l.outline.isBlock = l.isBlock := by
  rw [← scope?_isSome, scope?_outline, Option.isSome_map, scope?_isSome]

theorem alongside_sketch (l : Label) : l.Alongside l.sketch ∧ l.sketch.Alongside l := by
  refine ⟨⟨rfl, rfl, rfl, l.isBlock_sketch, fun u hu => ⟨u, ?_, rfl, rfl, id⟩⟩,
    ⟨rfl, rfl, rfl, l.isBlock_sketch.symm, fun u hu => ⟨u, ?_, rfl, rfl, id⟩⟩⟩
  · rwa [scope?_sketch] at hu
  · rwa [scope?_sketch]

theorem alongside_outline (l : Label) : l.Alongside l.outline ∧ l.outline.Alongside l := by
  refine ⟨⟨rfl, rfl, rfl, l.isBlock_outline, fun u hu => ?_⟩,
    ⟨rfl, rfl, rfl, l.isBlock_outline.symm, fun u hu => ?_⟩⟩
  · rw [scope?_outline] at hu
    obtain ⟨s, hs, rfl⟩ := Option.map_eq_some_iff.mp hu
    exact ⟨s, hs, rfl, rfl, Scope.covered_outline.mpr⟩
  · exact ⟨u.outline, by rw [scope?_outline, hu]; rfl, rfl, rfl, Scope.covered_outline.mp⟩

theorem alongside_bind (l : Label) (ks : List Node) : l.Alongside (Operand.bind l ks) := by
  unfold Operand.bind
  split
  · next hf => exact ⟨rfl, rfl, rfl, by simp [isBlock, hf], by simp [scope?]⟩
  · exact alongside_of_form rfl rfl rfl rfl

theorem site_operator (h : l.isOperator = true) (b : Nat) : l.site b = ⟨l.serial, b⟩ := by
  simp [site, not_isBlock_of_operator h]

end Label

namespace Node

variable {n m k : Node} {l : Label} {ks js : List Node} {b : Nat} {site : Site}

mutual

/-- A tree in the scope with a given number: all its nodes but the uppermost one name their parents,
and all of them the scope they belong to. -/
def Berthed (b : Nat) : Node → Prop
  | mk l ks => l.Housed b ∧ MooredAll (l.site b) ks

def MooredAll (site : Site) : List Node → Prop
  | [] => True
  | k :: ks => (k.label.parent = some site.parent ∧ k.Berthed site.block) ∧ MooredAll site ks

end

/-- A tree all of whose nodes name their parents and the scope they belong to. -/
def Moored (site : Site) (n : Node) : Prop :=
  n.label.parent = some site.parent ∧ n.Berthed site.block

theorem berthed_mk : (mk l ks).Berthed b ↔ l.Housed b ∧ ∀ k ∈ ks, k.Moored (l.site b) := by
  have hall : ∀ (site : Site) (ks : List Node), MooredAll site ks ↔ ∀ k ∈ ks, k.Moored site := by
    intro site ks
    induction ks with
    | nil => simp [MooredAll]
    | cons k ks ih => rw [MooredAll, ih, List.forall_mem_cons, Moored]
  rw [Berthed, hall]

theorem Berthed.housed (h : n.Berthed b) : n.label.Housed b := by
  obtain ⟨l, ks⟩ := n
  exact (berthed_mk.mp h).1

theorem Berthed.kids (h : n.Berthed b) : ∀ k ∈ n.kids, k.Moored (n.label.site b) := by
  obtain ⟨l, ks⟩ := n
  exact (berthed_mk.mp h).2

theorem Berthed.relabel {l' : Label} (h : (mk l ks).Berthed b) (hl : l.Alongside l') :
    (mk l' ks).Berthed b := by
  rw [berthed_mk] at h ⊢
  rw [hl.site]
  exact ⟨hl.housed h.1, h.2⟩

theorem Berthed.adopt (h : n.Berthed b) (p : Nat) : (n.adopt (some p)).Moored ⟨p, b⟩ := by
  obtain ⟨l, ks⟩ := n
  obtain ⟨hl, hk⟩ := berthed_mk.mp h
  exact ⟨rfl, berthed_mk.mpr ⟨⟨hl.numbered, hl.block, hl.scope⟩, hk⟩⟩

theorem Moored.relabel {l' : Label} (h : (mk l ks).Moored site) (hl : l.Alongside l') :
    (mk l' ks).Moored site :=
  ⟨hl.parent.trans h.1, h.2.relabel hl⟩

theorem Moored.push (h : n.Moored site) (hk : k.Moored (n.label.site site.block)) :
    (n.push k).Moored site := by
  obtain ⟨l, ks⟩ := n
  obtain ⟨hl, hks⟩ := berthed_mk.mp h.2
  refine ⟨h.1, berthed_mk.mpr ⟨hl, fun j hj => ?_⟩⟩
  rcases List.mem_append.mp hj with hj | hj
  · exact hks j hj
  · obtain rfl := List.mem_singleton.mp hj
    exact hk

/-- Links do not depend on anything else in the labels. -/
theorem moored_map {f : Label → Label} (hf : ∀ l : Label, l.Alongside (f l) ∧ (f l).Alongside l) :
    (n.fold fun l ks => mk (f l) ks).Moored site ↔ n.Moored site := by
  induction n using induct generalizing site with
  | h l ks ih =>
    rw [fold_mk, Moored, Moored, label_mk, label_mk, (hf l).1.parent, berthed_mk, berthed_mk,
      (hf l).1.site]
    refine and_congr_right fun _ => and_congr ⟨(hf l).2.housed, (hf l).1.housed⟩ ?_
    simp only [List.mem_map, forall_exists_index, and_imp, forall_apply_eq_imp_iff₂]
    exact forall₂_congr fun k hk => ih k hk

theorem moored_outline : n.outline.Moored site ↔ n.Moored site :=
  moored_map Label.alongside_outline

theorem moored_sketch (h : n.Moored site) (he : (m.fold fun l ks => mk l.sketch ks) =
    n.fold fun l ks => mk l.sketch ks) : m.Moored site := by
  rw [← moored_map Label.alongside_sketch, he, moored_map Label.alongside_sketch]
  exact h

theorem Moored.complete {inside : Bool} (h : n.Moored site) (hm : n.complete inside = .ok m) :
    m.Moored site := by
  refine moored_sketch h (fold_complete (fun l => ?_) hm)
  have hs : l.sketch.sketch = l.sketch := by
    simp only [Label.sketch]
    cases l.form <;> rfl
  rw [hs]

theorem Moored.markReordered (h : n.Moored site) (hm : n.markReordered = .ok m) :
    m.Moored site :=
  moored_sketch h (fold_markReordered (fun _ => rfl) hm)

end Node

/-! Reordering gives every node that it moves a new parent. -/

namespace Operand

open Node

variable {n m x : Node} {c t : Chain Operand} {b p : Nat} {is : List (Chain.Item Operand)}

/-- An item of a chain in the scope with a given number. -/
def Berths (b : Nat) : Chain.Item Operand → Prop
  | .operand a => ∀ x, a.settled = .ok x → x.Berthed b
  | .unary op _ | .binary op _ => op.isOperator = true ∧ op.Housed b

theorem berthed_seat {op : Label} {ks : List Node} (ho : op.isOperator = true) (hl : op.Housed b)
    (hk : ∀ k ∈ ks, k.Berthed b) : (seat op ks).Berthed b := by
  refine Berthed.relabel (berthed_mk.mpr ⟨hl, fun k hm => ?_⟩) (op.alongside_bind ks)
  obtain ⟨j, hj, rfl⟩ := List.mem_map.mp hm
  rw [Label.site_operator ho]
  exact (hk j hj).adopt op.serial

theorem settle_berthed (hi : ∀ i ∈ c.inOrder, Berths b i) (h : settle c = .ok m) :
    m.Berthed b := by
  induction c generalizing m with
  | operand a => exact hi (.operand a) (by simp [Chain.inOrder]) m h
  | unary op x ih =>
    obtain ⟨k, hk, h⟩ := except_bind_ok.mp h
    cases h
    obtain ⟨ho, hl⟩ : Berths b (.unary op op.rank) := hi _ (by simp [Chain.inOrder])
    refine berthed_seat ho hl ?_
    simpa using ih (fun i hm => hi i (by simp [Chain.inOrder, hm])) hk
  | binary op x y ihx ihy =>
    obtain ⟨j, hj, h⟩ := except_bind_ok.mp h
    obtain ⟨k, hk, h⟩ := except_bind_ok.mp h
    cases h
    obtain ⟨ho, hl⟩ : Berths b (.binary op op.rank) := hi _ (by simp [Chain.inOrder])
    refine berthed_seat ho hl ?_
    simpa using ⟨ihx (fun i hm => hi i (by simp [Chain.inOrder, hm])) hj,
      ihy (fun i hm => hi i (by simp [Chain.inOrder, hm])) hk⟩

/-- A chain is put below its parent; a single operand stays there. -/
theorem rebuild_moored (hn : n.label.parent = some p)
    (hi : ∀ is, n.fold items = .ok is → ∀ i ∈ is, Berths b i)
    (h : n.rebuildAt (some p) = .ok m) : m.Moored ⟨p, b⟩ := by
  obtain ⟨c, t, hc, hio, -, -, hh⟩ := rebuild_ok h
  have ht : ∀ i ∈ t.inOrder, Berths b i := hio ▸ hi _ hc
  rw [← hio] at hc
  cases t with
  | operand a => exact ⟨(parent_of_settled hc hh).trans hn, settle_berthed ht hh⟩
  | unary op x =>
    obtain ⟨k, hk, hh⟩ := except_bind_ok.mp hh
    cases hh
    exact (settle_berthed ht hk).adopt p
  | binary op x y =>
    obtain ⟨k, hk, hh⟩ := except_bind_ok.mp hh
    cases hh
    exact (settle_berthed ht hk).adopt p

/-- The items of a tree are in the scope that the tree is in. -/
theorem berths_items (hn : n.Berthed b) (h : n.fold items = .ok is) : ∀ i ∈ is, Berths b i := by
  induction n using induct generalizing b is with
  | h l ks ih =>
    obtain ⟨hl, hk⟩ := berthed_mk.mp hn
    -- The children of an operand are rebuilt below it.
    have hkids : ∀ {js : List Node}, List.Forall₂ (fun k j => k.rebuildAt (some l.serial) = .ok j)
        ks js → ∀ j ∈ js, j.Moored (l.site b) := fun hj =>
      forall_of_forall₂ hj fun k hm j hj =>
        rebuild_moored (hk k hm).1 (fun _ hs => ih k hm (hk k hm).2 hs) hj
    have hkid : ∀ k ∈ ks, l.isOperator = true → k.Berthed b := by
      intro k hm ho
      have hb := (hk k hm).2
      rwa [Label.site_operator ho] at hb
    cases parted h with
    | group hin =>
      refine List.forall_mem_singleton.mpr fun x hx => ?_
      obtain ⟨js, hjs, hx⟩ := except_bind_ok.mp hx
      cases hx
      refine Berthed.relabel (berthed_mk.mpr ⟨hl, ?_⟩) (l.alongside_bind js)
      exact hkids (rebuild_kids (List.forall₂_map_left_iff.mp (mapM_ok hin)) (mapM_ok hjs))
    | nullary ho ha =>
      refine List.forall_mem_singleton.mpr fun x hx => ?_
      cases hx
      exact Berthed.relabel (berthed_mk.mpr ⟨hl, by simp⟩) (l.alongside_bind [])
    | unary hop hs =>
      refine List.forall_mem_cons.mpr ⟨⟨hop.operator, hl⟩, ?_⟩
      exact ih _ (by simp) (hkid _ (by simp) hop.operator) hs
    | binary hop hi hj =>
      refine List.forall_mem_append.mpr ⟨?_, List.forall_mem_cons.mpr ⟨⟨hop.operator, hl⟩, ?_⟩⟩
      · exact ih _ (by simp) (hkid _ (by simp) hop.operator) hi
      · exact ih _ (by simp) (hkid _ (by simp) hop.operator) hj
    | whole =>
      refine List.forall_mem_singleton.mpr fun x hx => ?_
      obtain ⟨js, hjs, hx⟩ := except_bind_ok.mp hx
      cases hx
      exact berthed_mk.mpr ⟨hl, hkids (List.forall₂_map_left_iff.mp (mapM_ok hjs))⟩

end Operand

namespace Node

variable {n m v : Node} {l : Label} {ks js : List Node} {b : Nat} {site : Site} {renew : Bool}
  {s : Scope} {os ss : Scopes}

theorem Moored.reorder (h : n.Moored site) (hm : n.reorder = .ok m) : m.Moored site := by
  obtain ⟨k, hk, hm⟩ := except_bind_ok.mp hm
  rw [Node.rebuild, h.1] at hk
  have hkm := Operand.rebuild_moored h.1 (fun _ hs => Operand.berths_items h.2 hs) hk
  exact hkm.markReordered hm

/-! Analysis binds variables and adds declarations to scopes. -/

theorem Moored.bindTo (h : v.Moored site) (k : Nat) : (v.bindTo k).Moored site := by
  obtain ⟨l, ks⟩ := v
  unfold Node.bindTo
  split
  · next d c hf =>
    rw [form_mk] at hf
    exact h.relabel ⟨rfl, rfl, rfl, by simp [Label.isBlock, hf], by simp [Label.scope?]⟩
  · exact h

theorem Moored.markAnalyzed (h : n.Moored site) : n.markAnalyzed.Moored site := by
  obtain ⟨l, ks⟩ := n
  exact h.relabel (Label.alongside_of_form rfl rfl rfl rfl)

theorem Moored.analyzeHead (h : n.Moored site) (hm : n.analyzeHead renew ss = (.ok m, os)) :
    m.Moored site := by
  rcases analyzeHead_cases renew n with ⟨c, -, he⟩ | ⟨l, v, ks, rfl, -, he⟩ | ⟨l, rfl, -, he⟩ |
    ⟨-, -, he⟩
  · rw [he, resolve_run] at hm
    split at hm
    · cases hm
      exact h.bindTo _
    · cases hm
  · rw [he] at hm
    obtain ⟨u, t, hu, hm⟩ := run_bind_ok.mp hm
    cases hm
    obtain ⟨k, rfl⟩ := introduce_ok hu
    obtain ⟨hl, hk⟩ := berthed_mk.mp h.2
    obtain ⟨hv, hks⟩ := List.forall_mem_cons.mp hk
    exact ⟨h.1, berthed_mk.mpr ⟨hl, List.forall_mem_cons.mpr ⟨hv.bindTo k, hks⟩⟩⟩
  · rw [he] at hm
    cases hm
  · rw [he] at hm
    cases hm
    exact h

theorem moored_analyzeAll
    (hk : ∀ k ∈ ks, ∀ renew s os ss m, k.analyze renew (s :: os) = (.ok m, ss) → m.Moored site)
    (h : analyzeAll renew ks (s :: os) = (.ok js, ss)) : ∀ j ∈ js, j.Moored site := by
  induction ks generalizing js s with
  | nil =>
    cases h
    simp
  | cons k ks ih =>
    obtain ⟨j, js, t, hj, hjs, rfl⟩ := analyzeAll_cons_ok.mp h
    obtain ⟨r, new, h1, -⟩ := analyze_declares renew k s s os os (.refl _)
      (List.forall₂_same.mpr fun _ _ => .refl _)
    rw [hj] at h1
    obtain ⟨-, rfl⟩ := Prod.mk.inj h1
    exact List.forall_mem_cons.mpr
      ⟨hk k (by simp) _ _ _ _ _ hj, ih (fun i hi => hk i (by simp [hi])) hjs⟩

/-- A block may get more declarations. -/
theorem Moored.widen {kind : BlockKind} {scope : Scope} (h : (mk l ks).Moored site)
    (hf : l.form = .block kind scope) (new : List Key) :
    (mk { l with form := .block kind (scope.extend new) } ks).Moored site := by
  refine h.relabel ⟨rfl, rfl, rfl, by simp [Label.isBlock, hf], fun u hu => ⟨scope, ?_⟩⟩
  obtain rfl := Option.some.inj hu
  exact ⟨by rw [Label.scope?, hf], rfl, rfl, fun h => h.extend new⟩

/-- The scope of a block is extended by analysis. -/
theorem inside_analyzeAll {scope scope' : Scope}
    (h : Analysis.inside scope (analyzeAll renew ks) ss = (.ok (js, scope'), os)) :
    ∃ new us, scope' = scope.extend new ∧ analyzeAll renew ks (scope :: ss) = (.ok js, us) := by
  obtain ⟨r, new, h1, -⟩ := analyzeAll_declares (fun k _ b => analyze_declares b k) renew scope
    scope ss ss (.refl _) (List.forall₂_same.mpr fun _ _ => .refl _)
  unfold Analysis.inside at h
  rw [h1] at h
  cases r with
  | error f => cases h
  | ok a =>
    cases h
    exact ⟨new, _, rfl, h1⟩

theorem Moored.analyze (h : n.Moored site) (hm : n.analyze renew (s :: os) = (.ok m, ss)) :
    m.Moored site := by
  induction n using induct generalizing renew s os ss m site with
  | h l ks ih =>
    obtain ⟨hl, hks⟩ := berthed_mk.mp h.2
    have hk : ∀ k ∈ ks, ∀ renew s os ss m, k.analyze renew (s :: os) = (.ok m, ss) →
        m.Moored (l.site site.block) := fun k hm _ _ _ _ _ ha => ih k hm (hks k hm) ha
    rcases analyze_cases renew l ks with ⟨-, he⟩ | ⟨-, -, he⟩ | ⟨-, kind, scope, hf, he⟩ |
      ⟨-, renews, -, he⟩ | ⟨-, -, -, he⟩
    · rw [he] at hm
      cases hm
      exact h
    · rw [he] at hm
      cases hm
    · rw [he] at hm
      obtain ⟨⟨js, scope'⟩, t, hj, hm⟩ := run_bind_ok.mp hm
      cases hm
      obtain ⟨new, us, rfl, hall⟩ := inside_analyzeAll hj
      refine Moored.markAnalyzed (Moored.widen ?_ hf new)
      exact ⟨h.1, berthed_mk.mpr ⟨hl, moored_analyzeAll hk hall⟩⟩
    · rw [he] at hm
      obtain ⟨js, t, hj, hm⟩ := run_bind_ok.mp hm
      cases hm
      exact Moored.markAnalyzed ⟨h.1, berthed_mk.mpr ⟨hl, moored_analyzeAll hk hj⟩⟩
    · rw [he] at hm
      obtain ⟨js, t, hj, hm⟩ := run_bind_ok.mp hm
      obtain ⟨j, u, hh, hm⟩ := run_bind_ok.mp hm
      cases hm
      refine Moored.markAnalyzed (Moored.analyzeHead ?_ hh)
      exact ⟨h.1, berthed_mk.mpr ⟨hl, moored_analyzeAll hk hj⟩⟩

/-- The phases keep links, and the setup of a staged fragment has been done. -/
theorem Moored.cascade {within : Option Nat} (h : n.Moored site) (hn : n.Staged)
    (hm : n.cascade within (s :: os) = (.ok m, ss)) : m.Moored site := by
  obtain ⟨q, hq, hm⟩ := cascade_ok hm
  obtain ⟨a, ha, hq⟩ := except_bind_ok.mp hq
  obtain ⟨c, hc, hr⟩ := except_bind_ok.mp hq
  have hset : n.setUp within = .ok n := hn.elim (·.setUp within) (·.setUp within)
  obtain rfl : n = a := Except.ok.inj (hset.symm.trans ha)
  exact ((h.complete hc).reorder hr).analyze hm

end Node

/-! The links at the cursor. -/

namespace Node

variable {n m : Node} {path above : List Node} {p : List Node × Node} {g : Scope}

/-- What the nodes below some open or closed nodes, given from the innermost on, are linked to. -/
def siteBelow : List Node → Site
  | [] => ⟨0, 0⟩
  | n :: above => n.label.site (siteBelow above).block

/-- Nodes one below the other, from the innermost on, each linked to what is above it. -/
def Spine (path : List Node) : Prop :=
  ∀ n rest, n :: rest <:+ path → n.Moored (siteBelow rest)

theorem spine_nil : Spine [] := by
  intro n rest h
  have hl := h.length_le
  simp at hl

theorem spine_cons : Spine (n :: path) ↔ n.Moored (siteBelow path) ∧ Spine path := by
  constructor
  · intro h
    exact ⟨h n path (List.suffix_refl _),
      fun m rest hm => h m rest (hm.trans (List.suffix_cons _ _))⟩
  · rintro ⟨hn, hp⟩ m rest hm
    rcases List.suffix_cons_iff.mp hm with he | hm
    · obtain ⟨rfl, rfl⟩ := List.cons.inj he
      exact hn
    · exact hp m rest hm

/-- The open nodes put into one another, from the innermost on. -/
theorem Spine.fold (hn : n.Moored (siteBelow path)) (hp : Spine path) :
    (path.foldl (fun n p => p.push n) n).Moored ⟨0, 0⟩ := by
  induction path generalizing n with
  | nil => exact hn
  | cons p path ih =>
    obtain ⟨hpm, hp⟩ := spine_cons.mp hp
    exact ih (hpm.push hn) hp

/-- A place in a tree is below its nodes and those above the tree. -/
theorem Spine.places (hn : n.Moored (siteBelow above)) (ha : Spine above)
    (hp : p ∈ n.places above) : Spine (p.2 :: p.1) := by
  induction n using induct generalizing above with
  | h l ks ih =>
    rcases mem_places_mk.mp hp with rfl | ⟨k, hk, hp⟩
    · exact spine_cons.mpr ⟨hn, ha⟩
    · have hk' : k.Moored (siteBelow (mk l ks :: above)) := hn.2.kids k hk
      exact ih k hk hk' (spine_cons.mpr ⟨hn, ha⟩) hp

end Node

namespace Tree

variable {t u : Tree} {tok : Token} {f : Option Failure} {n : Node} {path : List Node}

/-- Every node of a tree is linked to what is above it. -/
structure Moored (t : Tree) : Prop where
  fragments : ∀ n ∈ t.fragments, n.Moored ⟨0, 0⟩
  path : Node.Spine t.path
  globals : t.globals.self = 0

/-- A new node is linked to what is above the cursor. -/
theorem Moored.site (h : t.Moored) : t.At (Node.siteBelow t.path) := by
  rw [At, cursorNumber, innerBlock]
  cases hp : t.path with
  | nil => exact ⟨rfl, rfl⟩
  | cons n path => exact ⟨rfl, (Node.spine_cons.mp (hp ▸ h.path)).1.2.housed.innerBlock⟩

theorem Moored.append (h : t.Moored) (hn : n.Moored (Node.siteBelow t.path)) :
    (t.append n).Moored := by
  unfold Tree.append
  split
  · next hp =>
    refine ⟨List.forall_mem_append.mpr ⟨h.fragments, ?_⟩, h.path, h.globals⟩
    simpa [hp, Node.siteBelow] using hn
  · next p path hp =>
    rw [hp] at hn
    obtain ⟨hpm, hpath⟩ := Node.spine_cons.mp (hp ▸ h.path)
    exact ⟨h.fragments, Node.spine_cons.mpr ⟨hpm.push hn, hpath⟩, h.globals⟩

theorem Moored.leave (h : t.Moored) : t.leave.Moored := by
  unfold Tree.leave
  split
  · exact h
  · next n path hp =>
    obtain ⟨hn, hpath⟩ := Node.spine_cons.mp (hp ▸ h.path)
    refine Moored.append ⟨h.fragments, hpath, h.globals⟩ ?_
    obtain ⟨l, ks⟩ := n
    exact hn.relabel (Label.alongside_of_form rfl rfl rfl rfl)

theorem moored_passed {within : Option Nat} {os : Scopes} {ks js : List Node} {site : Node.Site}
    (hs : ∀ k ∈ ks, k.Staged) (hk : ∀ k ∈ ks, k.Moored site)
    (hj : List.Forall₂ (Flushed.Passed within os) ks js) : ∀ j ∈ js, j.Moored site := by
  induction hj with
  | nil => simp
  | @cons k j ks js hkj _ ih =>
    obtain ⟨hs₀, hs⟩ := List.forall_mem_cons.mp hs
    obtain ⟨hk₀, hk⟩ := List.forall_mem_cons.mp hk
    refine List.forall_mem_cons.mpr ⟨?_, ih hs hk⟩
    rcases hkj with rfl | ⟨s, new, hc⟩
    · exact hk₀
    · exact hk₀.cascade hs₀ hc

theorem Moored.flush (h : t.Moored) (hs : t.Staged) : t.flush.tree.Moored := by
  rcases flush_cases t with ⟨-, js, new, he, hj⟩ | ⟨n, path, js, scope, hp, he, hj, hscope⟩
  · rw [he]
    exact ⟨moored_passed hs.fragments h.fragments hj, h.path, h.globals⟩
  · rw [he]
    obtain ⟨hn, hpath⟩ := Node.spine_cons.mp (hp ▸ h.path)
    have hk := (hs.path n (by simp [hp])).staged_kids
    refine ⟨h.fragments, Node.spine_cons.mpr ⟨?_, hpath⟩, h.globals⟩
    have hflushed : (Node.mk n.label js).Moored (Node.siteBelow path) :=
      ⟨hn.1, Node.berthed_mk.mpr ⟨hn.2.housed, moored_passed hk hn.2.kids hj⟩⟩
    rw [Node.setScope]
    split
    · next kind s hf =>
      rw [Node.form_mk] at hf
      obtain ⟨new, rfl⟩ := hscope s (by rw [Node.scope?, Node.form, hf])
      exact hflushed.widen hf new
    · exact hflushed

theorem Moored.closing (h : t.Moored) (hs : t.Staged) (hc : t.Closing tok u) : u.Moored := by
  obtain ⟨-, -, -, -, -, -, -, ⟨-, rfl⟩ | ⟨-, rfl, -⟩⟩ := hc
  · exact h
  · exact h.flush hs

theorem Moored.place (h : t.Moored) (hs : t.Staged) (hc : 0 < t.clock) (hp : t.Placed tok u f) :
    u.Moored := by
  have hsprout : ∀ {k : Node.Site} (m : Option Marker), t.At k →
      (Node.sprout tok t.clock k m).Moored (Node.siteBelow t.path) := by
    intro k m hk
    obtain rfl : k = Node.siteBelow t.path := by
      obtain ⟨hparent, hblock⟩ := h.site
      obtain ⟨hparent', hblock'⟩ := hk
      cases k
      cases hb : Node.siteBelow t.path
      simp_all
    refine ⟨rfl, Node.berthed_mk.mpr ⟨⟨hc, rfl, fun s hs => ?_⟩, by simp⟩⟩
    rw [Label.scope?] at hs
    split at hs
    · next kind u hf =>
      cases hs
      obtain ⟨-, rfl⟩ := Node.form_sprout (m := m) hf
      exact ⟨rfl, rfl, by simp [Scope.Covered]⟩
    · cases hs
  cases hp with
  | refused f _ => exact h
  | awaiting _ => exact ⟨h.fragments, h.path, h.globals⟩
  | leaf k _ hl => exact h.append (hsprout none hl)
  | entered k m _ hl =>
    exact ⟨h.fragments, Node.spine_cons.mpr ⟨hsprout (some m) hl, h.path⟩, h.globals⟩
  | flushed _ _ => exact h.flush hs
  | blocked f n path _ _ _ => exact h.flush hs
  | left v hv => exact (h.closing hs hv).leave
  | delivered v hv _ => exact (h.closing hs hv).leave.flush (hs.closing hv).leave

theorem Moored.roots (h : t.Moored) : ∀ n ∈ t.roots, n.Moored ⟨0, 0⟩ := by
  intro n hn
  rcases mem_roots.mp hn with hn | ⟨m, path, hp, rfl⟩
  · exact h.fragments n hn
  · obtain ⟨hm, hpath⟩ := Node.spine_cons.mp (hp ▸ h.path)
    exact hpath.fold hm

theorem Moored.reset (h : t.Moored) : t.reset.tree.Moored := by
  refine ⟨fun n hn => h.roots n (List.mem_filter.mp hn).1, Node.spine_nil, ?_⟩
  rw [Tree.reset, Scope.foldl_rollback]
  exact h.globals

theorem Moored.insert (h : t.Moored) (hs : t.Staged) (tok : Token) :
    (t.insert tok).tree.Moored := by
  have hp := Moored.place (t := { t with clock := t.clock + 1 }) ⟨h.fragments, h.path, h.globals⟩
    ⟨hs.fragments, hs.path⟩ (Nat.succ_pos _) (placed_place _ tok)
  rcases insert_tree t tok with ⟨-, ht, -⟩ | ⟨f, -, ht, -⟩
  · exact ht ▸ hp
  · exact ht ▸ hp.reset

theorem Moored.evaluate {σ : Type} (h : t.Moored) (d : Option (Dispatcher σ)) (w : σ)
    (cancelled : Bool) (interrupts : List Bool) :
    (t.evaluate d w cancelled interrupts).tree.Moored := by
  refine ⟨fun n hn => ?_, h.path, ?_⟩
  · have hm := (t.evaluate_outlines d w cancelled interrupts).mem (List.mem_map_of_mem hn)
    obtain ⟨k, hk, he⟩ := List.mem_map.mp hm
    rw [← Node.moored_outline, ← he, Node.moored_outline]
    exact h.fragments k hk
  · obtain ⟨u, ks, hu, he⟩ := t.evaluate_globals d w cancelled interrupts
    rw [he]
    exact (Scope.Alike.of_outline hu).self.trans h.globals

theorem moored_fresh : ({} : Tree).Moored := ⟨by simp, Node.spine_nil, rfl⟩

theorem Reachable.moored (h : t.Reachable) : t.Moored := by
  refine h.invariant moored_fresh ?_ ?_ ?_
  · exact fun _ tok hr ht => ht.insert hr.staged tok
  · exact fun _ _ ht => ht.reset
  · exact fun _ d w cancelled interrupts _ ht => ht.evaluate d w cancelled interrupts

end Tree

/-! The scopes that links lead to. -/

namespace Scopes

variable {x : Bytes} {c ss os : Scopes} {s : Scope}

/-- Scopes each of which is linked to the next one, up to the global scope. -/
def Chained : Scopes → Prop
  | [] => False
  | [g] => g.self = 0
  | s :: u :: os => s.self ≠ 0 ∧ s.outer = some u.self ∧ Chained (u :: os)

theorem trail_none (ss : Scopes) : ss.trail none = [] := by
  induction ss with
  | nil => rfl
  | cons s ss ih => rw [trail, if_neg (by simp), ih]

/-- The links lead through a chain, whatever other scopes there are. -/
theorem trail_chained (hc : Chained c) (hs : c.Sublist ss) (hd : (ss.map Scope.self).Nodup)
    (h : c.head? = some s) : (ss.trail (some s.self)).map Prod.snd = c := by
  induction hs generalizing s with
  | slnil => cases hc
  | @cons c ss a hs ih =>
    obtain ⟨ha, hd⟩ := List.nodup_cons.mp hd
    have hm : s ∈ ss := hs.mem (List.mem_of_head? h)
    have hne : ¬ some s.self = some a.self := by
      intro he
      exact ha (Option.some.inj he ▸ List.mem_map_of_mem hm)
    rw [trail, if_neg hne, ih hc hd h]
  | @cons_cons c ss a hs ih =>
    obtain rfl : a = s := Option.some.inj h
    rw [trail, if_pos rfl, List.map_cons]
    refine congrArg _ ?_
    cases c with
    | nil =>
      have hself : a.self = 0 := hc
      rw [Scope.next, if_pos hself, trail_none]
      rfl
    | cons u os =>
      obtain ⟨hself, houter, hc⟩ := hc
      rw [Scope.next, if_neg hself, houter]
      exact ih hc (List.nodup_cons.mp hd).2 rfl

/-- Where a search for a name ends. -/
theorem lookup_scope (x : Bytes) (b : Option Nat) (ss : Scopes) :
    ((ss.lookup x b).bind fun k => ss.level? k) =
      ((ss.trail b).map Prod.snd).find? (·.declares x) := by
  rw [lookup, List.find?_map, Function.comp_def]
  cases hf : (ss.trail b).find? (·.2.declares x) with
  | none => rfl
  | some p => exact (trail_level (List.mem_of_find?_eq_some hf)).2

/-- The position of the innermost scope that declares a name. -/
def innermost (name : Bytes) : Scopes → Option Nat
  | [] => none
  | s :: outer => if s.declares name then some outer.length else innermost name outer

/-- In a chain a search from the first scope on goes through all of it. -/
theorem lookup_chained (h : Chained (s :: os)) :
    lookup x (some s.self) (s :: os) = innermost x (s :: os) := by
  induction os generalizing s with
  | nil =>
    have hself : s.self = 0 := h
    rw [lookup, trail, if_pos rfl, Scope.next, if_pos hself, trail_none, innermost,
      List.find?_cons]
    cases s.declares x <;> rfl
  | cons u os ih =>
    obtain ⟨hself, houter, hc⟩ := h
    have hu := ih hc
    rw [lookup] at hu
    rw [lookup, trail, if_pos rfl, Scope.next, if_neg hself, houter, Option.getD_some, innermost,
      List.find?_cons]
    cases s.declares x with
    | true => rfl
    | false => exact hu

theorem depth_chained (h : Chained (s :: os)) : depth (some s.self) (s :: os) = os.length := by
  suffices hl : (trail (some s.self) (s :: os)).length = os.length + 1 by rw [depth, hl]; rfl
  induction os generalizing s with
  | nil =>
    have hself : s.self = 0 := h
    rw [trail, if_pos rfl, Scope.next, if_pos hself, trail_none]
    rfl
  | cons u os ih =>
    obtain ⟨hself, houter, hc⟩ := h
    rw [trail, if_pos rfl, Scope.next, if_neg hself, houter, Option.getD_some, List.length_cons,
      ih hc, List.length_cons]

theorem Chained.extend (h : Chained (s :: os)) (new : List Key) : Chained (s.extend new :: os) := by
  cases os with
  | nil => exact h
  | cons u os => exact h

end Scopes

namespace Node

variable {n k : Node} {above path : List Node} {g : Scope} {p : List Node × Node}

theorem scope?_isSome (n : Node) : n.scope?.isSome = n.isBlock := by
  unfold scope? isBlock
  cases n.form <;> rfl

/-- The scopes of the nodes above a place, and the global one. -/
def chain (g : Scope) (above : List Node) : Scopes := above.filterMap scope? ++ [g]

theorem chain_cons (g : Scope) (n : Node) (above : List Node) :
    chain g (n :: above) = n.scope?.toList ++ chain g above := by
  unfold chain
  cases hs : n.scope? <;> simp [hs]

theorem length_chain (g : Scope) (above : List Node) :
    (chain g above).length = above.countP isBlock + 1 := by
  induction above with
  | nil => rfl
  | cons n above ih =>
    rw [chain_cons, List.length_append, ih, List.countP_cons, ← scope?_isSome]
    cases n.scope? with
    | none => simp
    | some s =>
      simp
      omega

/-- The number of the nearest block, or that of the global scope. -/
def blockAbove (above : List Node) : Nat := ((above.find? isBlock).map (·.label.serial)).getD 0

/-- The number of the node right above a place, or that of the root. -/
def numberAbove (above : List Node) : Nat := (above.head?.map (·.label.serial)).getD 0

theorem siteBelow_eq (above : List Node) :
    siteBelow above = ⟨numberAbove above, blockAbove above⟩ := by
  induction above with
  | nil => rfl
  | cons n above ih =>
    simp only [siteBelow, Label.site, ih, isBlock_label, numberAbove, blockAbove, List.find?_cons]
    cases n.isBlock <;> rfl

/-- Of the nodes above, only the labels matter to a link. -/
theorem Spine.parent_of_labels {pre post : List Node} (h : Spine path)
    (hl : (pre ++ n :: post).map label = path.reverse.map label) :
    n.label.parent = some (numberAbove pre.reverse) := by
  rw [List.map_append, List.map_cons, eq_comm, List.map_eq_append_iff] at hl
  obtain ⟨as, bs, hrev, hpre, hrest⟩ := hl
  obtain ⟨m, cs, rfl, hm, -⟩ := List.map_eq_cons_iff.mp hrest
  have hpath : path = cs.reverse ++ m :: as.reverse := by
    rw [← List.reverse_reverse path, hrev]
    simp
  have hlast : ∀ xs : List Node, numberAbove xs.reverse =
      ((xs.map label).getLast?.map Label.serial).getD 0 := by
    intro xs
    rw [numberAbove, List.head?_reverse, List.getLast?_map, Option.map_map]
    rfl
  have hmoored := (h m as.reverse (hpath ▸ List.suffix_append _ _)).1
  rw [siteBelow_eq, hlast, hpre, ← hlast, hm] at hmoored
  exact hmoored

/-- The scopes around a place are linked to one another, the first to the place itself. -/
theorem Spine.chained (h : Spine above) (hg : g.self = 0) :
    Scopes.Chained (chain g above) ∧
      ∃ s, (chain g above).head? = some s ∧ s.self = (siteBelow above).block := by
  induction above with
  | nil => exact ⟨hg, g, rfl, hg⟩
  | cons n above ih =>
    obtain ⟨hn, ha⟩ := spine_cons.mp h
    obtain ⟨hc, u, hu, hself⟩ := ih ha
    have hb := isBlock_label n
    rw [← scope?_isSome] at hb
    rw [chain_cons, siteBelow, Label.site, hb]
    cases hs : n.scope? with
    | none => exact ⟨hc, u, hu, hself⟩
    | some s =>
      obtain ⟨os, hos⟩ := List.head?_eq_some_iff.mp hu
      obtain ⟨hserial, houter, -⟩ := hn.2.housed.scope s hs
      refine ⟨?_, s, rfl, hserial⟩
      rw [hos]
      refine ⟨?_, by rw [houter, hself], hos ▸ hc⟩
      rw [hserial]
      exact Nat.ne_of_gt hn.2.housed.numbered

theorem blocks_mk (l : Label) (ks : List Node) :
    (mk l ks).blocks = ks.flatMap blocks ++ (mk l ks).scope?.toList := by
  rw [List.flatMap_def, blocks, fold_mk, scope?, form_mk]
  cases l.form with
  | block _ _ => rfl
  | _ => exact (List.append_nil _).symm

/-- The scopes around a place of a tree come in their order among its blocks. -/
theorem blocks_places (h : p ∈ n.places above) :
    ∃ mid, p.1 = mid ++ above ∧ ((p.2 :: mid).filterMap scope?).Sublist n.blocks := by
  induction n using induct generalizing above with
  | h l ks ih =>
    rw [blocks_mk]
    rcases mem_places_mk.mp h with rfl | ⟨k, hk, h⟩
    · refine ⟨[], rfl, ?_⟩
      cases hs : (mk l ks).scope? <;> simp [hs]
    · obtain ⟨mid, hp, hs⟩ := ih k hk h
      refine ⟨mid ++ [mk l ks], by simp [hp], ?_⟩
      have hkid : k.blocks.Sublist (ks.flatMap blocks) := by
        simpa using (List.singleton_sublist.mpr hk).flatMap blocks
      rw [← List.cons_append, List.filterMap_append]
      refine (hs.trans hkid).append ?_
      cases hs : (mk l ks).scope? <;> simp [hs]

/-- The scopes of a linked tree have the numbers of its blocks. -/
theorem blocks_self {site : Site} (h : n.Moored site) :
    (n.blocks.map Scope.self).Perm ((n.labels.filter Label.isBlock).map Label.serial) := by
  induction n using induct generalizing site with
  | h l ks ih =>
    obtain ⟨hl, hk⟩ := berthed_mk.mp h.2
    have hkids : ((ks.flatMap blocks).map Scope.self).Perm
        (((ks.flatMap labels).filter Label.isBlock).map Label.serial) := by
      rw [List.map_flatMap, List.filter_flatMap, List.map_flatMap]
      exact List.Perm.flatMap_left ks fun k hm => ih k hm (hk k hm)
    have hb : l.isBlock = (mk l ks).scope?.isSome := by
      rw [← l.scope?_isSome]
      rfl
    rw [blocks_mk, labels_mk, List.filter_cons, hb, List.map_append]
    cases hs : (mk l ks).scope? with
    | none => simpa using hkids
    | some s =>
      have hself := (hl.scope s hs).1
      simp only [Option.toList_some, List.map_cons, List.map_nil, hself,
        Option.isSome_some, if_true]
      exact (List.perm_append_singleton _ _).trans (hkids.cons _)

theorem places_append (n : Node) (a b : List Node) :
    n.places (a ++ b) = (n.places a).map fun p => (p.1 ++ b, p.2) := by
  induction n using induct generalizing a with
  | h l ks ih =>
    rw [places_mk, places_mk, List.map_cons, List.map_flatMap]
    exact congrArg _ (List.flatMap_congr fun k hk => ih k hk (mk l ks :: a))

end Node

namespace Tree

variable {t : Tree} {n : Node} {p q : List Node × Node}

/-- The scopes around the nodes below a place. -/
def chain (t : Tree) (above : List Node) : Scopes := Node.chain t.globals above

theorem blocks_nodup (h : t.Moored) (hu : t.Unshared) : (t.blocks.map Scope.self).Nodup := by
  have hperm : ((t.roots.flatMap Node.blocks).map Scope.self).Perm
      (((t.roots.flatMap Node.labels).filter Label.isBlock).map Label.serial) := by
    rw [List.map_flatMap, List.filter_flatMap, List.map_flatMap]
    exact List.Perm.flatMap_left _ fun r hr => Node.blocks_self (h.roots r hr)
  have hsub : (((t.roots.flatMap Node.labels).filter Label.isBlock).map Label.serial).Sublist
      t.serials := List.filter_sublist.map _
  rw [blocks, List.map_append, List.map_singleton, List.nodup_append]
  refine ⟨hperm.nodup_iff.mpr (hu.distinct.sublist hsub), List.nodup_singleton _, ?_⟩
  intro a ha b hb
  obtain rfl := List.mem_singleton.mp hb
  rw [h.globals]
  exact Nat.ne_of_gt (hu.positive a (hsub.mem (hperm.mem_iff.mp ha)))

/-- The scopes of a block and those around it come in their order among all scopes. -/
theorem chain_sublist (hp : p ∈ t.places) : (t.chain (p.2 :: p.1)).Sublist t.blocks := by
  obtain ⟨r, hr, hp⟩ := mem_places.mp hp
  obtain ⟨mid, hmid, hs⟩ := Node.blocks_places hp
  obtain rfl : p.1 = mid := by simpa using hmid
  have hroot : r.blocks.Sublist (t.roots.flatMap Node.blocks) := by
    simpa using (List.singleton_sublist.mpr hr).flatMap Node.blocks
  exact (hs.trans hroot).append (.refl _)

theorem Moored.spine (h : t.Moored) (hp : p ∈ t.places) : Node.Spine (p.2 :: p.1) := by
  obtain ⟨r, hr, hp⟩ := mem_places.mp hp
  have hroot : r.Moored (Node.siteBelow []) := h.roots r hr
  exact .places hroot Node.spine_nil hp

/-- The cursor has a place, and analysis there works on the scopes of that place. -/
theorem cursor_place {path : List Node} (h : t.path = n :: path) :
    ∃ above, (above, n) ∈ t.places ∧ t.scopes = t.chain (n :: above) := by
  have hfold : ∀ (path : List Node) (m : Node) (above : List Node), (above, n) ∈ m.places [] →
      ∃ rest, (above ++ rest, n) ∈ (path.foldl (fun n p => p.push n) m).places [] ∧
        rest.filterMap Node.scope? = path.filterMap Node.scope? := by
    intro path
    induction path with
    | nil => exact fun m above hm => ⟨[], by simpa using hm, rfl⟩
    | cons p path ih =>
      intro m above hm
      rw [List.foldl_cons]
      have hp : (above ++ [p.push m], n) ∈ (p.push m).places [] := by
        refine Node.mem_places_mk.mpr (Or.inr ⟨m, by simp, ?_⟩)
        have ha := Node.places_append m [] [p.push m]
        rw [List.nil_append] at ha
        show _ ∈ m.places [p.push m]
        rw [ha]
        exact List.mem_map.mpr ⟨(above, n), hm, rfl⟩
      obtain ⟨rest, hr, hs⟩ := ih (p.push m) _ hp
      refine ⟨p.push m :: rest, by simpa using hr, ?_⟩
      have hscope : (p.push m).scope? = p.scope? := rfl
      rw [List.filterMap_cons, List.filterMap_cons, hscope, hs]
  have hn : ([], n) ∈ n.places [] := by
    obtain ⟨l, ks⟩ := n
    exact Node.mem_places_mk.mpr (Or.inl rfl)
  obtain ⟨above, hp, hs⟩ := hfold path n [] hn
  refine ⟨above, mem_places.mpr ⟨_, List.mem_append_right _ ?_, hp⟩, ?_⟩
  · simp [h, openFragment]
  · simp only [scopes, chain, Node.chain, h, List.filterMap_cons, hs]

/-- Where analysis works, the scopes are linked to one another and to the new nodes. -/
theorem Moored.scopes (h : t.Moored) : t.scopes.Chained ∧
    ∃ s, t.scopes.head? = some s ∧ t.innerBlock = some s.self := by
  obtain ⟨hc, s, hs, hself⟩ := h.path.chained h.globals
  exact ⟨hc, s, hs, by rw [h.site.2, hself]⟩

/-- A place is known by the number of its node. -/
theorem Unshared.place_unique (h : t.Unshared) (hp : p ∈ t.places) (hq : q ∈ t.places)
    (he : p.2.label.serial = q.2.label.serial) : p = q := by
  have hd := h.distinct
  rw [← places_serials] at hd
  exact List.inj_on_of_nodup_map hd hp hq he

theorem parent_place (hp : p ∈ t.places) : p.1 = [] ∧ p.2 ∈ t.roots ∨
    ∃ q ∈ t.places, p.1 = q.2 :: q.1 ∧ p.2 ∈ q.2.kids := by
  obtain ⟨r, hr, hp⟩ := mem_places.mp hp
  rcases Node.parent_of_places hp with rfl | ⟨q, hq, he⟩
  · exact Or.inl ⟨rfl, hr⟩
  · exact Or.inr ⟨q, mem_places.mpr ⟨r, hr, hq⟩, he⟩

theorem child_place (hq : q ∈ t.places) (hk : n ∈ q.2.kids) : (q.2 :: q.1, n) ∈ t.places := by
  obtain ⟨r, hr, hq⟩ := mem_places.mp hq
  exact mem_places.mpr ⟨r, hr, Node.child_places hq hk⟩

theorem root_place (hn : n ∈ t.roots) : ([], n) ∈ t.places := by
  refine mem_places.mpr ⟨n, hn, ?_⟩
  obtain ⟨l, ks⟩ := n
  exact Node.mem_places_mk.mpr (Or.inl rfl)

/-- The links that the nodes and scopes store agree with the places of the nodes. -/
structure Linked (t : Tree) : Prop where
  /-- No two places have nodes of the same number, and none has that of the root. -/
  once : (t.places.map (·.2.label.serial)).Nodup ∧ ∀ p ∈ t.places, 0 < p.2.label.serial
  /-- A node names the node above it. -/
  parent : ∀ p ∈ t.places, p.2.label.parent = some (Node.numberAbove p.1)
  /-- A node is a child of the node it names and of no other. -/
  child : ∀ p ∈ t.places, ∀ q ∈ t.places,
    p.2 ∈ q.2.kids ↔ p.2.label.parent = some q.2.label.serial
  root : ∀ p ∈ t.places, p.2 ∈ t.roots ↔ p.2.label.parent = some 0
  /-- A node names the nearest block above it, or the global scope. -/
  block : ∀ p ∈ t.places, p.2.label.block = some (Node.blockAbove p.1)
  /-- A block's scope is linked to the scope that the block belongs to. -/
  parentBlock : ∀ p ∈ t.places, ∀ s, p.2.scope? = some s →
    s.self = p.2.label.serial ∧ s.outer = p.2.label.block
  /-- From a block the links lead through the blocks around it to the global scope. -/
  trail : t.globals.self = 0 ∧ ∀ p ∈ t.places, ∀ s, p.2.scope? = some s →
    (t.blocks.trail (some s.self)).map Prod.snd = s :: t.chain p.1
  /-- By the links a name is found in the innermost of these that declares it. -/
  lookup : ∀ p ∈ t.places, ∀ s, p.2.scope? = some s → ∀ x,
    ((t.blocks.lookup x (some s.self)).bind fun k => t.blocks.level? k) =
      (s :: t.chain p.1).find? (·.declares x)
  /-- By the links a block is called by the number of blocks around it, itself among them. -/
  describe : ∀ p ∈ t.places, ∀ s, p.2.scope? = some s →
    Scopes.describe (t.blocks.depth (some s.self)) =
      ("block@" : Bytes) ++ Bytes.decimal ((p.2 :: p.1).countP Node.isBlock)
  /-- What is analyzed at the cursor is looked up in the scopes that the links lead to. -/
  cursor : (t.blocks.trail t.innerBlock).map Prod.snd = t.scopes ∧
    (t.scopes.trail t.innerBlock).map Prod.snd = t.scopes

theorem Moored.parent (h : t.Moored) (hp : p ∈ t.places) :
    p.2.label.parent = some (Node.numberAbove p.1) := by
  have hm := (Node.spine_cons.mp (h.spine hp)).1.1
  rwa [Node.siteBelow_eq] at hm

theorem Moored.block (h : t.Moored) (hp : p ∈ t.places) :
    p.2.label.block = some (Node.blockAbove p.1) := by
  have hm := (Node.spine_cons.mp (h.spine hp)).1.2.housed.block
  rwa [Node.siteBelow_eq] at hm

theorem Moored.trail {s : Scope} (h : t.Moored) (hu : t.Unshared) (hp : p ∈ t.places)
    (hs : p.2.scope? = some s) :
    (t.blocks.trail (some s.self)).map Prod.snd = s :: t.chain p.1 := by
  have hc : t.chain (p.2 :: p.1) = s :: t.chain p.1 := by
    rw [chain, Node.chain_cons, hs]
    rfl
  have hchained : (t.chain (p.2 :: p.1)).Chained := ((h.spine hp).chained h.globals).1
  rw [← hc]
  exact Scopes.trail_chained hchained (chain_sublist hp) (blocks_nodup h hu) (by rw [hc]; rfl)

theorem scopes_sublist (t : Tree) : t.scopes.Sublist t.blocks := by
  cases hp : t.path with
  | nil =>
    rw [scopes, hp]
    exact List.sublist_append_right _ _
  | cons n path =>
    obtain ⟨above, hm, hs⟩ := cursor_place hp
    rw [hs]
    exact chain_sublist hm

theorem Unshared.positive_place (h : t.Unshared) (hp : p ∈ t.places) : 0 < p.2.label.serial := by
  refine h.positive _ ?_
  rw [← places_serials]
  exact List.mem_map_of_mem hp

theorem Moored.child_iff (h : t.Moored) (hu : t.Unshared) (hp : p ∈ t.places) (hq : q ∈ t.places) :
    p.2 ∈ q.2.kids ↔ p.2.label.parent = some q.2.label.serial := by
  rw [h.parent hp]
  constructor
  · intro hk
    rw [hu.place_unique hp (child_place hq hk) rfl]
    rfl
  · intro he
    rcases parent_place hp with ⟨hnil, -⟩ | ⟨r, hr, habove, hk⟩
    · rw [hnil] at he
      exact absurd (Option.some.inj he) (Nat.ne_of_lt (hu.positive_place hq))
    · rw [habove] at he
      rwa [← hu.place_unique hr hq (Option.some.inj he)]

theorem Moored.root_iff (h : t.Moored) (hu : t.Unshared) (hp : p ∈ t.places) :
    p.2 ∈ t.roots ↔ p.2.label.parent = some 0 := by
  rw [h.parent hp]
  constructor
  · intro hr
    rw [hu.place_unique hp (root_place hr) rfl]
    rfl
  · intro he
    rcases parent_place hp with ⟨-, hr⟩ | ⟨r, hr, habove, -⟩
    · exact hr
    · rw [habove] at he
      exact absurd (Option.some.inj he) (Nat.ne_of_gt (hu.positive_place hr))

/-- Whatever the calls and their failures were, the links are those of the tree. -/
theorem links_consistent (h : t.Reachable) : t.Linked := by
  have hm := h.moored
  have hu := h.unshared
  have hd := blocks_nodup hm hu
  obtain ⟨hc, s, hs, hb⟩ := hm.scopes
  refine ⟨⟨?_, fun p hp => hu.positive_place hp⟩, fun p hp => hm.parent hp,
    fun p hp q hq => hm.child_iff hu hp hq, fun p hp => hm.root_iff hu hp,
    fun p hp => hm.block hp, ?_, ⟨hm.globals, fun p hp s hs => hm.trail hu hp hs⟩, ?_, ?_, ?_⟩
  · rw [places_serials]
    exact hu.distinct
  · intro p hp s hs
    have hl := (Node.spine_cons.mp (hm.spine hp)).1.2.housed
    obtain ⟨hself, houter, -⟩ := hl.scope s hs
    exact ⟨hself, houter.trans hl.block.symm⟩
  · intro p hp s hs x
    rw [Scopes.lookup_scope, hm.trail hu hp hs]
  · intro p hp s hs
    have hlen := congrArg List.length (hm.trail hu hp hs)
    rw [List.length_map, List.length_cons, chain, Node.length_chain] at hlen
    rw [Scopes.depth, hlen, List.countP_cons, ← Node.scope?_isSome, hs]
    rfl
  · rw [hb]
    exact ⟨Scopes.trail_chained hc t.scopes_sublist hd hs,
      Scopes.trail_chained hc (.refl _) (hd.sublist (t.scopes_sublist.map _)) hs⟩

/-- A chain in an open block within an open block, reordered, after a token that did not belong
there. -/
def blockInBlock : List Call :=
  [.insert ⟨"(", []⟩, .insert ⟨"]", []⟩, .insert ⟨"\x7b", []⟩, .insert ⟨"(", []⟩,
    .insert ⟨"new", []⟩, .insert ⟨"(", []⟩, .insert ⟨"init", []⟩, .insert ⟨"ID", "x"⟩,
    .insert ⟨"INT", "1"⟩, .insert ⟨")", []⟩, .insert ⟨")", []⟩, .insert ⟨"\x7b", []⟩,
    .insert ⟨"(", []⟩, .insert ⟨"STAR", []⟩, .insert ⟨"INT", "2"⟩, .insert ⟨"(", []⟩,
    .insert ⟨"PLUS", []⟩, .insert ⟨"ID", "x"⟩, .insert ⟨"INT", "3"⟩, .insert ⟨")", []⟩,
    .insert ⟨")", []⟩]

/-- The variable `x` has moved from one operator to the other, and it names the inner block. -/
theorem links_consistent_blockInBlock :
    (Run.of (none : Option (Dispatcher Unit)) () blockInBlock).tree.Reachable ∧
      ∃ p ∈ (Run.of (none : Option (Dispatcher Unit)) () blockInBlock).tree.places,
        p.2.name = "ID" ∧ p.1.map Node.name = ["STAR", "PLUS", "\x7b", "\x7b"] ∧
          p.2.label.parent = some 14 ∧ p.2.label.block = some 12 := by
  have hreach : (Run.of (none : Option (Dispatcher Unit)) () blockInBlock).tree.Reachable :=
    ⟨Unit, none, (), _, rfl⟩
  have hplace : ∃ p ∈ (Run.of (none : Option (Dispatcher Unit)) () blockInBlock).tree.places,
      p.2.name = "ID" ∧ p.1.map Node.name = ["STAR", "PLUS", "\x7b", "\x7b"] ∧
        Node.numberAbove p.1 = 14 ∧ Node.blockAbove p.1 = 12 := by
    decide +kernel
  obtain ⟨p, hp, hname, habove, hparent, hblock⟩ := hplace
  have hl := links_consistent hreach
  exact ⟨hreach, p, hp, hname, habove, by rw [hl.parent p hp, hparent],
    by rw [hl.block p hp, hblock]⟩

end Tree

end TokenShell
