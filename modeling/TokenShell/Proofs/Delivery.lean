import TokenShell.Proofs.Binding
import TokenShell.Proofs.Upkeep

/-! Fragments are delivered to their scope in order: what the scope declares at any time is what the
fragments analyzed so far declare. -/
namespace TokenShell

namespace Node

variable {n m q k : Node} {l : Label} {ks : List Node} {b : Bool} {as es : List Key}

theorem Upper.raw (h : n.Upper Label.Planted) : n.Raw := by
  induction n using induct with
  | h l ks ih =>
    obtain ⟨hl, -⟩ := upper_mk.mp h
    exact raw_mk.mpr ⟨by simp [hl.flags], fun hb k hm => ih k hm (h.kids hb k hm)⟩

/-- A tree off the path of open nodes: what is inside its blocks is analyzed and entered there. -/
structure Kept (n : Node) : Prop where
  closed : n.Sealed
  entries : ∀ as es, .scope as es ∈ n.sights false → as = es ∧ (as.map Prod.fst).Nodup
  housed : false ∉ n.strays
  analyzed : n.flags.analyzed = true → n.strays = []

/-- The blocks below a node show through it. -/
theorem scope_mem_mk : .scope as es ∈ (mk l ks).sights b ↔
    (∃ kind s, l.form = .block kind s ∧ as = s.keys ∧ es = ks.flatMap entered) ∨
      ∃ k ∈ ks, .scope as es ∈ k.sights false := by
  by_cases hb : l.isBlock = true
  · obtain ⟨kind, s, hf⟩ := Label.isBlock_iff.mp hb
    have hentered : (ks.flatMap (sights false)).filterMap Sight.entered? = ks.flatMap entered := by
      rw [List.filterMap_flatMap]
      rfl
    rw [sights_block hf, List.mem_append, List.mem_singleton, or_comm, hentered]
    refine or_congr ?_ ?_
    · simp [hf]
    · rw [Sight.mem_enclose]
      constructor
      · rintro ⟨gs, f, hs, he, x, hx, hw⟩
        have hf : f ∈ ks.map (sights false) := by simp [he]
        obtain ⟨k, hk, rfl⟩ := List.mem_map.mp hf
        cases x with
        | mention _ => cases hw
        | scope _ _ =>
          cases hw
          exact ⟨k, hk, hx⟩
      · rintro ⟨k, hk, hx⟩
        obtain ⟨gs, hs, rfl⟩ := List.append_of_mem hk
        exact ⟨gs.map (sights false), k.sights false, hs.map (sights false), by simp, _, hx, rfl⟩
  · have hf : ¬ ∃ kind s, l.form = .block kind s ∧ as = s.keys ∧ es = ks.flatMap entered := by
      rintro ⟨kind, s, hf, -⟩
      exact hb (Label.isBlock_iff.mpr ⟨kind, s, hf⟩)
    rw [inner_mk (by simpa using hb) rfl, or_iff_right hf]

theorem kept_sprout {tok : Token} (serial : Nat) (site : Site) (opener : Option Marker)
    (h : (Label.ofToken tok serial).isBlock = false) : (sprout tok serial site opener).Kept where
  closed := sealed_mk.mpr (by split <;> simp)
  entries as es hm := by
    rcases scope_mem_mk.mp hm with ⟨kind, s, hf, -⟩ | ⟨k, hk, -⟩
    · rw [← isBlock_sprout tok serial site opener] at h
      exact absurd (Label.isBlock_iff.mpr ⟨kind, s, hf⟩) (Bool.eq_false_iff.mp h)
    · cases hk
  housed hm := by
    rw [sprout, false_mem_strays] at hm
    split at hm <;> simp at hm
  analyzed ha := by cases ha

/-- A node that is closed: a block has taken in all that is below it. -/
theorem kept_mk (hl : l.flags.analyzed = false) (hk : ∀ k ∈ ks, k.Kept)
    (hb : ∀ kind s, l.form = .block kind s →
      (∀ k ∈ ks, k.Settled) ∧ s.keys = ks.flatMap entered ∧ s.Distinct) : (mk l ks).Kept where
  closed := by
    rw [sealed_mk]
    split
    · next h =>
      obtain ⟨kind, s, hf⟩ := Label.isBlock_iff.mp h
      exact fun k hm => ((hb kind s hf).1 k hm).loose
    · exact fun k hm => (hk k hm).closed
  entries as es hm := by
    rcases scope_mem_mk.mp hm with ⟨kind, s, hf, rfl, rfl⟩ | ⟨k, hkm, hm⟩
    · exact (hb kind s hf).2
    · exact (hk k hkm).entries as es hm
  housed hm := by
    rw [false_mem_strays] at hm
    split at hm
    · next h =>
      obtain ⟨kind, s, hf⟩ := Label.isBlock_iff.mp h
      obtain ⟨k, hkm, hne⟩ := hm
      exact hne ((hk k hkm).analyzed ((hb kind s hf).1 k hkm).analyzed)
    · obtain ⟨k, hkm, hm⟩ := hm
      exact (hk k hkm).housed hm
  analyzed ha := by
    rw [flags_mk, hl] at ha
    cases ha

theorem settled_cascade {within : Option Nat} {s : Scope} {os us : Scopes}
    (hn : n.Upper Label.Planted) (h : n.cascade within (s :: os) = (.ok q, us)) : q.Settled := by
  have hq := (hn.cascade within os.length (s :: os) rfl).2
  rw [h] at hq
  exact hq

theorem blank_cascade {within : Option Nat} {s : Scope} {os us : Scopes}
    (hn : n.Upper Label.Planted) (hs : n.Sealed) (h : n.cascade within (s :: os) = (.ok q, us)) :
    (q.sights false).map Sight.blank = (n.sights false).map Sight.blank :=
  (Sight.mapM_analyze_ok (cascade_sights hn hs h)).2.1

theorem scope_mem_blank {xs : List Sight} :
    .scope as es ∈ xs.map Sight.blank ↔ .scope as es ∈ xs := by
  rw [List.mem_map]
  constructor
  · rintro ⟨x, hx, he⟩
    cases x with
    | mention v =>
      rw [Sight.blank] at he
      split at he <;> cases he
    | scope _ _ =>
      cases he
      exact hx
  · intro h
    exact ⟨_, h, rfl⟩

theorem Kept.cascade {within : Option Nat} {s : Scope} {os us : Scopes} (hk : n.Kept)
    (hn : n.Upper Label.Planted) (h : n.cascade within (s :: os) = (.ok q, us)) : q.Kept where
  closed := (settled_cascade hn h).sealed
  entries as es hm := by
    refine hk.entries as es ?_
    rw [← scope_mem_blank, ← blank_cascade hn hk.closed h, scope_mem_blank]
    exact hm
  housed := by simp [strays_cascade hk.housed hn h]
  analyzed _ := strays_cascade hk.housed hn h

end Node

/-- A scope and the fragments collected in it. The analyzed ones come first, and what they declare
is what the scope declares. -/
structure Scope.Records (s : Scope) (ks : List Node) : Prop where
  kept : ∀ k ∈ ks, k.Kept
  order : ∃ rs ps, ks = rs ++ ps ∧ (∀ r ∈ rs, r.Settled) ∧ ∀ p ∈ ps, p.Upper Label.Planted
  keys : s.keys = ks.flatMap Node.entered
  distinct : s.Distinct

namespace Scope.Records

variable {s : Scope} {ks : List Node} {k : Node}

theorem push (h : s.Records ks) (hk : k.Kept) (hu : k.Upper Label.Planted) :
    s.Records (ks ++ [k]) where
  kept i hi := by
    rcases List.mem_append.mp hi with hi | hi
    · exact h.kept i hi
    · cases List.mem_singleton.mp hi
      exact hk
  order := by
    obtain ⟨rs, ps, rfl, hr, hp⟩ := h.order
    refine ⟨rs, ps ++ [k], by simp, hr, ?_⟩
    intro p hm
    rcases List.mem_append.mp hm with hm | hm
    · exact hp p hm
    · cases List.mem_singleton.mp hm
      exact hu
  keys := by simp [h.keys, hu.raw.entered]
  distinct := h.distinct

theorem nil (hk : s.keys = []) : s.Records [] where
  kept := by simp
  order := ⟨[], [], rfl, by simp, by simp⟩
  keys := hk
  distinct := by simp [Scope.Distinct, hk]

end Scope.Records

/-- Fragments that have gone through the phases one after the other. -/
structure Delivered (os : Scopes) (s u : Scope) (ms qs : List Node) : Prop where
  fragments : List.Forall₂ (fun m q => q.Settled ∧ q.Kept ∧
    (q.sights false).map Sight.blank = (m.sights false).map Sight.blank) ms qs
  run : (ms.flatMap (Node.sights false)).mapM Sight.analyze (s :: os) =
    (.ok (qs.flatMap (Node.sights false)), u :: os)

theorem Delivered.cons {os : Scopes} {s u v : Scope} {m q : Node} {ms qs : List Node}
    (hq : q.Settled ∧ q.Kept ∧ (q.sights false).map Sight.blank = (m.sights false).map Sight.blank)
    (hm : (m.sights false).mapM Sight.analyze (s :: os) = (.ok (q.sights false), u :: os))
    (h : Delivered os u v ms qs) : Delivered os s v (m :: ms) (q :: qs) where
  fragments := .cons hq h.fragments
  run := by
    rw [List.flatMap_cons, List.flatMap_cons, List.mapM_append, run_bind, hm]
    dsimp only
    rw [run_bind, h.run]
    rfl

/-- A flush delivers fragments up to the one that fails, or all of them. -/
theorem Flushed.of_raw (within : Option Nat) (os : Scopes) {ns : List Node}
    (hn : ∀ n ∈ ns, n.Upper Label.Planted ∧ n.Kept) (s : Scope) :
    ∃ ms qs rest u, ns = ms ++ rest ∧ (of within (s :: os) ns).kids = qs ++ rest ∧
      Delivered os s u ms qs ∧ ((of within (s :: os) ns).failure = none →
        rest = [] ∧ (of within (s :: os) ns).scopes = u :: os) := by
  induction ns generalizing s with
  | nil => exact ⟨[], [], [], s, rfl, rfl, ⟨.nil, rfl⟩, fun _ => ⟨rfl, rfl⟩⟩
  | cons n ns ih =>
    obtain ⟨hu, hk⟩ := hn n (by simp)
    rw [of, if_neg (by simp [hu.flags])]
    rcases hc : n.cascade within (s :: os) with ⟨f | q, us⟩
    · refine ⟨[], [], n :: ns, s, rfl, rfl, ⟨.nil, rfl⟩, ?_⟩
      intro hf
      cases hf
    · have hrun := Node.cascade_sights hu hk.closed hc
      obtain ⟨rfl, -, -⟩ := Sight.mapM_analyze_ok hrun
      obtain ⟨ms, qs, rest, v, rfl, hkids, hd, hend⟩ := ih (fun m hm => hn m (by simp [hm]))
        (s.extend (Sight.named (n.sights false)))
      refine ⟨n :: ms, q :: qs, rest, v, rfl, ?_, hd.cons ?_ hrun, hend⟩
      · rw [List.cons_append, ← hkids]
      · exact ⟨Node.settled_cascade hu hc, hk.cascade hu hc, Node.blank_cascade hu hk.closed hc⟩

namespace Delivered

variable {os : Scopes} {s u : Scope} {ms qs : List Node}

theorem settled (h : Delivered os s u ms qs) : ∀ q ∈ qs, q.Settled ∧ q.Kept :=
  forall_of_forall₂ h.fragments fun _ _ _ hq => ⟨hq.1, hq.2.1⟩

theorem keys (h : Delivered os s u ms qs) : u.keys = s.keys ++ qs.flatMap Node.entered := by
  have hu : u = s.extend (Sight.named (ms.flatMap (Node.sights false))) :=
    (List.cons.inj (Sight.mapM_analyze_ok h.run).1).1
  have hnamed : Sight.named (ms.flatMap (Node.sights false)) = qs.flatMap Node.entered := by
    rw [Sight.named, ← Sight.declared_of_blank (Sight.mapM_analyze_ok h.run).2.1,
      List.filterMap_flatMap, List.map_flatMap]
    exact List.flatMap_congr fun q hq => ((h.settled q hq).1.entered_eq_named).symm
  rw [hu, Scope.keys_extend, hnamed]

theorem distinct (h : Delivered os s u ms qs) (hs : s.Distinct) : u.Distinct := by
  rw [(List.cons.inj (Sight.mapM_analyze_ok h.run).1).1]
  exact Sight.mapM_analyze_distinct h.run hs

end Delivered

namespace Scope.Records

variable {s u : Scope} {os : Scopes} {ks : List Node}

/-- What a flush does to the fragments of a scope. -/
theorem flushed (h : s.Records ks) (within : Option Nat) (os : Scopes) :
    ∃ rs ms qs rest u, ks = rs ++ (ms ++ rest) ∧ (∀ r ∈ rs, r.Settled) ∧
      (∀ n ∈ ms ++ rest, n.Upper Label.Planted) ∧
      (Flushed.of within (s :: os) ks).kids = rs ++ (qs ++ rest) ∧
      Delivered os s u ms qs ∧ ((Flushed.of within (s :: os) ks).failure = none →
        rest = [] ∧ (Flushed.of within (s :: os) ks).scopes = u :: os) := by
  obtain ⟨rs, ps, rfl, hr, hp⟩ := h.order
  have hra : ∀ r ∈ rs, r.flags.analyzed = true := fun r hm => (hr r hm).analyzed
  obtain ⟨ms, qs, rest, u, rfl, hkids, hd, hend⟩ := Flushed.of_raw within os
    (fun n hn => ⟨hp n hn, h.kept n (List.mem_append_right _ hn)⟩) s
  refine ⟨rs, ms, qs, rest, u, rfl, hr, hp, ?_, hd, ?_⟩
  · rw [Flushed.of_append hra, hkids]
  · rw [Flushed.of_append hra]
    exact hend

theorem delivered {rs ms qs rest : List Node} (h : s.Records (rs ++ (ms ++ rest)))
    (hr : ∀ r ∈ rs, r.Settled) (hm : ∀ n ∈ ms ++ rest, n.Upper Label.Planted)
    (hd : Delivered os s u ms qs) : u.Records (rs ++ qs) where
  kept k hk := by
    rcases List.mem_append.mp hk with hk | hk
    · exact h.kept k (List.mem_append_left _ hk)
    · exact (hd.settled k hk).2
  order := by
    refine ⟨rs ++ qs, [], by simp, ?_, by simp⟩
    intro k hk
    rcases List.mem_append.mp hk with hk | hk
    · exact hr k hk
    · exact (hd.settled k hk).1
  keys := by
    have hraw : (ms ++ rest).flatMap Node.entered = [] :=
      List.flatMap_eq_nil_iff.mpr fun n hn => (hm n hn).raw.entered
    rw [hd.keys, h.keys, List.flatMap_append, hraw, List.append_nil, List.flatMap_append]
  distinct := hd.distinct h.distinct

/-- After a flush that does not fail all fragments of the scope are settled. -/
theorem flush (h : s.Records ks) (within : Option Nat) (os : Scopes)
    (hf : (Flushed.of within (s :: os) ks).failure = none) :
    ∃ u, (Flushed.of within (s :: os) ks).scopes = u :: os ∧
      u.Records (Flushed.of within (s :: os) ks).kids ∧
      ∀ k ∈ (Flushed.of within (s :: os) ks).kids, k.Settled := by
  obtain ⟨rs, ms, qs, rest, u, rfl, hr, hm, hkids, hd, hend⟩ := h.flushed within os
  obtain ⟨rfl, hs⟩ := hend hf
  have hrec := h.delivered hr hm hd
  have hnil : rs ++ (qs ++ []) = rs ++ qs := by rw [List.append_nil]
  rw [hkids, hnil]
  refine ⟨u, hs, hrec, ?_⟩
  intro k hk
  rcases List.mem_append.mp hk with hk | hk
  · exact hr k hk
  · exact (hd.settled k hk).1

theorem ready (h : s.Records ks) :
    (ks.filter (·.isReady)).flatMap Node.entered = ks.flatMap Node.entered := by
  obtain ⟨rs, ps, rfl, hr, hp⟩ := h.order
  have hready : ∀ r ∈ rs, r.isReady = true := fun r hm => (hr r hm).isReady
  have hps : ps.flatMap Node.entered = [] :=
    List.flatMap_eq_nil_iff.mpr fun p hm => (hp p hm).raw.entered
  rw [(Tree.filter_ready hready fun p hm => (hp p hm).raw).1, List.flatMap_append, hps,
    List.append_nil]

end Scope.Records

namespace Tree

variable {t u : Tree} {tok : Token} {f : Option Failure} {n : Node} {path ks : List Node}
  {s : Scope} {os : Scopes}

/-! The fragments and the scope at the cursor. -/

/-- The closed nodes right below the cursor. -/
def collected (t : Tree) : List Node :=
  match t.path with
  | [] => t.fragments
  | n :: _ => n.kids

/-- The tree with other fragments and another scope at the cursor. -/
def refit (t : Tree) (ks : List Node) (s : Scope) : Tree :=
  match t.path with
  | [] => { t with fragments := ks, globals := s }
  | n :: path => { t with path := (Node.mk n.label ks).setScope s :: path }

/-- A flush works on the fragments and the scope at the cursor alone. -/
theorem flush_refit (h : t.atScope = true) : ∃ s os u, t.scopes = s :: os ∧
    (Flushed.of t.innerBlock (s :: os) t.collected).scopes = u :: os ∧
    t.flush.tree = t.refit (Flushed.of t.innerBlock (s :: os) t.collected).kids u ∧
    t.flush.failure = (Flushed.of t.innerBlock (s :: os) t.collected).failure := by
  have hof : ∀ s os, ∃ u, (Flushed.of t.innerBlock (s :: os) t.collected).scopes = u :: os := by
    intro s os
    obtain ⟨js, new, ev, fl, he, -⟩ := Flushed.of_alike t.innerBlock t.collected
      (.refl s) (List.forall₂_same.mpr fun (o : Scope) (_ : o ∈ os) => .refl o)
    exact ⟨_, by rw [he]⟩
  cases hp : t.path with
  | nil =>
    obtain ⟨u, hu⟩ := hof t.globals []
    refine ⟨t.globals, [], u, by simp [scopes, hp], hu, ?_⟩
    simp only [collected, hp] at hu
    simp [flush, refit, collected, scopes, hp, hu]
  | cons n path =>
    rw [atScope, hp] at h
    obtain ⟨kind, s, hf⟩ := Label.isBlock_iff.mp h
    have hsc : n.scope? = some s := by rw [Node.scope?, Node.form, hf]
    have hscopes : t.scopes = s :: (path.filterMap Node.scope? ++ [t.globals]) := by
      simp [scopes, hp, hsc]
    obtain ⟨u, hu⟩ := hof s (path.filterMap Node.scope? ++ [t.globals])
    refine ⟨s, _, u, hscopes, hu, ?_⟩
    simp only [collected, hp] at hu
    simp [flush, refit, collected, hp, hscopes, hu]

theorem collected_refit (t : Tree) (ks : List Node) (s : Scope) :
    (t.refit ks s).collected = ks := by
  unfold refit
  split
  · next hp => simp [collected, hp]
  · next n path hp => rw [collected, Node.setScope_eq]; rfl

/-- Every scope of the tree, open or closed, records its fragments. -/
structure Kept (t : Tree) : Prop where
  root : t.globals.Records t.fragments
  kids : ∀ n ∈ t.path, ∀ k ∈ n.kids, k.Kept
  blocks : ∀ n ∈ t.path, ∀ kind s, n.form = .block kind s →
    n.label.opener = some .openBlock ∧ s.Records n.kids

theorem Kept.records (h : t.Kept) (ha : t.atScope = true) (hs : t.scopes = s :: os) :
    s.Records t.collected := by
  cases hp : t.path with
  | nil =>
    simp only [scopes, hp, List.filterMap_nil, List.nil_append, List.cons.injEq] at hs
    simp only [collected, hp, ← hs.1]
    exact h.root
  | cons n path =>
    rw [atScope, hp] at ha
    obtain ⟨kind, s', hf⟩ := Label.isBlock_iff.mp ha
    have hsc : n.scope? = some s' := by rw [Node.scope?, Node.form, hf]
    simp only [scopes, hp, List.filterMap_cons, hsc, List.cons_append, List.cons.injEq] at hs
    simp only [collected, hp, ← hs.1]
    exact (h.blocks n (by simp [hp]) kind s' hf).2

theorem Kept.refit (h : t.Kept) (hr : s.Records ks) : (t.refit ks s).Kept := by
  unfold Tree.refit
  split
  · next hp =>
    refine ⟨hr, ?_, ?_⟩
    · simp [hp]
    · simp [hp]
  · next n path hp =>
    refine ⟨h.root, ?_, ?_⟩
    · intro m hm
      rcases List.mem_cons.mp hm with rfl | hm
      · rw [Node.setScope_eq]
        exact hr.kept
      · exact h.kids m (by simp [hp, hm])
    · intro m hm kind s' hf
      rcases List.mem_cons.mp hm with rfl | hm
      · rw [Node.setScope, Node.form_mk] at hf ⊢
        split at hf
        · next k₀ s₀ hn =>
          obtain ⟨ho, -⟩ := h.blocks n (by simp [hp]) k₀ s₀ hn
          obtain ⟨rfl, rfl⟩ : k₀ = kind ∧ s = s' := by simpa using hf
          exact ⟨ho, hr⟩
        · next hn => exact (hn kind s' hf).elim
      · exact h.blocks m (by simp [hp, hm]) kind s' hf

theorem Kept.append (h : t.Kept) (hn : n.Kept) (hu : n.Upper Label.Planted) :
    (t.append n).Kept := by
  refine ⟨?_, forall_path_append h.kids ?_, forall_path_append h.blocks ?_⟩
  · unfold Tree.append
    split
    · exact h.root.push hn hu
    · exact h.root
  · intro m hm
    exact List.forall_mem_append.mpr ⟨hm, by simpa using hn⟩
  · intro m hm kind s hf
    obtain ⟨ho, hr⟩ := hm kind s hf
    exact ⟨ho, hr.push hn hu⟩

theorem Kept.flush (h : t.Kept) (ha : t.atScope = true) (hf : t.flush.failure = none) :
    t.flush.tree.Kept ∧ ∀ k ∈ t.flush.tree.collected, k.Settled := by
  obtain ⟨s, os, u, hs, hu, ht, hfail⟩ := flush_refit ha
  obtain ⟨v, hv, hr, hset⟩ := (h.records ha hs).flush t.innerBlock os (hfail ▸ hf)
  obtain rfl : u = v := (List.cons.inj (hu.symm.trans hv)).1
  rw [ht, collected_refit]
  exact ⟨h.refit hr, hset⟩

/-- Whether or not a flush fails, it leaves kept fragments. -/
theorem Kept.flush_fragments (h : t.Kept) (ha : t.atScope = true) :
    ∀ n ∈ t.flush.tree.fragments, n.Kept := by
  obtain ⟨s, os, u, hs, -, ht, -⟩ := flush_refit ha
  obtain ⟨rs, ms, qs, rest, v, hk, -, -, hkids, hd, -⟩ := (h.records ha hs).flushed t.innerBlock os
  have hkept : ∀ n ∈ rs ++ (qs ++ rest), n.Kept := by
    intro n hn
    have hold : ∀ n ∈ t.collected, n.Kept := (h.records ha hs).kept
    rw [hk] at hold
    simp only [List.mem_append] at hn hold
    rcases hn with hn | hn | hn
    · exact hold n (Or.inl hn)
    · exact (hd.settled n hn).2
    · exact hold n (Or.inr (Or.inr hn))
  rw [ht, hkids]
  unfold Tree.refit
  split
  · exact hkept
  · exact h.root.kept

/-- The node that a closing marker closes has taken in all that is below it. -/
theorem Kept.closing (h : t.Kept) (hs : t.Staged) (hc : t.Closing tok u) : u.Kept ∧
    ∀ n path, u.path = n :: path → n.isBlock = true → ∀ k ∈ n.kids, k.Settled := by
  rcases hs.closing_cases hc with ⟨rfl, ho⟩ | ⟨ha, rfl, hf⟩
  · refine ⟨h, ?_⟩
    intro n path hp hb
    obtain ⟨kind, s, hf⟩ := Label.isBlock_iff.mp hb
    exact (ho n path hp (h.blocks n (by simp [hp]) kind s hf).1).elim
  · obtain ⟨hk, hset⟩ := h.flush ha hf
    refine ⟨hk, ?_⟩
    intro n path hp _
    simpa [collected, hp] using hset

theorem Kept.leave (h : t.Kept) (hs : t.Staged)
    (hb : ∀ n path, t.path = n :: path → n.isBlock = true → ∀ k ∈ n.kids, k.Settled) :
    t.leave.Kept := by
  cases hp : t.path with
  | nil =>
    rw [Tree.leave, hp]
    exact h
  | cons n path =>
    have hbud := hs.path n (by simp [hp])
    rw [leave_cons hp]
    refine Kept.append ⟨h.root, ?_, ?_⟩ ?_ (hbud.shut _)
    · exact fun m hm => h.kids m (by simp [hp, hm])
    · exact fun m hm => h.blocks m (by simp [hp, hm])
    · have hfl := hbud.upper.flags
      obtain ⟨l, ks⟩ := n
      rw [Node.flags_mk] at hfl
      refine Node.kept_mk (by simp [hfl]) (h.kids _ (by simp [hp])) ?_
      intro kind s hf
      have hr := (h.blocks _ (by simp [hp]) kind s hf).2
      exact ⟨hb _ path hp (Label.isBlock_iff.mpr ⟨kind, s, hf⟩), hr.keys, hr.distinct⟩

theorem kept_fresh : ({} : Tree).Kept := ⟨.nil rfl, by simp, by simp⟩

/-- Placing a token keeps the fragments, and the open nodes unless it fails. -/
theorem Kept.place (h : t.Kept) (hs : t.Staged) (hp : t.Placed tok u f) :
    (∀ n ∈ u.fragments, n.Kept) ∧ (f = none → u.Kept) := by
  have hflush : ∀ v : Tree, v.Kept → v.atScope = true →
      (∀ n ∈ v.flush.tree.fragments, n.Kept) ∧ (v.flush.failure = none → v.flush.tree.Kept) :=
    fun v hv ha => ⟨hv.flush_fragments ha, fun hf => (hv.flush ha hf).1⟩
  have hleave : ∀ v, t.Closing tok v → v.leave.Kept := by
    intro v hv
    obtain ⟨hk, hb⟩ := h.closing hs hv
    exact hk.leave (hs.closing hv) hb
  cases hp with
  | refused f _ => exact ⟨h.root.kept, fun _ => h⟩
  | awaiting _ => exact ⟨h.root.kept, fun _ => ⟨h.root, h.kids, h.blocks⟩⟩
  | leaf k hk _ =>
    have hb : (Label.ofToken tok t.clock).isBlock = false := by
      rw [Bool.eq_false_iff]
      intro hb
      obtain ⟨kind, s, hf⟩ := Label.isBlock_iff.mp hb
      exact hk _ (Token.kind_of_block hf).1
    have hn := h.append (Node.kept_sprout t.clock k none hb) (Node.upper_sprout tok t.clock k none)
    exact ⟨hn.root.kept, fun _ => hn⟩
  | entered k m hk _ =>
    refine ⟨h.root.kept, fun _ => ⟨h.root, ?_, ?_⟩⟩
    · intro n hn
      rcases List.mem_cons.mp hn with rfl | hn
      · simp [Node.sprout]
      · exact h.kids n hn
    · intro n hn kind s hf
      rcases List.mem_cons.mp hn with rfl | hn
      · obtain ⟨hb, rfl⟩ := Node.form_sprout hf
        refine ⟨?_, .nil rfl⟩
        rcases hk with ⟨hm, -⟩ | ⟨-, hm⟩
        · rw [hb] at hm
          cases hm
          rfl
        · exact (hm _ hb).elim
      · exact h.blocks n hn kind s hf
  | flushed _ ha => exact hflush t h ha
  | blocked f n path hp hc _ => exact ⟨h.flush_fragments (hs.atScope_of_closedBy hp hc), by simp⟩
  | left v hv _ => exact ⟨(hleave v hv).root.kept, fun _ => hleave v hv⟩
  | delivered v hv ha => exact hflush v.leave (hleave v hv) ha

/-! Discarding and evaluating. -/

theorem Grown.records {rs : List Node} {g : Scope} (h : u.Grown rs g []) (hs : u.Staged)
    (hr : ∀ r ∈ rs, r.isReady = true) (hg : g.keys = rs.flatMap Node.entered)
    (hk : ∀ n ∈ u.fragments, n.Kept) (hd : u.globals.Distinct) : u.globals.Records u.fragments where
  kept := hk
  order := by
    obtain ⟨qs, ps, hf, hq, hp, -, -⟩ := h.parts
    refine ⟨rs ++ qs, ps, hf, ?_, ?_⟩
    · intro r hm
      have hmem : r ∈ u.fragments := by
        rw [hf]
        exact List.mem_append_left _ hm
      refine (hs.fragments r hmem).settled_of_ready ?_
      exact (List.mem_append.mp hm).elim (hr r) (hq r)
    · intro p hm
      have hmem : p ∈ u.fragments := by
        rw [hf]
        exact List.mem_append_right _ hm
      refine (hs.fragments p hmem).upper_of_not_analyzed ?_
      simp [(hp p hm).flags.1]
  keys := by
    obtain ⟨qs, ps, hf, hq, hp, hglob, -⟩ := h.parts
    have hps : ps.flatMap Node.entered = [] :=
      List.flatMap_eq_nil_iff.mpr fun p hm => (hp p hm).entered
    have hqs : qs.flatMap (Node.declarations false) = qs.flatMap Node.entered := by
      refine List.flatMap_congr fun q hm => ?_
      have hset := (hs.fragments q (by simp [hf, hm])).settled_of_ready (hq q hm)
      rw [hset.entered_eq_named, hset.named_sights (by simp)]
    rw [hglob, hf, Scope.keys_extend, List.append_nil, hqs, hg, List.flatMap_append, hps,
      List.append_nil, List.flatMap_append]
  distinct := hd

/-- Discarding keeps the fragments that are ready, with their declarations. -/
theorem Kept.of_reset {rs : List Node} {g : Scope} {extra : List Key} (h : t.Grown rs g extra)
    (hr : ∀ r ∈ rs, r.isReady = true) (hk : ∀ k ∈ g.keys, k ∈ rs.flatMap Node.identifiers)
    (hn : t.Numbered) (hs : t.Staged) (hg : g.keys = rs.flatMap Node.entered)
    (hkept : ∀ n ∈ t.fragments, n.Kept) (hc : g.Covered) (hd : t.globals.Distinct) :
    t.reset.tree.Kept := by
  have hfr := reset_fragments h.opened
  obtain ⟨qs, ps, -, hq, -, he⟩ := h.reset hr hk hn hc hd
  have hpath : t.reset.tree.path = [] := by rw [he]
  refine ⟨Grown.records ⟨⟨qs, [], ?_, hq, by simp, ?_, by simp⟩, ?_⟩ hs.reset.tree hr hg ?_
    (distinct_reset hd), ?_, ?_⟩
  · rw [he, List.append_nil]
  · rw [he, List.append_nil]
  · simp [hpath]
  · rw [hfr]
    exact fun n hm => hkept n (List.mem_of_mem_filter hm)
  · simp [hpath]
  · simp [hpath]

theorem Kept.reset (h : t.Kept) (hs : t.Staged) (hso : t.Sound) : t.reset.tree.Kept := by
  obtain ⟨hr, hk, hg⟩ := hso.grown
  exact .of_reset hg hr hk hso.numbered hs (by rw [h.root.keys, h.root.ready]) h.root.kept
    hso.covered h.root.distinct

theorem Kept.insert (h : t.Kept) (hs : t.Staged) (hso : t.Sound) (tok : Token) :
    (t.insert tok).tree.Kept := by
  have hp := placed_place { t with clock := t.clock + 1 } tok
  have hst : ({ t with clock := t.clock + 1 } : Tree).Staged := ⟨hs.fragments, hs.path⟩
  have hkt : ({ t with clock := t.clock + 1 } : Tree).Kept := ⟨h.root, h.kids, h.blocks⟩
  obtain ⟨hfr, hok⟩ := hkt.place hst hp
  rcases insert_tree t tok with ⟨hf, he, -⟩ | ⟨f, hf, he, -⟩
  · rw [he]
    exact hok hf
  · rw [he]
    obtain ⟨hr, hk, hg⟩ := hso.grown
    obtain ⟨extra, hgp, -⟩ := hg.tick.place hr hp
    exact .of_reset hgp hr hk (hso.numbered.place tok) (hst.place tok).tree
      (by rw [h.root.keys, h.root.ready]) hfr hso.covered (distinct_place hp h.root.distinct)

end Tree

theorem Node.Staged.entered_subset {n : Node} (h : n.Staged) {k : Key} (hk : k ∈ n.entered) :
    k ∈ n.identifiers := by
  rcases h with hs | hu
  · rw [hs.entered_eq_named, hs.named_sights (by simp)] at hk
    exact declarations_subset hk
  · rw [hu.raw.entered] at hk
    cases hk

section Evaluation

variable {σ : Type} {d : Option (Dispatcher σ)} {m m' : Machine σ} {n n' : Node}

theorem Node.Kept.evaluate (h : n.Kept) (he : n.evaluate d m = (.ok n', m')) : n'.Kept := by
  have hloose : n'.loose = n.loose := by
    refine fold_evaluate (fun l => ?_) he
    have hb : l.contour.isBlock = l.isBlock := by
      simp only [Label.isBlock, Label.contour]
      cases l.form <;> rfl
    have ho : l.contour.isOperator = l.isOperator := by
      simp only [Label.isOperator, Label.contour]
      cases l.form <;> rfl
    funext parts
    rw [looseStep.eq_def, looseStep.eq_def, hb, ho]
    rfl
  have hstrays : n'.strays = n.strays := fold_outline strayStep_faithful (outline_evaluate he)
  have hfl : n'.flags.analyzed = n.flags.analyzed := by
    obtain ⟨-, out, -, -, -, hall⟩ := dispatches_evaluate d n m
    rw [(hall n' (by rw [he])).2.2]
  refine ⟨?_, ?_, ?_, ?_⟩
  · rw [Node.Sealed, hloose]
    exact h.closed
  · rw [sights_evaluate he]
    exact h.entries
  · rw [hstrays]
    exact h.housed
  · rw [hstrays, hfl]
    exact h.analyzed

theorem Progress.Pass.kept {ns ns' : List Node} {vs : List Value} (h : Pass d m ns ns' vs m')
    (hk : ∀ n ∈ ns, n.Kept) : ∀ n ∈ ns', n.Kept := by
  induction h with
  | nil => exact hk
  | skip _ _ ih =>
    intro n hn
    rcases List.mem_cons.mp hn with rfl | hn
    · exact hk _ (by simp)
    · exact ih (fun k hm => hk k (by simp [hm])) n hn
  | step _ _ _ he _ ih =>
    intro n hn
    rcases List.mem_cons.mp hn with rfl | hn
    · exact (hk _ (by simp)).evaluate he
    · exact ih (fun k hm => hk k (by simp [hm])) n hn

theorem Progress.Pass.entered {ns ns' : List Node} {vs : List Value} (h : Pass d m ns ns' vs m') :
    ns'.flatMap Node.entered = ns.flatMap Node.entered := by
  have hs := h.sights false
  have he : ∀ ks : List Node, ks.flatMap Node.entered =
      (ks.map (Node.sights false)).flatMap (List.filterMap Sight.entered?) := by
    intro ks
    rw [List.flatMap_map]
    rfl
  rw [he, hs, ← he]

theorem Tree.Sound.order {t : Tree} (h : t.Sound) (hs : t.Staged) : ∃ rs ps,
    t.fragments = rs ++ ps ∧ (∀ r ∈ rs, r.Settled) ∧ ∀ p ∈ ps, p.Upper Label.Planted := by
  obtain ⟨rs, ps, hf, hr, hp, -⟩ := h.parts
  refine ⟨rs, ps, hf, ?_, ?_⟩
  · exact fun r hm => (hs.fragments r (by simp [hf, hm])).settled_of_ready (hr r hm)
  · intro p hm
    refine (hs.fragments p (by simp [hf, hm])).upper_of_not_analyzed ?_
    simp [(hp p hm).flags.1]

/-- A fragment that fails takes its own declarations away, and no others. -/
theorem Tree.Kept.evaluate {t : Tree} (h : t.Kept) (hs : t.Staged) (hso : t.Sound)
    (d : Option (Dispatcher σ)) (w : σ) (cancelled : Bool) (interrupts : List Bool) :
    (t.evaluate d w cancelled interrupts).tree.Kept := by
  have horder :=
    (hso.evaluate d w cancelled interrupts).order (hs.evaluate d w cancelled interrupts).1
  obtain ⟨ks, ks', rest, rest', vs, m', m'', stop, hns, hpass, hend, ho⟩ :=
    Progress.of_cases d interrupts ⟨[t.globals], w, cancelled, []⟩ t.fragments
  obtain ⟨-, -, hscopes, -⟩ := hpass.keeps
  obtain ⟨g, hg, hgo⟩ := List.map_eq_singleton_iff.mp hscopes
  have hgk : g.keys = t.globals.keys := (Scope.Alike.of_outline hgo).keys
  obtain ⟨g', hg', hcase⟩ := hend.keeps hg
  have hkept : ∀ n ∈ ks ++ rest, n.Kept := hns ▸ h.root.kept
  have hglob : g.keys = ks'.flatMap Node.entered ++ rest.flatMap Node.entered := by
    rw [hgk, h.root.keys, hns, List.flatMap_append, hpass.entered]
  have hdist : g.Distinct := h.root.distinct.of_outline hgo
  simp only [Tree.evaluate, ho, hg', List.head?_cons, Option.getD_some] at horder ⊢
  have hks : ∀ n ∈ ks', n.Kept := hpass.kept fun n hn => hkept n (List.mem_append_left _ hn)
  rcases hcase with ⟨rfl, rfl⟩ | ⟨n, u, rfl, -, hu, rfl⟩
  · refine ⟨⟨?_, horder, by rw [hglob, List.flatMap_append], hdist⟩, h.kids, h.blocks⟩
    intro n hn
    rcases List.mem_append.mp hn with hn | hn
    · exact hks n hn
    · exact hkept n (List.mem_append_right _ hn)
  · refine ⟨⟨?_, horder, ?_, ?_⟩, h.kids, h.blocks⟩
    · intro k hk
      rcases List.mem_append.mp hk with hk | hk
      · exact hks k hk
      · exact hkept k (by simp [hk])
    · have hstaged : ∀ k ∈ ks ++ n :: rest', k.Staged := hns ▸ hs.fragments
      have hd := hso.numbered.distinct
      simp only [Tree.identifiers, hns, List.flatMap_append, List.flatMap_cons, List.map_append,
        List.append_assoc, List.nodup_append, List.mem_append] at hd
      -- The failed fragment has variables of its own.
      have hout : ∀ ns : List Node, (∀ i ∈ ns, i.Staged) →
          (∀ k ∈ ns.flatMap Node.identifiers, k ∉ n.identifiers) →
          (ns.flatMap Node.entered).filter (· ∉ n.identifiers) = ns.flatMap Node.entered := by
        intro ns hns hdis
        refine List.filter_eq_self.mpr fun k hk => ?_
        obtain ⟨i, hi, hk⟩ := List.mem_flatMap.mp hk
        simpa using hdis k (List.mem_flatMap.mpr ⟨i, hi, (hns i hi).entered_subset hk⟩)
      have hin : n.entered.filter (· ∉ n.identifiers) = [] := by
        refine List.filter_eq_nil_iff.mpr fun k hk => ?_
        simpa using (hstaged n (by simp)).entered_subset hk
      rw [Scope.keys_without, (Scope.Alike.of_outline hu).keys, hglob, hpass.entered,
        List.flatMap_cons, List.filter_append, List.filter_append,
        hin, List.nil_append, hout ks, hout rest', List.flatMap_append, hpass.entered]
      · exact fun i hi => hstaged i (by simp [hi])
      · intro k hk hkn
        exact hd.2.1.2.2 _ (List.mem_map_of_mem hkn) _ (Or.inl (List.mem_map_of_mem hk)) rfl
      · exact fun i hi => hstaged i (by simp [hi])
      · intro k hk hkn
        exact hd.2.2 _ (List.mem_map_of_mem hk) _ (Or.inl (List.mem_map_of_mem hkn)) rfl
    · exact (hdist.of_outline hu).without _

end Evaluation

theorem Tree.Reachable.kept {t : Tree} (h : t.Reachable) : t.Kept := by
  refine h.invariant kept_fresh ?_ ?_ ?_
  · exact fun _ tok hr ht => ht.insert hr.staged hr.sound tok
  · exact fun _ hr ht => ht.reset hr.staged hr.sound
  · exact fun _ d w cancelled interrupts hr ht =>
      ht.evaluate hr.staged hr.sound d w cancelled interrupts

end TokenShell
