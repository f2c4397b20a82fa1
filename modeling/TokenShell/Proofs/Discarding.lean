import Mathlib.Data.List.Flatten
import TokenShell.Proofs.Evaluation
import TokenShell.Proofs.Growth
import TokenShell.Proofs.Run

/-! Discarding is exact: a reset leaves the fragments that are ready with their declarations, and
nothing else of what was inserted. -/
namespace TokenShell

namespace Scope

variable {s : Scope} {a b ks : List Key}

/-- A scope without some of its declarations and their values. -/
def without (s : Scope) (ks : List Key) : Scope :=
  { s with
    keys := s.keys.filter (· ∉ ks)
    cells := s.cells.filter fun c => s.keys.all fun k => ¬ (k ∈ ks ∧ k.1 = c.1) }

theorem without_nil (s : Scope) : s.without [] = s := by
  rw [without, List.filter_eq_self.mpr fun k _ => by simp,
    List.filter_eq_self.mpr fun c _ => by simp]

theorem keys_without (s : Scope) (ks : List Key) :
    (s.without ks).keys = s.keys.filter (· ∉ ks) := rfl

theorem mem_cells_without {c : Bytes × Value} : c ∈ (s.without ks).cells ↔
    c ∈ s.cells ∧ ∀ k ∈ s.keys, k ∈ ks → k.1 ≠ c.1 := by
  simp only [without, List.mem_filter, List.all_eq_true, decide_eq_true_eq, not_and, ne_eq]

theorem without_append (s : Scope) (a b : List Key) :
    s.without (a ++ b) = (s.without a).without b := by
  simp only [without, List.filter_filter, List.mem_append, not_or, Bool.decide_and]
  congr 1
  · exact List.filter_congr fun e _ => Bool.and_comm _ _
  · refine List.filter_congr fun c _ => ?_
    rw [Bool.eq_iff_iff]
    simp only [Bool.and_eq_true, List.all_eq_true, List.mem_filter, decide_eq_true_eq, not_and]
    constructor
    · exact fun h => ⟨fun k hk hb => h k hk.1 (Or.inr hb), fun k hk ha => h k hk (Or.inl ha)⟩
    · rintro ⟨hb, ha⟩ k hk hm
      by_cases hka : k ∈ a
      · exact ha k hk hka
      · exact hb k ⟨hk, hka⟩ (hm.resolve_left hka)

theorem retract_eq (s : Scope) (name : Bytes) (declarer : Nat) :
    s.retract name declarer = s.without [(name, declarer)] := by
  simp only [retract, without, List.mem_singleton, List.contains_iff_mem]
  split
  · next h =>
    congr 1
    refine List.filter_congr fun c _ => ?_
    rw [Bool.eq_iff_iff]
    simp only [List.all_eq_true, decide_eq_true_eq, not_and]
    constructor
    · rintro hc k - rfl
      exact fun he => hc he.symm
    · exact fun hc he => hc _ h rfl he.symm
  · next h =>
    have hne : ∀ k ∈ s.keys, k ≠ (name, declarer) := by
      rintro k hk rfl
      exact h hk
    have hk : s.keys.filter (fun k => decide ¬k = (name, declarer)) = s.keys :=
      List.filter_eq_self.mpr fun k hk => decide_eq_true (hne k hk)
    have hc : s.cells.filter
        (fun c => s.keys.all fun k => ¬ (k = (name, declarer) ∧ k.1 = c.1)) = s.cells := by
      refine List.filter_eq_self.mpr fun c _ => List.all_eq_true.mpr fun k hk => ?_
      exact decide_eq_true fun he => hne k hk he.1
    rw [hk, hc]

theorem rollback_eq (s : Scope) (n : Node) : s.rollback n = s.without n.identifiers := by
  have hlabels : n.labels.filterMap Label.variableKey? = n.identifiers := by
    induction n using Node.induct with
    | h l ks ih =>
      have hks : (ks.map Node.labels).flatten.filterMap Label.variableKey? =
          ks.flatMap Node.identifiers := by
        rw [List.filterMap_flatten, List.map_map, List.flatMap_def]
        exact congrArg _ (List.map_congr_left ih)
      rw [Node.identifiers_mk, ← hks, Node.labels, Node.fold_mk, List.filterMap_cons]
      cases l.variableKey? <;> rfl
  rw [← hlabels, rollback]
  generalize n.labels = ls
  induction ls generalizing s with
  | nil => exact s.without_nil.symm
  | cons l ls ih =>
    rw [List.foldl_cons, ih, List.filterMap_cons]
    unfold Label.variableKey?
    cases l.form with
    | «variable» d b =>
      rw [retract_eq, ← without_append]
      rfl
    | _ => rfl

theorem foldl_rollback (s : Scope) (ns : List Node) :
    ns.foldl rollback s = s.without (ns.flatMap Node.identifiers) := by
  induction ns generalizing s with
  | nil => exact s.without_nil.symm
  | cons n ns ih => rw [List.foldl_cons, ih, rollback_eq, ← without_append, List.flatMap_cons]

theorem without_extend (hk : ∀ k ∈ s.keys ++ a, k ∉ ks) (hb : ∀ k ∈ b, k ∈ ks)
    (hd : (s.extend (a ++ b)).Distinct) (hc : s.Covered) :
    (s.extend (a ++ b)).without ks = s.extend a := by
  have hkeys : (s.keys ++ (a ++ b)).filter (· ∉ ks) = s.keys ++ a := by
    rw [← List.append_assoc, List.filter_append]
    have hs : (s.keys ++ a).filter (· ∉ ks) = s.keys ++ a :=
      List.filter_eq_self.mpr fun k hm => decide_eq_true (hk k hm)
    have he : b.filter (· ∉ ks) = [] :=
      List.filter_eq_nil_iff.mpr fun k hm h => of_decide_eq_true h (hb k hm)
    rw [hs, he, List.append_nil]
  have hcells : s.cells.filter
      (fun c => (s.keys ++ (a ++ b)).all fun k => ¬ (k ∈ ks ∧ k.1 = c.1)) = s.cells := by
    refine List.filter_eq_self.mpr fun c hm => List.all_eq_true.mpr fun k hks => ?_
    rw [decide_eq_true_eq]
    rintro ⟨hin, he⟩
    obtain ⟨j, hj, hje⟩ := declares_iff.mp (hc c hm)
    rw [← List.append_assoc] at hks
    have hkb := (List.mem_append.mp hks).resolve_left fun h => hk k h hin
    rw [Distinct, keys_extend, ← List.append_assoc, List.map_append, List.nodup_append] at hd
    exact hd.2.2 _ (List.mem_map_of_mem (List.mem_append_left _ hj)) _
      (List.mem_map_of_mem hkb) (hje.trans he.symm)
  simp only [without, extend, hkeys, hcells]

theorem Covered.without (h : s.Covered) (ks : List Key) : (s.without ks).Covered := by
  intro c hc
  obtain ⟨hm, hn⟩ := mem_cells_without.mp hc
  obtain ⟨k, hk, he⟩ := declares_iff.mp (h c hm)
  refine declares_iff.mpr ⟨k, List.mem_filter.mpr ⟨hk, decide_eq_true fun hin => ?_⟩, he⟩
  exact hn k hk hin he

theorem Distinct.without (h : s.Distinct) (ks : List Key) : (s.without ks).Distinct :=
  h.sublist (List.filter_sublist.map _)

end Scope

namespace Tree

variable {t u : Tree} {rs path : List Node} {g : Scope} {extra : List Key}

theorem gather_openFragment {β : Type} (own : Label → List β) (path : List Node) :
    (openFragment path).toList.flatMap (Node.gather own) =
      path.reverse.flatMap (Node.gather own) := by
  cases path with
  | nil => rfl
  | cons n path =>
    simp only [openFragment, Option.toList_some, List.flatMap_singleton]
    induction path generalizing n with
    | nil => simp
    | cons p path ih =>
      rw [List.foldl_cons, ih]
      simp [Node.gather_push]

/-- The open fragment has the variables of the path, and is not analyzed if the path is not. -/
theorem openFragment_spec (path : List Node) :
    (openFragment path).toList.flatMap Node.identifiers = path.reverse.flatMap Node.identifiers ∧
      ((∀ k ∈ path, k.Raw) → ∀ m ∈ (openFragment path).toList, m.Raw) := by
  refine ⟨gather_openFragment _ path, ?_⟩
  cases path with
  | nil => simp [openFragment]
  | cons n path =>
    intro h m hm
    obtain rfl : m = path.foldl (fun n p => p.push n) n := by simpa [openFragment] using hm
    clear hm
    induction path generalizing n with
    | nil => exact h n (by simp)
    | cons p path ih =>
      refine ih _ fun k hk => ?_
      rcases List.mem_cons.mp hk with rfl | hk
      · exact Node.raw_push (h p (by simp)) (h n (by simp))
      · exact h k (by simp [hk])

theorem mem_roots {n : Node} : n ∈ t.roots ↔ n ∈ t.fragments ∨
    ∃ m path, t.path = m :: path ∧ n = path.foldl (fun n p => p.push n) m := by
  cases hp : t.path <;> simp [roots, openFragment, hp]

theorem filter_ready {rs ps : List Node} (hr : ∀ r ∈ rs, r.isReady = true) (hp : ∀ p ∈ ps, p.Raw) :
    (rs ++ ps).filter (·.isReady) = rs ∧ (rs ++ ps).filter (!·.isReady) = ps := by
  have h1 : rs.filter (·.isReady) = rs := List.filter_eq_self.mpr hr
  have h2 : ps.filter (·.isReady) = [] :=
    List.filter_eq_nil_iff.mpr fun p h => by simp [(hp p h).not_ready]
  have h3 : rs.filter (!·.isReady) = [] :=
    List.filter_eq_nil_iff.mpr fun r h => by simp [hr r h]
  have h4 : ps.filter (!·.isReady) = ps :=
    List.filter_eq_self.mpr fun p h => by simp [(hp p h).not_ready]
  exact ⟨by rw [List.filter_append, h1, h2, List.append_nil], by
    rw [List.filter_append, h3, h4, List.nil_append]⟩

theorem distinct_reset (h : t.globals.Distinct) : t.reset.tree.globals.Distinct := by
  rw [reset, Scope.foldl_rollback]
  exact h.without _

/-- A reset keeps the fragments that are ready and what they have declared. -/
theorem Grown.reset (h : t.Grown rs g extra) (hr : ∀ r ∈ rs, r.isReady = true)
    (hk : ∀ k ∈ g.keys, k ∈ rs.flatMap Node.identifiers) (hn : t.Numbered)
    (hc : g.Covered) (hd : t.globals.Distinct) :
    ∃ qs ps, t.roots = rs ++ (qs ++ ps) ∧ (∀ q ∈ qs, q.isReady = true) ∧ (∀ p ∈ ps, p.Raw) ∧
      t.reset.tree = { t with
        fragments := rs ++ qs
        path := []
        expectHead := false
        globals := g.extend (qs.flatMap (Node.declarations false)) } := by
  obtain ⟨⟨qs, ps, hf, hq, hp, hg, he⟩, ho⟩ := h
  obtain ⟨hoi, hor⟩ := openFragment_spec t.path
  have hready : ∀ r ∈ rs ++ qs, r.isReady = true := fun r hm =>
    (List.mem_append.mp hm).elim (hr r) (hq r)
  have hraw : ∀ p ∈ ps ++ (openFragment t.path).toList, p.Raw := fun p hm =>
    (List.mem_append.mp hm).elim (hp p) (hor (fun n hn => (ho n hn).raw) p)
  have hroots : t.roots = (rs ++ qs) ++ (ps ++ (openFragment t.path).toList) := by
    simp [roots, hf]
  obtain ⟨hkept, hdropped⟩ := filter_ready hready hraw
  have hids : t.identifiers = (rs ++ qs).flatMap Node.identifiers ++
      (ps ++ (openFragment t.path).toList).flatMap Node.identifiers := by
    simp only [identifiers, hf, List.flatMap_append, hoi, List.append_assoc]
  -- The numbers of the kept variables and of the dropped ones are apart.
  have hdisj : ∀ k ∈ (rs ++ qs).flatMap Node.identifiers,
      k ∉ (ps ++ (openFragment t.path).toList).flatMap Node.identifiers := by
    have hd := hn.distinct
    rw [hids, List.map_append, List.nodup_append] at hd
    intro k hk hk'
    exact hd.2.2 _ (List.mem_map_of_mem hk) _ (List.mem_map_of_mem hk') rfl
  refine ⟨qs, ps ++ (openFragment t.path).toList, by rw [hroots, List.append_assoc], hq, hraw, ?_⟩
  have hglob : (t.roots.filter (!·.isReady)).foldl Scope.rollback t.globals =
      g.extend (qs.flatMap (Node.declarations false)) := by
    rw [hroots, hdropped, Scope.foldl_rollback, hg]
    refine Scope.without_extend ?_ ?_ (hg ▸ hd) hc
    · intro k hm
      refine hdisj k ?_
      rw [List.flatMap_append]
      rcases List.mem_append.mp hm with hm | hm
      · exact List.mem_append_left _ (hk k hm)
      · obtain ⟨q, hq', hm⟩ := List.mem_flatMap.mp hm
        exact List.mem_append_right _ (List.mem_flatMap.mpr ⟨q, hq', Node.declarations_subset hm⟩)
    · intro k hm
      rw [List.flatMap_append]
      exact List.mem_append_left _ (he k hm)
  simp only [Tree.reset, hglob]
  rw [hroots, hkept]

/-- What is true of every tree between two calls. -/
structure Sound (t : Tree) : Prop where
  numbered : t.Numbered
  opened : ∀ n ∈ t.path, n.Opened
  parts : ∃ rs ps, t.fragments = rs ++ ps ∧ (∀ r ∈ rs, r.isReady = true) ∧ (∀ p ∈ ps, p.Raw) ∧
    ∀ k ∈ t.globals.keys, k ∈ rs.flatMap Node.identifiers
  distinct : t.globals.Distinct
  covered : t.globals.Covered

/-- A tree has grown from what is ready in it. -/
theorem Sound.grown (h : t.Sound) : (∀ r ∈ t.fragments.filter (·.isReady), r.isReady = true) ∧
    (∀ k ∈ t.globals.keys, k ∈ (t.fragments.filter (·.isReady)).flatMap Node.identifiers) ∧
    t.Grown (t.fragments.filter (·.isReady)) t.globals [] := by
  obtain ⟨rs, ps, hf, hr, hp, hk⟩ := h.parts
  have hb : t.fragments.filter (·.isReady) = rs := by
    rw [hf]
    exact (filter_ready hr hp).1
  rw [hb]
  exact ⟨hr, hk, ⟨[], ps, by simp [hf], by simp, hp, by simp, by simp⟩, h.opened⟩

theorem declared_extend {qs : List Node} (hk : ∀ k ∈ g.keys, k ∈ rs.flatMap Node.identifiers) :
    ∀ k ∈ (g.extend (qs.flatMap (Node.declarations false))).keys,
      k ∈ (rs ++ qs).flatMap Node.identifiers := by
  intro k hm
  rw [Scope.keys_extend] at hm
  rw [List.flatMap_append]
  rcases List.mem_append.mp hm with hm | hm
  · exact List.mem_append_left _ (hk k hm)
  · obtain ⟨q, hq, hm⟩ := List.mem_flatMap.mp hm
    exact List.mem_append_right _ (List.mem_flatMap.mpr ⟨q, hq, Node.declarations_subset hm⟩)

theorem Grown.sound (h : t.Grown rs g []) (hr : ∀ r ∈ rs, r.isReady = true)
    (hk : ∀ k ∈ g.keys, k ∈ rs.flatMap Node.identifiers) (hn : t.Numbered) (hc : g.Covered)
    (hd : t.globals.Distinct) : t.Sound := by
  obtain ⟨⟨qs, ps, hf, hq, hp, hg, -⟩, ho⟩ := h
  refine ⟨hn, ho, ⟨rs ++ qs, ps, hf, ?_, hp, ?_⟩, hd, hg ▸ hc.extend _⟩
  · exact fun r hm => (List.mem_append.mp hm).elim (hr r) (hq r)
  · rw [hg, List.append_nil]
    exact declared_extend hk

/-- Fewer variables keep their numbers. -/
theorem Numbered.sublist (h : t.Numbered) (hs : u.identifiers.Sublist t.identifiers)
    (hc : t.clock ≤ u.clock) : u.Numbered :=
  ⟨h.distinct.sublist (hs.map _), fun k hk => Nat.le_trans (h.bounded k (hs.mem hk)) hc⟩

theorem Grown.sound_reset (h : t.Grown rs g extra) (hr : ∀ r ∈ rs, r.isReady = true)
    (hk : ∀ k ∈ g.keys, k ∈ rs.flatMap Node.identifiers) (hn : t.Numbered) (hc : g.Covered)
    (hd : t.globals.Distinct) : t.reset.tree.Sound := by
  have hdr := distinct_reset hd
  obtain ⟨qs, ps, hroots, hq, hp, he⟩ := h.reset hr hk hn hc hd
  rw [he] at hdr ⊢
  refine ⟨hn.sublist ?_ (Nat.le_refl _), by simp, ⟨rs ++ qs, [], by simp, ?_, by simp,
    declared_extend hk⟩, hdr, hc.extend _⟩
  · have hids : t.identifiers = t.roots.flatMap Node.identifiers := by
      rw [roots, List.flatMap_append, (openFragment_spec t.path).1, identifiers]
    rw [hids, hroots, ← List.append_assoc, List.flatMap_append]
    simp [identifiers]
  · exact fun r hm => (List.mem_append.mp hm).elim (hr r) (hq r)

theorem Sound.reset (h : t.Sound) : t.reset.tree.Sound := by
  obtain ⟨hr, hk, hg⟩ := h.grown
  exact hg.sound_reset hr hk h.numbered h.covered h.distinct

/-- The tree that an insertion leaves: a failed one is reset. -/
theorem insert_tree (t : Tree) (tok : Token) :
    let r := { t with clock := t.clock + 1 }.place tok
    r.failure = none ∧ (t.insert tok).tree = r.tree ∧ (t.insert tok).failure = none ∨
      ∃ f, r.failure = some f ∧ (t.insert tok).tree = r.tree.reset.tree ∧
        (t.insert tok).failure = some (f.withToken tok) := by
  intro r
  unfold insert
  dsimp only
  cases ({ t with clock := t.clock + 1 }.place tok).failure with
  | none => exact Or.inl ⟨rfl, rfl, rfl⟩
  | some f => exact Or.inr ⟨f, rfl, rfl, rfl⟩

theorem clock_insert (t : Tree) (tok : Token) : (t.insert tok).tree.clock = t.clock + 1 := by
  have hp := (placed_place { t with clock := t.clock + 1 } tok).clock
  rcases insert_tree t tok with ⟨-, ht, -⟩ | ⟨f, -, ht, -⟩
  · rw [ht, hp]
  · rw [ht]
    exact hp

theorem Sound.insert (h : t.Sound) (tok : Token) : (t.insert tok).tree.Sound := by
  obtain ⟨hr, hk, hg⟩ := h.grown
  obtain ⟨extra, hp, he⟩ := hg.tick.place hr (placed_place _ tok)
  have hn := h.numbered.place tok
  have hd := distinct_place (placed_place { t with clock := t.clock + 1 } tok) h.distinct
  rcases insert_tree t tok with ⟨hf, ht, -⟩ | ⟨f, -, ht, -⟩
  · rw [ht]
    rw [he hf] at hp
    exact hp.sound hr hk hn h.covered hd
  · rw [ht]
    exact hp.sound_reset hr hk hn h.covered hd

end Tree

theorem Node.Settles.identifiers {n m : Node} (h : n.Settles m) :
    m.identifiers = n.identifiers :=
  Node.fold_outline Node.identifiers_lasting.faithful h.1

theorem Node.Settles.isReady {n m : Node} (h : n.Settles m) : m.isReady = n.isReady := by
  simp [Node.isReady, h.2]

namespace Progress

variable {σ : Type} {d : Option (Dispatcher σ)} {m m' : Machine σ} {ns ns' : List Node}
  {vs : List Value}

/-- A pass changes neither variables nor declarations, and what is ready stays so. -/
theorem Pass.keeps (h : Pass d m ns ns' vs m') :
    ns'.flatMap Node.identifiers = ns.flatMap Node.identifiers ∧
      ns'.map Node.isReady = ns.map Node.isReady ∧
      m'.scopes.map Scope.outline = m.scopes.map Scope.outline ∧
      ∀ n ∈ ns, n.flags.evaluated = true ∨ n.isReady = true := by
  induction h with
  | nil m => simp
  | skip he _ ih =>
    obtain ⟨hi, hr, hs, hm⟩ := ih
    refine ⟨by simp [hi], by simp [hr], hs, ?_⟩
    intro n hn
    rcases List.mem_cons.mp hn with rfl | hn
    · exact Or.inl he
    · exact hm n hn
  | @step m m' _ n n' _ _ _ he hready _ hn _ ih =>
    obtain ⟨hi, hr, hs, hm⟩ := ih
    obtain ⟨hk, out, -, -, -, hok⟩ := Node.dispatches_evaluate d n m
    rw [hn] at hk hok
    obtain ⟨-, hset⟩ := hok n' rfl
    refine ⟨by simp [hi, hset.identifiers], by simp [hr, hset.isReady], hs.trans hk, ?_⟩
    intro k hk
    rcases List.mem_cons.mp hk with rfl | hk
    · exact Or.inr hready
    · exact hm k hk

/-- At its end a pass takes at most one fragment away, with its declarations. -/
theorem End.keeps {rest rest' : List Node} {stop : Option Stop} {g : Scope}
    (h : End d m rest rest' m' stop) (hg : m.scopes = [g]) : ∃ g', m'.scopes = [g'] ∧
      (rest' = rest ∧ g' = g ∨ ∃ n, ∃ u : Scope, rest = n :: rest' ∧ n.isReady = true ∧
        u.outline = g.outline ∧ g' = u.without n.identifiers) := by
  cases h with
  | finished _ _ => exact ⟨g, hg, Or.inl ⟨rfl, rfl⟩⟩
  | interrupted _ _ _ => exact ⟨g, hg, Or.inl ⟨rfl, rfl⟩⟩
  | @failed n f m₁ _ _ hr _ hn =>
    obtain ⟨hk, -⟩ := Node.dispatches_evaluate d n m
    rw [hn, hg] at hk
    obtain ⟨g₁, hs, hk⟩ := List.map_eq_singleton_iff.mp hk
    refine ⟨g₁.rollback n, ?_, Or.inr ⟨n, g₁, rfl, hr, hk, g₁.rollback_eq n⟩⟩
    dsimp only at hs ⊢
    rw [hs, List.map_singleton]

end Progress

namespace Tree

variable {σ : Type} {d : Option (Dispatcher σ)} {t : Tree} {n : Node}

/-- A pass does not reach the fragments that are not analyzed. -/
theorem append_split {rs ps ks rest : List Node} (h : rs ++ ps = ks ++ rest)
    (hp : ∀ p ∈ ps, p.Raw) (hk : ∀ k ∈ ks, k.flags.evaluated = true ∨ k.isReady = true) :
    ∃ as, rs = ks ++ as ∧ rest = as ++ ps := by
  rcases List.append_eq_append_iff.mp h with ⟨cs, hks, hps⟩ | ⟨as, hrs, hrest⟩
  · cases cs with
    | nil => exact ⟨[], by simpa using hks.symm, by simpa using hps.symm⟩
    | cons c cs =>
      have hc : c.Raw := hp c (by simp [hps])
      rcases hk c (by simp [hks]) with he | hr
      · rw [hc.flags.2] at he
        cases he
      · rw [hc.not_ready] at hr
        cases hr
  · exact ⟨as, hrs, hrest⟩

/-- An evaluation changes the values of the global names, and takes declarations away. -/
theorem evaluate_globals (t : Tree) (d : Option (Dispatcher σ)) (w : σ) (cancelled : Bool)
    (interrupts : List Bool) : ∃ u ks, Scope.outline u = t.globals.outline ∧
      (t.evaluate d w cancelled interrupts).tree.globals = u.without ks := by
  obtain ⟨ks, ks', rest, rest', vs, m', m'', stop, -, hpass, hend, ho⟩ :=
    Progress.of_cases d interrupts ⟨[t.globals], w, cancelled, []⟩ t.fragments
  obtain ⟨-, -, hscopes, -⟩ := hpass.keeps
  obtain ⟨g, hg, hgo⟩ := List.map_eq_singleton_iff.mp hscopes
  obtain ⟨g', hg', hcase⟩ := hend.keeps hg
  simp only [Tree.evaluate, ho, hg', List.head?_cons, Option.getD_some]
  rcases hcase with ⟨-, rfl⟩ | ⟨n, u, -, -, hu, rfl⟩
  · exact ⟨g', [], hgo, g'.without_nil.symm⟩
  · exact ⟨u, _, hu.trans hgo, rfl⟩

theorem Sound.evaluate (h : t.Sound) (d : Option (Dispatcher σ)) (w : σ) (cancelled : Bool)
    (interrupts : List Bool) : (t.evaluate d w cancelled interrupts).tree.Sound := by
  obtain ⟨rs, ps, hf, hr, hp, hk⟩ := h.parts
  obtain ⟨ks, ks', rest, rest', vs, m', m'', stop, hns, hpass, hend, ho⟩ :=
    Progress.of_cases d interrupts ⟨[t.globals], w, cancelled, []⟩ t.fragments
  obtain ⟨hids, hready, hkeys, hmem⟩ := hpass.keeps
  obtain ⟨as, rfl, rfl⟩ := append_split (hf.symm.trans hns) hp hmem
  have hks' : ∀ k ∈ ks', k.isReady = true := by
    intro k hm
    have hb := List.mem_map_of_mem (f := Node.isReady) hm
    rw [hready] at hb
    obtain ⟨j, hj, he⟩ := List.mem_map.mp hb
    rw [← he]
    exact hr j (List.mem_append_left _ hj)
  have hk₀ : ∀ k ∈ t.globals.keys, k ∈ ks'.flatMap Node.identifiers ∨
      k ∈ as.flatMap Node.identifiers := by
    intro k hm
    have hm := hk k hm
    rw [List.flatMap_append, ← hids] at hm
    exact List.mem_append.mp hm
  obtain ⟨g, hg, hgo⟩ := List.map_eq_singleton_iff.mp hkeys
  have hgk : g.keys = t.globals.keys := (Scope.Alike.of_outline hgo).keys
  obtain ⟨g', hg', hcase⟩ := hend.keeps hg
  -- Every end leaves `ks' ++ bs ++ ps`, with the declarations of `ks' ++ bs` only.
  obtain ⟨bs, rfl, hbs, hk'⟩ : ∃ bs, rest' = bs ++ ps ∧ bs.Sublist as ∧
      ∀ k ∈ g'.keys, k ∈ ks'.flatMap Node.identifiers ∨ k ∈ bs.flatMap Node.identifiers := by
    rcases hcase with ⟨rfl, rfl⟩ | ⟨n, u, hrest, hn, hu, rfl⟩
    · exact ⟨as, rfl, .refl _, fun k hm => hk₀ k (hgk ▸ hm)⟩
    · cases as with
      | nil =>
        have hraw := hp n (by simp [show ps = n :: rest' from hrest])
        rw [hraw.not_ready] at hn
        cases hn
      | cons a bs =>
        obtain ⟨rfl, rfl⟩ := List.cons.inj hrest
        refine ⟨bs, rfl, List.sublist_cons_self _ _, fun k hm => ?_⟩
        obtain ⟨hkg, hkn⟩ : k ∈ g.keys ∧ k ∉ a.identifiers := by
          rw [Scope.keys_without, (Scope.Alike.of_outline hu).keys] at hm
          simpa using hm
        rcases hk₀ k (hgk ▸ hkg) with hm | hm
        · exact Or.inl hm
        · rw [List.flatMap_cons] at hm
          exact Or.inr ((List.mem_append.mp hm).resolve_left hkn)
  obtain ⟨u, gone, hu, hglobals⟩ := t.evaluate_globals d w cancelled interrupts
  have hdistinct := (h.distinct.of_outline hu).without gone
  have hcovered := (h.covered.of_outline hu).without gone
  rw [← hglobals] at hdistinct hcovered
  simp only [Tree.evaluate, ho, hg', List.head?_cons, Option.getD_some] at hdistinct hcovered ⊢
  refine ⟨h.numbered.sublist ?_ (Nat.le_refl _), h.opened, ⟨ks' ++ bs, ps, by simp, ?_, hp, ?_⟩,
    hdistinct, hcovered⟩
  · simp only [identifiers, hf, List.flatMap_append, hids, List.append_assoc]
    exact (List.Sublist.refl _).append ((hbs.flatMap _).append (.refl _))
  · intro r hm
    rcases List.mem_append.mp hm with hm | hm
    · exact hks' r hm
    · exact hr r (List.mem_append_right _ (hbs.mem hm))
  · intro k hm
    rw [List.flatMap_append]
    exact List.mem_append.mpr (hk' k hm)

theorem sound_fresh : ({} : Tree).Sound where
  numbered := ⟨by simp [identifiers], by simp [identifiers]⟩
  opened := by simp
  parts := ⟨[], [], rfl, by simp, by simp, by simp⟩
  distinct := List.nodup_nil
  covered := by simp [Scope.Covered]

theorem Reachable.sound (h : t.Reachable) : t.Sound := by
  refine h.invariant sound_fresh ?_ ?_ ?_
  · exact fun _ tok _ ht => ht.insert tok
  · exact fun _ _ ht => ht.reset
  · exact fun _ d w cancelled interrupts _ ht => ht.evaluate d w cancelled interrupts

/-! Insertions that come to nothing. -/

/-- Inserts tokens up to the first failure, and leaves the tree as it is then. -/
def placeAll (t : Tree) : List Token → Step
  | [] => { tree := t }
  | tok :: toks => ({ t with clock := t.clock + 1 }.place tok).next (placeAll · toks)

/-- Inserts tokens up to the first failure, which resets the tree; without a failure it is reset
after the last one. -/
def discard (t : Tree) (toks : List Token) : Tree :=
  let r := t.insertAll toks
  match r.failure with
  | some _ => r.tree
  | none => r.tree.reset.tree

theorem discard_eq (t : Tree) (toks : List Token) :
    t.discard toks = (t.placeAll toks).tree.reset.tree := by
  induction toks generalizing t with
  | nil => rfl
  | cons tok toks ih =>
    rcases insert_tree t tok with ⟨hf, ht, hi⟩ | ⟨f, hf, ht, hi⟩
    · have hd : t.discard (tok :: toks) = (t.insert tok).tree.discard toks := by
        simp only [discard, insertAll, Step.next, hi]
      have hp : (t.placeAll (tok :: toks)).tree = ((t.insert tok).tree.placeAll toks).tree := by
        simp only [placeAll, Step.next, hf, ht]
      rw [hd, hp, ih]
    · simp only [discard, insertAll, placeAll, Step.next, hi, hf, ht]

theorem Grown.placeAll {rs : List Node} {g : Scope} (h : t.Grown rs g []) (hn : t.Numbered)
    (hd : t.globals.Distinct) (hr : ∀ r ∈ rs, r.isReady = true) (toks : List Token) :
    ∃ extra, (t.placeAll toks).tree.Grown rs g extra ∧ (t.placeAll toks).tree.Numbered ∧
      (t.placeAll toks).tree.globals.Distinct := by
  induction toks generalizing t with
  | nil => exact ⟨[], h, hn, hd⟩
  | cons tok toks ih =>
    obtain ⟨extra, hg, he⟩ := h.tick.place hr (placed_place _ tok)
    have hn' := hn.place tok
    have hd' := distinct_place (placed_place { t with clock := t.clock + 1 } tok) hd
    rw [Tree.placeAll, Step.next]
    split
    · exact ⟨extra, hg, hn', hd'⟩
    · next hf =>
      rw [he hf] at hg
      exact ih hg hn' hd'

/-- Whatever is inserted at the root of a tree without pending fragments, and wherever it fails:
what stays is the tree as it was, with the new fragments that are ready and their declarations. -/
theorem discard_exact {s : Tree} (hs : s.Reachable) (hp : s.path = []) (he : s.expectHead = false)
    (ha : ∀ n ∈ s.fragments, n.flags.analyzed = true) (toks : List Token) :
    ∃ new, (s.placeAll toks).tree.roots = s.fragments ++ new ∧
      s.discard toks =
        { fragments := s.fragments ++ new.filter (·.isReady)
          path := []
          expectHead := false
          globals := s.globals.extend ((new.filter (·.isReady)).flatMap (Node.declarations false))
          clock := (s.placeAll toks).tree.clock } ∧
      ((∀ n ∈ new, n.flags.analyzed = false) →
        s.discard toks = { s with clock := (s.placeAll toks).tree.clock }) := by
  obtain ⟨hn, ho, ⟨rs, ps, hf, hr, hraw, hk⟩, hdist, hcov⟩ := hs.sound
  obtain rfl : ps = [] := by
    refine List.eq_nil_iff_forall_not_mem.mpr fun p hm => ?_
    have hap := ha p (by rw [hf]; exact List.mem_append_right _ hm)
    rw [(hraw p hm).flags.1] at hap
    cases hap
  obtain rfl : s.fragments = rs := by simpa using hf
  have hg : s.Grown s.fragments s.globals [] :=
    ⟨⟨[], [], by simp, by simp, by simp, by simp, by simp⟩, ho⟩
  obtain ⟨extra, hgrown, hnum, hd⟩ := hg.placeAll hn hdist hr toks
  obtain ⟨qs, us, hroots, hq, hu, hreset⟩ := hgrown.reset hr hk hnum hcov hd
  obtain ⟨hkept, -⟩ := filter_ready hq hu
  have hd : s.discard toks =
      { fragments := s.fragments ++ qs, path := [], expectHead := false,
        globals := s.globals.extend (qs.flatMap (Node.declarations false)),
        clock := (s.placeAll toks).tree.clock } := by
    rw [discard_eq, hreset]
  refine ⟨qs ++ us, hroots, by rw [hkept, hd], fun hnone => ?_⟩
  obtain rfl : qs = [] := by
    refine List.eq_nil_iff_forall_not_mem.mpr fun q hm => ?_
    have hready := Node.analyzed_of_ready (hq q hm)
    rw [hnone q (List.mem_append_left _ hm)] at hready
    cases hready
  rw [hd]
  simp [hp, he]

/-- The tree of a single literal that is ready. -/
def oneLiteral : Tree :=
  (Run.of (none : Option (Dispatcher Unit)) () [.insert ⟨"INT", "1"⟩, .insert ⟨";", []⟩]).tree

/-- A declaration of `x`, and a sum that is closed by the wrong marker. -/
def declarationThenMismatch : List Token :=
  [⟨"(", []⟩, ⟨"new", []⟩, ⟨"(", []⟩, ⟨"init", []⟩, ⟨"ID", "x"⟩, ⟨"INT", "2"⟩, ⟨")", []⟩, ⟨")", []⟩,
    ⟨"(", []⟩, ⟨"PLUS", []⟩, ⟨"ID", "x"⟩, ⟨"]", []⟩]

theorem discard_exact_oneLiteral :
    (oneLiteral.placeAll declarationThenMismatch).failure.isSome = true ∧
      (oneLiteral.discard declarationThenMismatch).globals.names = ["x"] ∧
      ∃ new,
        (oneLiteral.placeAll declarationThenMismatch).tree.roots = oneLiteral.fragments ++ new ∧
        (oneLiteral.discard declarationThenMismatch).fragments =
          oneLiteral.fragments ++ new.filter (·.isReady) := by
  obtain ⟨new, hroots, hd, -⟩ := discard_exact (s := oneLiteral) ⟨Unit, none, (), _, rfl⟩
    (by decide +kernel) (by decide +kernel) (by decide +kernel) declarationThenMismatch
  exact ⟨by decide +kernel, by decide +kernel, new, hroots, by rw [hd]⟩

end Tree

end TokenShell
