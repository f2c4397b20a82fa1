import TokenShell.Proofs.Delivery

/-! Scope tables mirror the tree: a scope declares the variables that stand analyzed below it as
declared, and no others. -/
namespace TokenShell

namespace Node

variable {n k : Node} {l : Label} {ks above mid : List Node} {p q : List Node × Node} {key : Key}
  {b : Bool}

theorem places_suffix (h : p ∈ n.places above) : ∃ mid, p.1 = mid ++ above := by
  induction n using induct generalizing above with
  | h l ks ih =>
    rcases mem_places_mk.mp h with rfl | ⟨k, hk, hp⟩
    · exact ⟨[], rfl⟩
    · obtain ⟨mid, hm⟩ := ih k hk hp
      exact ⟨mid ++ [mk l ks], by simp [hm]⟩

theorem places_trans (hq : q ∈ n.places above) (hp : p ∈ q.2.places q.1) : p ∈ n.places above := by
  induction n using induct generalizing above with
  | h l ks ih =>
    rcases mem_places_mk.mp hq with rfl | ⟨k, hk, hq⟩
    · exact hp
    · exact mem_places_mk.mpr (Or.inr ⟨k, hk, ih k hk hq⟩)

/-- A node with `b` among those above it stands below a child of `b`. -/
theorem places_below {b : Node} {rest : List Node} (h : p ∈ n.places above)
    (hp : p.1 = mid ++ b :: rest) (hl : above.length ≤ rest.length) :
    ∃ k ∈ b.kids, p ∈ k.places (b :: rest) := by
  induction n using induct generalizing above with
  | h l ks ih =>
    rcases mem_places_mk.mp h with rfl | ⟨k, hk, hpk⟩
    · have hlen := congrArg List.length hp
      simp only [List.length_append, List.length_cons] at hlen
      omega
    · by_cases he : (mk l ks :: above).length ≤ rest.length
      · exact ih k hk hpk he
      · obtain ⟨mid', hm⟩ := places_suffix hpk
        have hlen : (b :: rest).length = (mk l ks :: above).length := by
          simp only [List.length_cons] at he ⊢
          omega
        obtain ⟨-, heq⟩ := List.append_inj' (hp.symm.trans hm) hlen
        obtain ⟨rfl, rfl⟩ := List.cons.inj heq
        exact ⟨k, hk, hpk⟩

/-- An analyzed variable that stands first below an initializer of a declaration which does not
renew. -/
def Introduced (p : List Node × Node) : Prop :=
  ∃ init decl rest, p.1 = init :: decl :: rest ∧ init.form = .initializer ∧
    decl.form = .declaration false ∧ init.kids.head? = some p.2 ∧ p.2.isVariable = true ∧
    p.2.flags.analyzed = true

/-- A declaration with the given key stands in the tree, with no block between it and the nodes
above the tree. -/
def Below (above : List Node) (n : Node) (key : Key) : Prop :=
  ∃ p ∈ n.places above, ∃ mid, p.1 = mid ++ above ∧ (∀ a ∈ mid, a.isBlock = false) ∧
    Introduced p ∧ p.2.key = key

theorem below_mk : Below above (mk l ks) key ↔
    (Introduced (above, mk l ks) ∧ (mk l ks).key = key) ∨
      l.isBlock = false ∧ ∃ k ∈ ks, Below (mk l ks :: above) k key := by
  constructor
  · rintro ⟨p, hp, mid, hm, hb, hi, hkey⟩
    rcases mem_places_mk.mp hp with rfl | ⟨k, hk, hp⟩
    · exact Or.inl ⟨hi, hkey⟩
    · obtain ⟨mid', hm'⟩ := places_suffix hp
      obtain rfl : mid = mid' ++ [mk l ks] := by
        refine List.append_cancel_right (hm.symm.trans ?_)
        simp [hm']
      refine Or.inr ⟨hb (mk l ks) (by simp), k, hk, p, hp, mid', hm', ?_, hi, hkey⟩
      exact fun a ha => hb a (by simp [ha])
  · rintro (⟨hi, hkey⟩ | ⟨hb, k, hk, p, hp, mid, hm, hmb, hi, hkey⟩)
    · exact ⟨_, mem_places_mk.mpr (Or.inl rfl), [], rfl, by simp, hi, hkey⟩
    · refine ⟨p, mem_places_mk.mpr (Or.inr ⟨k, hk, hp⟩), mid ++ [mk l ks], by simp [hm], ?_, hi,
        hkey⟩
      intro a ha
      rcases List.mem_append.mp ha with ha | ha
      · exact hmb a ha
      · cases List.mem_singleton.mp ha
        exact hb

theorem Raw.not_below (h : n.Raw) : ¬ Below above n key := by
  induction n using induct generalizing above with
  | h l ks ih =>
    obtain ⟨hl, hk⟩ := raw_mk.mp h
    intro hb
    rcases below_mk.mp hb with ⟨⟨-, -, -, -, -, -, -, -, ha⟩, -⟩ | ⟨hb, k, hkm, hbk⟩
    · rw [flags_mk, hl.1] at ha
      cases ha
    · exact ih k hkm (hk hb k hkm) hbk

/-- If the initializers of a tree are in their places, so are those of each child, and the children
of a declaration are its initializers. -/
theorem Settled.strays_kids (hs : (Node.mk l ks).Settled) (hb : l.isBlock = false)
    (h : (Node.mk l ks).strays = if l.form = .initializer then [true] else []) :
    ∀ k ∈ ks, k.strays = (if k.form = .initializer then [true] else []) ∧
      (k.form = .initializer → ∃ r, l.form = .declaration r) := by
  intro k hk
  have hinit : k.form = .initializer → ∃ more, k.strays = true :: more := by
    obtain ⟨lk, js⟩ := k
    intro hf
    rw [form_mk] at hf
    exact ⟨_, by rw [strays_mk, strayStep, hf]⟩
  -- Anywhere but below a declaration, no mark is left in any child.
  have hnil : (∀ p ∈ ks.map strays, p = []) →
      k.strays = (if k.form = .initializer then [true] else []) ∧
      (k.form = .initializer → ∃ r, l.form = .declaration r) := by
    intro hp
    have hk := hp _ (List.mem_map_of_mem hk)
    have hf : k.form ≠ .initializer := by
      intro hf
      obtain ⟨more, hm⟩ := hinit hf
      rw [hk] at hm
      cases hm
    exact ⟨by rw [hk, if_neg hf], fun hf' => (hf hf').elim⟩
  rw [strays_mk, strayStep] at h
  cases hf : l.form with
  | block _ _ => simp [Label.isBlock, hf] at hb
  | declaration r =>
    simp only [hf, reduceCtorEq, if_false, List.flatMap_eq_nil_iff] at h
    have hshape := (settled_mk.mp hs).1.shaped
    rw [hf] at hshape
    have hki : k.form = .initializer := by
      rw [initializer_iff]
      exact hshape.2 _ (List.mem_map.mpr ⟨k.label, List.mem_map_of_mem hk, rfl⟩)
    obtain ⟨more, hm⟩ := hinit hki
    have hmore := h _ (List.mem_map_of_mem hk)
    rw [hm, housed] at hmore
    exact ⟨by rw [hm, hmore, if_pos hki], fun _ => ⟨r, rfl⟩⟩
  | initializer =>
    rw [hf] at hnil
    simp only [hf, if_true, List.cons.injEq, true_and, List.flatten_eq_nil_iff] at h
    exact hnil h
  | _ =>
    rw [hf] at hnil
    simp only [hf, reduceCtorEq, if_false, List.flatten_eq_nil_iff] at h
    exact hnil h

/-- The first child is the only one that an initializer declares. -/
theorem Settled.introduced_iff {decl : Node} (hs : (Node.mk l ks).Settled)
    (hf : l.form = .initializer) (hdecl : decl.form = .declaration b) :
    (∃ k ∈ ks, Introduced (Node.mk l ks :: decl :: above, k) ∧ k.key = key) ↔
      key ∈ introduced b ks := by
  have hshape := (settled_mk.mp hs).1.shaped
  rw [hf] at hshape
  obtain ⟨ps, hps, -⟩ := hshape
  cases ks with
  | nil => cases hps
  | cons v vs =>
    have hvar : v.isVariable = true := isVariable_of_declared (List.cons.inj hps).1
    rw [introduced, hvar, Bool.true_and]
    constructor
    · rintro ⟨k, -, ⟨init, decl', rest, he, -, hd, hh, -⟩, rfl⟩
      obtain ⟨rfl, he'⟩ := List.cons.inj he
      obtain ⟨rfl, -⟩ := List.cons.inj he'
      obtain rfl : v = k := by simpa using hh
      obtain rfl : b = false := Form.declaration.inj (hdecl.symm.trans hd)
      simp
    · intro hkey
      obtain ⟨e, hflags⟩ := ((settled_mk.mp hs).2 v (by simp)).flags
      cases b with
      | true => simp at hkey
      | false =>
        obtain rfl : key = v.key := by simpa using hkey
        exact ⟨v, by simp, ⟨_, decl, above, rfl, hf, hdecl, rfl, hvar, by rw [hflags]⟩, rfl⟩

/-- What a fragment declares stands below it, with no block between. -/
theorem Settled.mem_declarations (hs : n.Settled)
    (hst : n.strays = if n.form = .initializer then [true] else [])
    (hp : n.form = .initializer → ∃ decl rest, above = decl :: rest ∧ decl.form = .declaration b) :
    key ∈ n.declarations b ↔ n.isBlock = false ∧ ∃ k ∈ n.kids, Below (n :: above) k key := by
  induction n using induct generalizing above b with
  | h l ks ih =>
    by_cases hb : l.isBlock = true
    · obtain ⟨kind, s, hf⟩ := Label.isBlock_iff.mp hb
      simp [declarations, hf, isBlock]
    have hb : l.isBlock = false := by simpa using hb
    have hkid : ∀ c, (∀ r, l.form = .declaration r → r = c) → ∀ k ∈ ks,
        (Below (Node.mk l ks :: above) k key ↔
          (Introduced (Node.mk l ks :: above, k) ∧ k.key = key) ∨ key ∈ k.declarations c) := by
      intro c hc k hk
      obtain ⟨hks, hkf⟩ := hs.strays_kids hb hst k hk
      have hih : key ∈ k.declarations c ↔
          k.isBlock = false ∧ ∃ j ∈ k.kids, Below (k :: Node.mk l ks :: above) j key := by
        refine ih k hk ((settled_mk.mp hs).2 k hk) hks fun hf => ?_
        obtain ⟨r, hr⟩ := hkf hf
        exact ⟨_, _, rfl, hc r hr ▸ hr⟩
      obtain ⟨lk, js⟩ := k
      rw [below_mk, hih]
      rfl
    have hplain : l.form ≠ .initializer → ∀ c, (∀ r, l.form = .declaration r → r = c) →
        (key ∈ declarationsAll c ks ↔ (Node.mk l ks).isBlock = false ∧
          ∃ k ∈ ks, Below (Node.mk l ks :: above) k key) := by
      intro hf c hc
      rw [declarationsAll_eq, List.mem_flatMap]
      constructor
      · rintro ⟨k, hk, hkey⟩
        exact ⟨hb, k, hk, (hkid c hc k hk).mpr (Or.inr hkey)⟩
      · rintro ⟨-, k, hk, hkey⟩
        rcases (hkid c hc k hk).mp hkey with ⟨⟨init, decl, rest, he, hi, -⟩, -⟩ | hkey
        · obtain ⟨rfl, -⟩ := List.cons.inj he
          exact (hf hi).elim
        · exact ⟨k, hk, hkey⟩
    rw [declarations, kids_mk]
    cases hf : l.form with
    | block _ _ => simp [Label.isBlock, hf] at hb
    | declaration r => exact hplain (by simp [hf]) r (by simp [hf])
    | initializer =>
      obtain ⟨decl, rest, rfl, hdecl⟩ := hp hf
      have hkid := hkid false (by simp [hf])
      rw [List.mem_append, declarationsAll_eq, List.mem_flatMap, ← hs.introduced_iff hf hdecl]
      constructor
      · rintro (⟨k, hk, hkey⟩ | ⟨k, hk, hi⟩)
        · exact ⟨hb, k, hk, (hkid k hk).mpr (Or.inr hkey)⟩
        · exact ⟨hb, k, hk, (hkid k hk).mpr (Or.inl hi)⟩
      · rintro ⟨-, k, hk, hkey⟩
        rcases (hkid k hk).mp hkey with hi | hkey
        · exact Or.inr ⟨k, hk, hi⟩
        · exact Or.inl ⟨k, hk, hkey⟩
    | _ => exact hplain (by simp [hf]) false (by simp [hf])

/-- What has been entered for a fragment in the scope around it stands below the fragment. -/
theorem Staged.mem_entered (hs : n.Staged) (ha : n.flags.analyzed = true → n.strays = [])
    (habove : ∀ a ∈ above.head?, a.isBlock = true) : key ∈ n.entered ↔ Below above n key := by
  rcases hs with hs | hu
  · obtain ⟨e, hf⟩ := hs.flags
    have hst := ha (by rw [hf])
    obtain ⟨l, ks⟩ := n
    have hni : l.form ≠ .initializer := by
      intro hi
      rw [strays_mk, strayStep, hi] at hst
      cases hst
    have hroot : ¬ Introduced (above, Node.mk l ks) := by
      rintro ⟨init, decl, rest, he, hi, -⟩
      have hb := habove init (by rw [show above = init :: decl :: rest from he]; rfl)
      rw [isBlock, hi] at hb
      cases hb
    rw [hs.entered_eq_named, hs.named_sights (by simp), below_mk,
      hs.mem_declarations (by rw [hst, form_mk, if_neg hni]) (fun hf => (hni hf).elim)]
    constructor
    · exact Or.inr
    · rintro (⟨hi, -⟩ | hb)
      · exact (hroot hi).elim
      · exact hb
  · rw [hu.raw.entered]
    exact ⟨by simp, fun hb => (hu.raw.not_below hb).elim⟩

end Node

namespace Scope

variable {s : Scope} {x : Bytes} {d : Nat}

theorem Distinct.mem_keys (h : s.Distinct) :
    (x, d) ∈ s.keys ↔ ∃ e, s.find? x = some e ∧ e.declarer = d := by
  simp only [find?, Option.map_eq_some_iff]
  constructor
  · intro hk
    obtain ⟨k, hfound⟩ : ∃ k, s.keys.find? (·.1 == x) = some k := by
      rw [← Option.isSome_iff_exists, List.find?_isSome]
      exact ⟨_, hk, by simp⟩
    obtain rfl : k = (x, d) := by
      refine List.inj_on_of_nodup_map h (List.mem_of_find?_eq_some hfound) hk ?_
      simpa using List.find?_some hfound
    exact ⟨_, ⟨_, hfound, rfl⟩, rfl⟩
  · rintro ⟨_, ⟨k, hk, rfl⟩, rfl⟩
    obtain rfl : k.1 = x := by simpa using List.find?_some hk
    exact List.mem_of_find?_eq_some hk

end Scope

/-- A scope declares what has been entered for the nodes below it, and no name twice. -/
structure Scope.Lists (s : Scope) (ks : List Node) : Prop where
  keys : s.keys = ks.flatMap Node.entered
  distinct : s.Distinct
  kids : ∀ k ∈ ks, k.Staged ∧ (k.flags.analyzed = true → k.strays = [])

theorem Scope.Records.lists {s : Scope} {ks : List Node} (h : s.Records ks) : s.Lists ks where
  keys := h.keys
  distinct := h.distinct
  kids k hk := by
    refine ⟨?_, (h.kept k hk).analyzed⟩
    obtain ⟨rs, ps, rfl, hr, hp⟩ := h.order
    rcases List.mem_append.mp hk with hk | hk
    · exact Or.inl (hr k hk)
    · exact Or.inr (hp k hk)

namespace Node

variable {n k : Node} {l : Label} {ks above path : List Node} {p : List Node × Node}

/-- The scope of every block in the tree lists what stands below it. -/
inductive Tidy : Node → Prop where
  | mk {l : Label} {ks : List Node} (h : ∀ kind s, l.form = .block kind s → s.Lists ks)
      (hk : ∀ k ∈ ks, Tidy k) : Tidy (.mk l ks)

theorem tidy_mk : (mk l ks).Tidy ↔
    (∀ kind s, l.form = .block kind s → s.Lists ks) ∧ ∀ k ∈ ks, k.Tidy :=
  ⟨fun | .mk h hk => ⟨h, hk⟩, fun ⟨h, hk⟩ => .mk h hk⟩

theorem Staged.kids (h : (Node.mk l ks).Staged) : ∀ k ∈ ks, k.Staged := by
  intro k hk
  rcases h with hs | hu
  · exact Or.inl ((settled_mk.mp hs).2 k hk)
  · rcases (upper_mk.mp hu).2 k hk with hu | ⟨-, hs⟩
    · exact Or.inr hu
    · exact Or.inl hs

theorem Staged.tidy (hs : n.Staged) (hx : false ∉ n.strays)
    (he : ∀ as es, .scope as es ∈ n.sights false → as = es ∧ (as.map Prod.fst).Nodup) : n.Tidy := by
  induction n using induct with
  | h l ks ih =>
    rw [false_mem_strays] at hx
    refine tidy_mk.mpr ⟨?_, ?_⟩
    · intro kind s hf
      obtain ⟨hkeys, hd⟩ := he _ _ (scope_mem_mk.mpr (Or.inl ⟨kind, s, hf, rfl, rfl⟩))
      rw [if_pos (Label.isBlock_iff.mpr ⟨kind, s, hf⟩)] at hx
      refine ⟨hkeys, hd, fun k hk => ⟨hs.kids k hk, fun _ => ?_⟩⟩
      by_contra hne
      exact hx ⟨k, hk, hne⟩
    · intro k hk
      refine ih k hk (hs.kids k hk) ?_ fun as es hm =>
        he as es (scope_mem_mk.mpr (Or.inr ⟨k, hk, hm⟩))
      intro hf
      by_cases hb : l.isBlock = true
      · rw [if_pos hb] at hx
        exact hx ⟨k, hk, List.ne_nil_of_mem hf⟩
      · rw [if_neg hb] at hx
        exact hx ⟨k, hk, hf⟩

theorem Kept.tidy (h : n.Kept) (hs : n.Staged) : n.Tidy := hs.tidy h.housed h.entries

/-- The scope of an open block does not list what its open child declares. -/
theorem Tidy.push (h : n.Tidy) (hk : k.Tidy) (hu : k.Upper Label.Planted) : (n.push k).Tidy := by
  obtain ⟨l, ks⟩ := n
  obtain ⟨hl, hks⟩ := tidy_mk.mp h
  refine tidy_mk.mpr ⟨fun kind s hf => ⟨?_, (hl kind s hf).distinct, ?_⟩, ?_⟩
  · rw [(hl kind s hf).keys]
    simp [hu.raw.entered]
  · intro j hj
    rcases List.mem_append.mp hj with hj | hj
    · exact (hl kind s hf).kids j hj
    · obtain rfl := List.mem_singleton.mp hj
      exact ⟨Or.inr hu, fun ha => by rw [hu.flags] at ha; cases ha⟩
  · intro j hj
    rcases List.mem_append.mp hj with hj | hj
    · exact hks j hj
    · obtain rfl := List.mem_singleton.mp hj
      exact hk

theorem tidy_foldl (h : ∀ k ∈ n :: path, k.Tidy ∧ k.Budding) :
    (path.foldl (fun n p => p.push n) n).Tidy := by
  induction path generalizing n with
  | nil => exact (h n (by simp)).1
  | cons p path ih =>
    rw [List.foldl_cons]
    apply ih
    intro k hk
    obtain ⟨hn, hnb⟩ := h n (by simp)
    rcases List.mem_cons.mp hk with rfl | hk
    · obtain ⟨hp, hpb⟩ := h p (by simp)
      exact ⟨hp.push hn hnb.upper, hpb.push hnb.upper⟩
    · exact h k (by simp [hk])

theorem Tidy.places (h : n.Tidy) (hp : p ∈ n.places above) : p.2.Tidy := by
  induction n using induct generalizing above with
  | h l ks ih =>
    rcases mem_places_mk.mp hp with rfl | ⟨k, hk, hp⟩
    · exact h
    · exact ih k hk ((tidy_mk.mp h).2 k hk) hp

end Node

namespace Tree

variable {t : Tree} {s : Scope} {above ks : List Node} {p q : List Node × Node} {key : Key}

theorem Kept.tidy (h : t.Kept) (hs : t.Staged) : ∀ n ∈ t.roots, n.Tidy := by
  have hpath : ∀ n ∈ t.path, n.Tidy ∧ n.Budding := by
    intro n hn
    have hb := hs.path n hn
    refine ⟨?_, hb⟩
    obtain ⟨l, ks⟩ := n
    refine Node.tidy_mk.mpr ⟨fun kind s hf => (h.blocks _ hn kind s hf).2.lists, ?_⟩
    exact fun k hk => (h.kids _ hn k hk).tidy (hb.staged_kids k hk)
  intro n hn
  rcases mem_roots.mp hn with hn | ⟨m, path, hp, rfl⟩
  · exact (h.root.kept n hn).tidy (hs.fragments n hn)
  · exact Node.tidy_foldl (hp ▸ hpath)

/-- The open fragment is not listed in the global scope. -/
theorem Kept.lists_roots (h : t.Kept) (hs : t.Staged) : t.globals.Lists t.roots := by
  have hroot := h.root.lists
  cases hp : t.path with
  | nil => simpa [Tree.roots, hp, openFragment] using hroot
  | cons m path =>
    have hb : ∀ k ∈ m :: path, k.Budding := hp ▸ hs.path
    have hu := (Node.budding_foldl hb).upper
    rw [Tree.roots, hp, openFragment]
    refine ⟨?_, hroot.distinct, ?_⟩
    · rw [hroot.keys]
      simp [hu.raw.entered]
    · intro k hk
      rcases List.mem_append.mp hk with hk | hk
      · exact hroot.kids k hk
      · obtain rfl : k = path.foldl (fun n p => p.push n) m := by simpa using hk
        exact ⟨Or.inr hu, fun ha => by rw [hu.flags] at ha; cases ha⟩

/-- A node that declares a name in the scope that the nodes of `above` lead to: a block and those
above it, or no node for the global scope. -/
structure Declares (t : Tree) (above : List Node) (p : List Node × Node) : Prop where
  place : p ∈ t.places
  introduced : Node.Introduced p
  nearest : ∃ mid, p.1 = mid ++ above ∧ ∀ n ∈ mid, n.isBlock = false

/-- The names of a scope are the declarations that belong to it, and only they have values. -/
structure Registers (t : Tree) (s : Scope) (above : List Node) : Prop where
  names : (s.keys.map (·.1)).Nodup
  declared : ∀ x d, (∃ e, s.find? x = some e ∧ e.declarer = d) ↔
    ∃ p, t.Declares above p ∧ p.2.key = (x, d)
  /-- Two declarations of one name are one node. -/
  once : ∀ p q, t.Declares above p → t.Declares above q → p.2.key.1 = q.2.key.1 → p = q
  cells : ∀ c ∈ s.cells, ∃ p, t.Declares above p ∧ p.2.key.1 = c.1

theorem declares_root : (∃ p, t.Declares [] p ∧ p.2.key = key) ↔ ∃ n ∈ t.roots, n.Below [] key := by
  constructor
  · rintro ⟨p, ⟨hp, hi, hm⟩, hkey⟩
    obtain ⟨n, hn, hp⟩ := mem_places.mp hp
    obtain ⟨mid, hmid, hb⟩ := hm
    exact ⟨n, hn, p, hp, mid, hmid, hb, hi, hkey⟩
  · rintro ⟨n, hn, p, hp, mid, hmid, hb, hi, hkey⟩
    exact ⟨p, ⟨mem_places.mpr ⟨n, hn, hp⟩, hi, mid, hmid, hb⟩, hkey⟩

theorem declares_block (hq : q ∈ t.places) : (∃ p, t.Declares (q.2 :: q.1) p ∧ p.2.key = key) ↔
    ∃ k ∈ q.2.kids, k.Below (q.2 :: q.1) key := by
  constructor
  · rintro ⟨p, ⟨hp, hi, mid, hmid, hb⟩, hkey⟩
    obtain ⟨n, hn, hp⟩ := mem_places.mp hp
    obtain ⟨k, hk, hpk⟩ := Node.places_below hp hmid (by simp)
    exact ⟨k, hk, p, hpk, mid, hmid, hb, hi, hkey⟩
  · rintro ⟨k, hk, p, hp, mid, hmid, hb, hi, hkey⟩
    obtain ⟨n, hn, hqn⟩ := mem_places.mp hq
    have hpq : p ∈ q.2.places q.1 := by
      obtain ⟨above, ⟨l, ks⟩⟩ := q
      exact Node.mem_places_mk.mpr (Or.inr ⟨k, hk, hp⟩)
    exact ⟨p, ⟨mem_places.mpr ⟨n, hn, Node.places_trans hqn hpq⟩, hi, mid, hmid, hb⟩, hkey⟩

theorem registers_of_lists (h : s.Lists ks) (hc : s.Covered) (hd : t.serials.Nodup)
    (habove : ∀ a ∈ above.head?, a.isBlock = true)
    (hks : ∀ key, (∃ p, t.Declares above p ∧ p.2.key = key) ↔ ∃ k ∈ ks, k.Below above key) :
    t.Registers s above := by
  have hmem : ∀ key, key ∈ s.keys ↔ ∃ p, t.Declares above p ∧ p.2.key = key := by
    intro key
    rw [hks, h.keys, List.mem_flatMap]
    refine exists_congr fun k => and_congr_right fun hk => ?_
    obtain ⟨hs, ha⟩ := h.kids k hk
    exact hs.mem_entered ha habove
  refine ⟨h.distinct, ?_, ?_, ?_⟩
  · intro x d
    rw [← hmem, h.distinct.mem_keys]
  · intro p q hp hq hx
    have hserial : p.2.key = q.2.key :=
      List.inj_on_of_nodup_map h.distinct ((hmem _).mpr ⟨p, hp, rfl⟩) ((hmem _).mpr ⟨q, hq, rfl⟩) hx
    exact List.inj_on_of_nodup_map ((places_serials t).symm ▸ hd) hp.place hq.place
      (Prod.mk.inj hserial).2
  · intro c hmc
    obtain ⟨key, hkey, hname⟩ := Scope.declares_iff.mp (hc c hmc)
    obtain ⟨p, hp, rfl⟩ := (hmem key).mp hkey
    exact ⟨p, hp, hname⟩

/-- Scope tables mirror the tree: every scope declares just the variables that stand analyzed below
it as declared, each by its own node, and holds no other value. -/
theorem scopes_mirror_declarations (h : t.Reachable) : t.Registers t.globals [] ∧
    ∀ q ∈ t.places, ∀ kind s, q.2.form = .block kind s → t.Registers s (q.2 :: q.1) := by
  have htidy := h.kept.tidy h.staged
  constructor
  · exact registers_of_lists (h.kept.lists_roots h.staged) h.sound.covered h.unshared.distinct
      (by simp) fun _ => declares_root
  · intro q hq kind s hf
    obtain ⟨n, hn, hqn⟩ := mem_places.mp hq
    have hblock := (htidy n hn).places hqn
    have hhoused := (Node.spine_cons.mp (h.moored.spine hq)).1.2.housed
    obtain ⟨above, ⟨l, ks⟩⟩ := q
    have hscope : l.scope? = some s := by rw [Label.scope?, show l.form = _ from hf]
    obtain ⟨-, -, hcovered⟩ := hhoused.scope s hscope
    refine registers_of_lists ((Node.tidy_mk.mp hblock).1 kind s hf) hcovered h.unshared.distinct ?_
      fun _ => declares_block hq
    intro a ha
    cases ha
    rw [Node.isBlock, hf]

/-- A declaration that fails to evaluate, one that waits behind it and one in an open block. -/
def failedDeclaration : List Call :=
  [.insert ⟨"(", []⟩, .insert ⟨"new", []⟩, .insert ⟨"(", []⟩, .insert ⟨"init", []⟩,
    .insert ⟨"ID", "x"⟩, .insert ⟨"(", []⟩, .insert ⟨"SLASH", []⟩, .insert ⟨"INT", "1"⟩,
    .insert ⟨"INT", "0"⟩, .insert ⟨")", []⟩, .insert ⟨")", []⟩, .insert ⟨")", []⟩,
    .insert ⟨"(", []⟩, .insert ⟨"new", []⟩, .insert ⟨"(", []⟩, .insert ⟨"init", []⟩,
    .insert ⟨"ID", "y"⟩, .insert ⟨"INT", "1"⟩, .insert ⟨")", []⟩, .insert ⟨")", []⟩,
    .insert ⟨"\x7b", []⟩, .insert ⟨"(", []⟩, .insert ⟨"new", []⟩, .insert ⟨"(", []⟩,
    .insert ⟨"init", []⟩, .insert ⟨"ID", "x"⟩, .insert ⟨"INT", "2"⟩, .insert ⟨")", []⟩,
    .insert ⟨")", []⟩, .evaluate false []]

/-- Only the second declaration is left in the global scope; that of the block stays. -/
theorem scopes_mirror_declarations_failedDeclaration :
    (Run.of (none : Option (Dispatcher Unit)) () failedDeclaration).tree.Reachable ∧
      (∀ key,
        (∃ p, (Run.of (none : Option (Dispatcher Unit)) () failedDeclaration).tree.Declares [] p ∧
        p.2.key = key) ↔ key = (Bytes.ofString "y", 17)) ∧
      ∃ q ∈ (Run.of (none : Option (Dispatcher Unit)) () failedDeclaration).tree.places,
        ∃ p, (Run.of (none : Option (Dispatcher Unit)) () failedDeclaration).tree.Declares
          (q.2 :: q.1) p ∧ p.2.key = (Bytes.ofString "x", 26) := by
  have hreach : (Run.of (none : Option (Dispatcher Unit)) () failedDeclaration).tree.Reachable :=
    ⟨Unit, none, (), _, rfl⟩
  have hroot : (Run.of (none : Option (Dispatcher Unit)) () failedDeclaration).tree.globals =
      { keys := [("y", 17)] } := by
    decide +kernel
  have hblock : ∃ q ∈ (Run.of (none : Option (Dispatcher Unit)) () failedDeclaration).tree.places,
      q.2.form = .block .undetermined
        { self := 21, outer := some 0, keys := [("x", 26)] } := by
    decide +kernel
  obtain ⟨hglobal, hinner⟩ := scopes_mirror_declarations hreach
  obtain ⟨q, hq, hf⟩ := hblock
  refine ⟨hreach, ?_, q, hq, ?_⟩
  · rintro ⟨x, d⟩
    rw [← hglobal.declared, hroot]
    simp only [Scope.find?, List.find?_cons, List.find?_nil]
    cases hx : (Bytes.ofString "y" == x) with
    | true => simp [← eq_of_beq hx, eq_comm]
    | false =>
      have hne := ne_of_beq_false hx
      simp [Ne.symm hne]
  · exact ((hinner q hq _ _ hf).declared _ _).mp ⟨_, rfl, rfl⟩

end Tree

end TokenShell
