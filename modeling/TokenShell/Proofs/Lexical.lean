import TokenShell.Proofs.Visibility

/-! Names resolve lexically: a variable is bound to the innermost scope with a declaration of its
name that took effect before it. -/
namespace TokenShell

theorem Sight.named_flatMap (ks : List Node) : named (ks.flatMap (Node.sights false)) =
    ks.flatMap fun k => named (k.sights false) := by
  simp only [named, List.filterMap_flatMap, List.map_flatMap]

namespace Node

variable {n : Node} {site : Site} {m : Mention}

theorem Moored.block_fold (h : n.Moored site) (hm : .mention m ∈ n.fold sightStep)
    (ho : m.isOuter = true) : m.block = some site.block := by
  induction n using induct generalizing site m with
  | h l ks ih =>
    obtain ⟨hl, hks⟩ := berthed_mk.mp h.2
    rw [fold_mk] at hm
    by_cases hb : l.isBlock = true
    · obtain ⟨kind, s, hf⟩ := Label.isBlock_iff.mp hb
      rw [sightStep, hf] at hm
      rcases List.mem_append.mp hm with hm | hm
      · have hin := Sight.isOuter_enclose _ _ _ _ hm
        rw [Sight.isOuter, ho] at hin
        cases hin
      · simp at hm
    · have hb : l.isBlock = false := by simpa using hb
      have hsite : (l.site site.block).block = site.block := by simp [Label.site, hb]
      have hpart : ∀ v, .mention v ∈ (ks.map (fold sightStep)).flatten → v.isOuter = true →
          v.block = some site.block := by
        intro v hv hvo
        rw [← List.flatMap_def] at hv
        obtain ⟨k, hk, hv⟩ := List.mem_flatMap.mp hv
        rw [← hsite]
        exact ih k hk (hks k hk) hv hvo
      have hunder : ∀ b, ∀ x ∈ (ks.map (fold sightStep)).flatten, x.under b = .mention m →
          m.block = some site.block := by
        intro b x hx he
        cases x with
        | mention v =>
          cases he
          exact hpart v hx ho
        | scope _ _ => cases he
      rcases sightStep_cases hb (ks.map (fold sightStep)) with ⟨g, hg, he⟩ | ⟨d, k, -, he⟩ |
        ⟨-, v, more, hflat, -, he⟩
      · rw [he] at hm
        rcases hg with rfl | ⟨b, rfl⟩
        · rw [List.map_id] at hm
          exact hpart m hm ho
        · obtain ⟨x, hx, hm⟩ := List.mem_map.mp hm
          exact hunder b x hx hm
      · rw [he] at hm
        rcases List.mem_cons.mp hm with hm | hm
        · cases hm
          exact hl.block
        · obtain ⟨x, hx, hm⟩ := List.mem_map.mp hm
          exact hunder false x hx hm
      · rw [he] at hm
        rcases List.mem_append.mp hm with hm | hm
        · obtain ⟨x, hx, hm⟩ := List.mem_map.mp hm
          exact hunder false x (by simp [hflat, hx]) hm
        · cases List.mem_singleton.mp hm
          exact hl.block

/-- The search for a variable outside all blocks of a tree begins in the scope that the tree is in.
-/
theorem Moored.block_sights {b : Bool} (h : n.Moored site) (hm : .mention m ∈ n.sights b)
    (ho : m.isOuter = true) : m.block = some site.block := by
  obtain ⟨x, hx, he⟩ := List.mem_map.mp hm
  cases x with
  | mention v =>
    cases he
    exact h.block_fold (m := v) hx ho
  | scope _ _ => cases he

end Node

namespace Scope.Records

variable {s : Scope} {ks rs ps : List Node}

theorem named (h : s.Records ks) (hk : ∀ k ∈ ks, k.Settled ∨ Sight.named (k.sights false) = []) :
    s.keys = Sight.named (ks.flatMap (Node.sights false)) := by
  rw [h.keys, Sight.named_flatMap]
  refine List.flatMap_congr fun k hm => ?_
  rcases hk k hm with hs | hnil
  · exact hs.entered_eq_named
  · rw [hnil]
    obtain ⟨rs, ps, rfl, hr, hp⟩ := h.order
    rcases List.mem_append.mp hm with hm | hm
    · rw [(hr k hm).entered_eq_named, hnil]
    · exact (hp k hm).raw.entered

theorem named_settled (h : s.Records (rs ++ ps)) (hr : ∀ r ∈ rs, r.Settled)
    (hp : ∀ p ∈ ps, p.Upper Label.Planted) :
    s.keys = Sight.named (rs.flatMap (Node.sights false)) := by
  have hps : ps.flatMap Node.entered = [] :=
    List.flatMap_eq_nil_iff.mpr fun p hm => (hp p hm).raw.entered
  rw [h.keys, List.flatMap_append, hps, List.append_nil, Sight.named_flatMap]
  exact List.flatMap_congr fun r hm => (hr r hm).entered_eq_named

end Scope.Records

namespace Tree

variable {t u : Tree} {tok : Token} {f : Option Failure} {n : Node} {path rest ks : List Node}
  {s : Scope} {os : Scopes} {m : Mention}

/-- The declarations around the children of the first of some open nodes. -/
def context (t : Tree) (path : List Node) : List (List Declared) :=
  path.foldr Node.widen [Node.declaredAll t.fragments]

/-- The declarations around the scope at the cursor. -/
def beyond (t : Tree) : List (List Declared) :=
  match t.path with
  | [] => []
  | _ :: rest => t.context rest

/-- Every variable of the tree that is inside a block or a fragment is bound right. -/
structure Resolved (t : Tree) : Prop where
  fragments : Sight.Bound [] (Sight.enclose [] [] (t.fragments.map (Node.sights false)))
  path : ∀ n rest, n :: rest <:+ t.path → Sight.Bound (t.context rest) (n.sights false)

/-- What is closed in the scopes of some open nodes and not analyzed declares nothing there. -/
structure Abreast (t : Tree) (path : List Node) : Prop where
  fragments : ∀ k ∈ t.fragments, k.Settled ∨ Sight.named (k.sights false) = []
  blocks : ∀ n ∈ path, n.isBlock = true → ∀ k ∈ n.kids,
    k.Settled ∨ Sight.named (k.sights false) = []

/-- The states in the middle of an insertion. -/
structure Poised (t : Tree) : Prop where
  staged : t.Staged
  kept : t.Kept
  moored : t.Moored
  timed : t.Timed
  pending : ∀ n rest, t.path = n :: rest → t.Abreast rest
  resolved : t.Resolved

/-- The states that insertions without a failure lead to. -/
structure Orderly (t : Tree) : Prop extends t.Poised where
  abreast : t.Abreast t.path

theorem Abreast.tail (h : t.Abreast (n :: path)) : t.Abreast path :=
  ⟨h.fragments, fun k hk => h.blocks k (by simp [hk])⟩

theorem Resolved.head (h : t.Resolved) (hp : t.path = n :: rest) :
    Sight.Bound (t.context rest) (n.sights false) :=
  h.path n rest (hp ▸ List.suffix_refl _)

theorem Resolved.append (h : t.Resolved) (hn : Sight.Bound (t.context t.path) (n.sights false))
    (hraw : n.Raw) (ht : (t.timeline ++ n.times).Pairwise (· < ·)) : (t.append n).Resolved := by
  unfold Tree.append
  split
  · next hp =>
    rw [hp, context, List.foldr_nil, Node.declaredAll, List.flatMap_def] at hn
    simp only [timeline, hp, List.reverse_nil, List.flatMap_nil, List.append_nil] at ht
    rw [← Node.times_flatMap, List.flatMap_def] at ht
    refine ⟨?_, ?_⟩
    · rw [List.map_append]
      refine h.fragments.concat hn hraw.analyzed_sights ?_
      exact fun m hm d hd => Sight.not_follows ht hm hd
    · intro k rest hk
      rw [hp] at hk
      have hlen := hk.length_le
      simp at hlen
  · next p path hp =>
    rw [hp] at hn
    have htimes : (p.times ++ n.times).Pairwise (· < ·) := by
      simp only [timeline, hp, List.reverse_cons, List.flatMap_append, List.flatMap_singleton,
        List.append_assoc] at ht
      exact (List.pairwise_append.mp (List.pairwise_append.mp ht).2.1).2.1
    refine ⟨h.fragments, ?_⟩
    intro k rest hk
    rcases List.suffix_cons_iff.mp hk with he | hk
    · obtain ⟨rfl, rfl⟩ := List.cons.inj he
      exact Node.bound_push (h.head hp) hn hraw htimes
    · exact h.path k rest (hk.trans (by rw [hp]; exact List.suffix_cons ..))

theorem Resolved.leave (h : t.Resolved) (hd : t.Dated) (hs : t.Staged)
    (ht : (t.timeline ++ [t.clock]).Pairwise (· < ·)) : t.leave.Resolved := by
  cases hp : t.path with
  | nil =>
    rw [Tree.leave, hp]
    exact h
  | cons n path =>
    rw [leave_cons hp]
    have hshut := Node.times_shut (hd.opened n (by simp [hp])) t.clock
    refine Resolved.append ⟨h.fragments, ?_⟩ ?_ ((hs.path n (by simp [hp])).shut _).raw ?_
    · exact fun k rest hk => h.path k rest (hk.trans (by rw [hp]; exact List.suffix_cons ..))
    · obtain ⟨l, ks⟩ := n
      have hhead := h.head hp
      exact Node.bound_relabel (l := l) rfl hhead
    · refine List.Pairwise.sublist ?_ ht
      simp only [timeline, hp, List.reverse_cons, List.flatMap_append, List.flatMap_singleton,
        List.append_assoc]
      exact (hshut.append_left _).append_left _

theorem Resolved.collected (h : t.Resolved) (ha : t.atScope = true) :
    Sight.Bound t.beyond (Sight.enclose [] [] (t.collected.map (Node.sights false))) := by
  cases hp : t.path with
  | nil =>
    simp only [beyond, Tree.collected, hp]
    exact h.fragments
  | cons n path =>
    rw [atScope, hp] at ha
    simp only [beyond, Tree.collected, hp]
    obtain ⟨l, js⟩ := n
    exact (Node.bound_block ha []).mp (h.head hp)

theorem Resolved.refit (h : t.Resolved) (ha : t.atScope = true)
    (hb : Sight.Bound t.beyond (Sight.enclose [] [] (ks.map (Node.sights false)))) :
    (t.refit ks s).Resolved := by
  unfold Tree.refit
  split
  · next hp =>
    simp only [beyond, hp] at hb
    refine ⟨hb, ?_⟩
    intro k rest hk
    rw [hp] at hk
    have hlen := hk.length_le
    simp at hlen
  · next n path hp =>
    rw [atScope, hp] at ha
    simp only [beyond, hp] at hb
    refine ⟨h.fragments, ?_⟩
    intro k rest hk
    rcases List.suffix_cons_iff.mp hk with he | hk
    · obtain ⟨rfl, rfl⟩ := List.cons.inj he
      obtain ⟨l, js⟩ := n
      have ha : l.isBlock = true := ha
      obtain ⟨kind, s', hf⟩ := Label.isBlock_iff.mp ha
      have hset : (Node.mk l ks).setScope s = .mk { l with form := .block kind s } ks := by
        simp [Node.setScope, hf]
      rw [Node.label_mk, hset]
      exact (Node.bound_block (by rfl) []).mpr hb
    · exact h.path k rest (hk.trans (by rw [hp]; exact List.suffix_cons ..))

/-! Look-up by scopes and by declarations. -/

theorem context_times (h : t.Dated) (hsub : ∀ n ∈ path, n ∈ t.path) :
    ∀ ds ∈ t.context path, ∀ d ∈ ds, ∃ a, d.time = some a ∧
      a ∈ t.fragments.flatMap Node.times ++ path.reverse.flatMap Node.times := by
  have hdated : ∀ ks : List Node, (∀ k ∈ ks, k.Dated) → ∀ d ∈ Node.declaredAll ks,
      ∃ a, d.time = some a ∧ a ∈ ks.flatMap Node.times := by
    intro ks hks d hd
    obtain ⟨m, hm, ht⟩ := Sight.mem_declared hd
    obtain ⟨k, hk, hmk⟩ := List.mem_flatMap.mp hm
    obtain ⟨a, ha⟩ := Option.ne_none_iff_exists'.mp (hks k hk _ hmk)
    refine ⟨a, ht.symm.trans ha, ?_⟩
    rw [← Node.times_flatMap]
    exact Sight.mem_times hm ha
  induction path with
  | nil =>
    intro ds hds d hd
    obtain rfl : ds = Node.declaredAll t.fragments := by simpa [context] using hds
    simpa using hdated _ h.fragments d hd
  | cons n path ih =>
    have ih := ih fun k hk => hsub k (by simp [hk])
    have hgrow : ∀ ds ∈ t.context path, ∀ d ∈ ds, ∃ a, d.time = some a ∧
        a ∈ t.fragments.flatMap Node.times ++ (n :: path).reverse.flatMap Node.times := by
      intro ds hds d hd
      obtain ⟨a, ha, hm⟩ := ih ds hds d hd
      refine ⟨a, ha, ?_⟩
      rw [List.reverse_cons, List.flatMap_append, ← List.append_assoc]
      exact List.mem_append_left _ hm
    obtain ⟨l, ks⟩ := n
    have hcons : t.context (Node.mk l ks :: path) = (Node.mk l ks).widen (t.context path) := rfl
    intro ds hds d hd
    rw [hcons] at hds
    by_cases hb : l.isBlock = true
    · rw [Node.widen_block hb] at hds
      rcases List.mem_cons.mp hds with rfl | hds
      · obtain ⟨a, ha, hm⟩ := hdated ks (h.kids (Node.mk l ks) (hsub _ (by simp))) d hd
        refine ⟨a, ha, ?_⟩
        simp [Node.times_block hb, hm]
      · exact hgrow ds hds d hd
    · rw [Node.widen_other (by simpa using hb)] at hds
      exact hgrow ds hds d hd

theorem forall₂_context (hk : t.Kept) (ha : t.Abreast path) (hsub : ∀ n ∈ path, n ∈ t.path)
    (hm : ∀ ds ∈ t.context path, ∀ d ∈ ds, m.follows d = true) :
    List.Forall₂ (fun s ds => s.declares m.name = m.knows ds)
      (path.filterMap Node.scope? ++ [t.globals]) (t.context path) := by
  have hscope : ∀ {s : Scope} {ks : List Node}, s.Records ks →
      (∀ k ∈ ks, k.Settled ∨ Sight.named (k.sights false) = []) →
      (∀ d ∈ Node.declaredAll ks, m.follows d = true) →
      s.declares m.name = m.knows (Node.declaredAll ks) := by
    intro s ks hr hks hd
    rw [Bool.eq_iff_iff, Mention.knows_earlier hd, Scope.declares_iff, hr.named hks]
    simp [Sight.named, Node.declaredAll, Sight.declared]
  induction path with
  | nil => exact .cons (hscope hk.root ha.fragments (hm _ (by simp [context]))) .nil
  | cons n path ih =>
    obtain ⟨l, ks⟩ := n
    have hcons : t.context (Node.mk l ks :: path) = (Node.mk l ks).widen (t.context path) := rfl
    have hsub' : ∀ n ∈ path, n ∈ t.path := fun k hk => hsub k (by simp [hk])
    rw [hcons] at hm ⊢
    by_cases hb : l.isBlock = true
    · obtain ⟨kind, s, hf⟩ := Label.isBlock_iff.mp hb
      have hsc : (Node.mk l ks).scope? = some s := by rw [Node.scope?, Node.form_mk, hf]
      rw [Node.widen_block hb] at hm ⊢
      rw [List.filterMap_cons, hsc]
      have hn : Node.mk l ks ∈ t.path := hsub _ (by simp)
      have hks := ha.blocks (Node.mk l ks) (by simp) hb
      refine .cons (hscope (hk.blocks _ hn kind s hf).2 hks (hm _ (by simp))) ?_
      exact ih ha.tail hsub' fun ds hds => hm ds (by simp [hds])
    · have hb : l.isBlock = false := by simpa using hb
      have hsc : (Node.mk l ks).scope? = none := by
        have hsome := Node.scope?_isSome (Node.mk l ks)
        rw [← Node.isBlock_label, Node.label_mk, hb] at hsome
        simpa using hsome
      rw [Node.widen_other hb] at hm ⊢
      rw [List.filterMap_cons, hsc]
      exact ih ha.tail hsub' hm

/-- The scopes around that at the cursor declare what the variables below it see there. -/
theorem forall₂_beyond (hk : t.Kept) (ha : ∀ n rest, t.path = n :: rest → t.Abreast rest)
    (ht : t.Timed) (hat : t.atScope = true) (hs : t.scopes = s :: os)
    (hm : .mention m ∈ t.collected.flatMap (Node.sights false)) :
    List.Forall₂ (fun s ds => s.declares m.name = m.knows ds) os t.beyond := by
  cases hp : t.path with
  | nil =>
    simp only [scopes, hp, List.filterMap_nil, List.nil_append, List.cons.injEq] at hs
    rw [← hs.2, beyond, hp]
    exact .nil
  | cons n path =>
    rw [atScope, hp] at hat
    obtain ⟨l, ks⟩ := n
    have hat : l.isBlock = true := hat
    obtain ⟨kind, s', hf⟩ := Label.isBlock_iff.mp hat
    have hsc : (Node.mk l ks).scope? = some s' := by rw [Node.scope?, Node.form_mk, hf]
    simp only [scopes, hp, List.filterMap_cons, hsc, List.cons_append, List.cons.injEq] at hs
    simp only [collected, hp, Node.kids_mk] at hm
    rw [← hs.2, beyond, hp]
    have hsub : ∀ n ∈ path, n ∈ t.path := fun n hn => by simp [hp, hn]
    refine forall₂_context hk (ha _ path hp) hsub ?_
    intro ds hds d hd
    -- All that is declared around the block was closed before the block was opened.
    obtain ⟨a, hda, hma⟩ := context_times ht.dated hsub ds hds d hd
    obtain ⟨k, hkm, hmk⟩ := List.mem_flatMap.mp hm
    obtain ⟨b, hb⟩ := Option.ne_none_iff_exists'.mp
      (ht.dated.kids (Node.mk l ks) (by simp [hp]) k hkm _ hmk)
    have horder := ht.order
    simp only [timeline, hp, List.reverse_cons, List.flatMap_append, List.flatMap_singleton,
      ← List.append_assoc] at horder
    have hlt := (List.pairwise_append.mp horder).2.2 a hma b (by
      rw [Node.times_block hat, ← Node.times_flatMap]
      exact Sight.mem_times hm hb)
    rw [Mention.follows, hda, hb]
    simpa using hlt

end Tree

/-- When analysis comes to a variable, its scope declares what took effect before. -/
theorem Sight.declares_at {before after : List Sight} {m : Mention} {s : Scope}
    (hs : s.keys = named before) (ht : (times (before ++ .mention m :: after)).Pairwise (· < ·))
    (hd : ∀ x ∈ before ++ .mention m :: after, x.Dated) :
    s.declares m.name = m.knows (declared (before ++ .mention m :: after)) := by
  rw [times_append] at ht
  have hself : m.knows (declared [.mention m]) = false := by
    refine Mention.knows_later fun d hm => ?_
    obtain ⟨v, hv, htime⟩ := mem_declared hm
    cases List.mem_singleton.mp hv
    rw [Mention.follows, ← htime]
    cases m.time <;> simp
  have hafter : m.knows (declared after) = false := by
    have ht : (times [.mention m] ++ times after).Pairwise (· < ·) := by
      rw [← times_append]
      exact (List.pairwise_append.mp ht).2.1
    exact Mention.knows_later fun d => not_follows ht (by simp)
  have hbefore : ∀ d ∈ declared before, m.follows d = true := by
    intro d
    exact follows ht (fun x hx => hd x (by simp [hx])) (fun x hx => hd x (by simp [hx])) (by simp)
  rw [← List.singleton_append, declared_append, declared_append, Mention.knows_append,
    Mention.knows_append, hself, hafter, Bool.or_false, Bool.or_false, Bool.eq_iff_iff,
    Mention.knows_earlier hbefore, Scope.declares_iff, hs]
  simp [named, declared]

namespace Tree

variable {t u : Tree} {tok : Token} {f : Failure} {n : Node} {path rest ks : List Node} {s : Scope}
  {os : Scopes} {m : Mention}

/-- The variables below the scope at the cursor take effect in their order. -/
theorem Timed.collected (h : t.Timed) (ha : t.atScope = true) :
    (Sight.times (t.collected.flatMap (Node.sights false))).Pairwise (· < ·) ∧
      ∀ x ∈ t.collected.flatMap (Node.sights false), x.Dated := by
  have horder := h.order
  rw [Node.times_flatMap]
  cases hp : t.path with
  | nil =>
    simp only [timeline, hp, List.reverse_nil, List.flatMap_nil, List.append_nil] at horder
    simp only [Tree.collected, hp]
    refine ⟨horder, fun x hx => ?_⟩
    obtain ⟨k, hk, hx⟩ := List.mem_flatMap.mp hx
    exact h.dated.fragments k hk x hx
  | cons n path =>
    rw [atScope, hp] at ha
    obtain ⟨l, ks⟩ := n
    have ha : l.isBlock = true := ha
    simp only [timeline, hp, List.reverse_cons, List.flatMap_append, List.flatMap_singleton,
      ← List.append_assoc, Node.times_block ha] at horder
    simp only [Tree.collected, hp]
    refine ⟨(List.pairwise_append.mp horder).2.1, fun x hx => ?_⟩
    obtain ⟨k, hk, hx⟩ := List.mem_flatMap.mp hx
    exact h.dated.kids (Node.mk l ks) (by simp [hp]) k hk x hx

/-- The fragments at the cursor belong to the scope there. -/
theorem Moored.collected (h : t.Moored) : ∀ k ∈ t.collected, k.Moored (Node.siteBelow t.path) := by
  cases hp : t.path with
  | nil =>
    simp only [Tree.collected, hp]
    exact h.fragments
  | cons n path =>
    simp only [Tree.collected, hp]
    have hn := (Node.spine_cons.mp (hp ▸ h.path)).1
    obtain ⟨l, ks⟩ := n
    exact (Node.berthed_mk.mp hn.2).2

/-- What analysis finds out about a variable when it comes to it: the fragments `rs` have been
analyzed and those of `ps` are being analyzed. -/
theorem Poised.lookup_at (h : t.Poised) (hat : t.atScope = true) (hs : t.scopes = s :: os)
    {rs ps : List Node} (hcol : t.collected = rs ++ ps) (hr : ∀ r ∈ rs, r.Settled)
    (hp : ∀ p ∈ ps, p.Upper Label.Planted) {before after : List Sight}
    (hx : ps.flatMap (Node.sights false) = before ++ .mention m :: after) (ho : m.isOuter = true) :
    (s.extend (Sight.named before)).declares m.name = m.knows (Node.declaredAll t.collected) ∧
      Scopes.lookup m.name m.block (s.extend (Sight.named before) :: os) =
        m.resolve (Node.declaredAll t.collected :: t.beyond) := by
  have hsights : t.collected.flatMap (Node.sights false) =
      (rs.flatMap (Node.sights false) ++ before) ++ .mention m :: after := by
    rw [hcol, List.flatMap_append, hx, List.append_assoc]
  have hmem : .mention m ∈ t.collected.flatMap (Node.sights false) := by simp [hsights]
  have hrec := h.kept.records hat hs
  rw [hcol] at hrec
  have hkeys : (s.extend (Sight.named before)).keys =
      Sight.named (rs.flatMap (Node.sights false) ++ before) := by
    rw [Scope.keys_extend, hrec.named_settled hr hp, Sight.named_append]
  obtain ⟨horder, hdated⟩ := h.timed.collected hat
  rw [hsights] at horder hdated
  have hdecl := Sight.declares_at hkeys horder hdated
  rw [← hsights] at hdecl
  have hblock : m.block = some (s.extend (Sight.named before)).self := by
    obtain ⟨k, hk, hmk⟩ := List.mem_flatMap.mp hmem
    obtain ⟨-, s', hs', hin⟩ := h.moored.scopes
    rw [hs] at hs'
    cases hs'
    rw [(h.moored.collected k hk).block_sights hmk ho, ← h.moored.site.2, hin]
    rfl
  have hchained : Scopes.Chained (s.extend (Sight.named before) :: os) := by
    have hc := h.moored.scopes.1
    rw [hs] at hc
    exact hc.extend _
  refine ⟨hdecl, ?_⟩
  rw [hblock, Scopes.lookup_chained hchained]
  exact Scopes.innermost_eq_resolve
    (.cons hdecl (forall₂_beyond h.kept h.pending h.timed hat hs hmem))

/-- A flush that succeeds binds the variables of the fragments right. -/
theorem Poised.resolved_flush (h : t.Poised) (hat : t.atScope = true)
    (hf : t.flush.failure = none) : t.flush.tree.Resolved := by
  obtain ⟨s, os, u, hs, -, htree, hfail⟩ := flush_refit hat
  have hrec := h.kept.records hat hs
  obtain ⟨rs, ms, qs, rest, v, hcol, hr, hm, hkids, hd, hend⟩ := hrec.flushed t.innerBlock os
  obtain ⟨rfl, -⟩ := hend (hfail ▸ hf)
  rw [List.append_nil] at hcol hkids hm
  have hblank : List.Forall₂ (fun f g => g.map Sight.blank = f.map Sight.blank)
      (t.collected.map (Node.sights false)) ((rs ++ qs).map (Node.sights false)) := by
    rw [hcol, List.forall₂_map_left_iff, List.forall₂_map_right_iff]
    refine List.rel_append (R := fun k j : Node => (j.sights false).map Sight.blank =
      (k.sights false).map Sight.blank) (List.forall₂_same.mpr fun _ _ => rfl) ?_
    exact hd.fragments.imp fun _ _ hq => hq.2.2
  have hdecl : Sight.declared ((rs ++ qs).map (Node.sights false)).flatten =
      Node.declaredAll t.collected := by
    rw [Node.declaredAll, List.flatMap_def]
    exact Sight.declared_of_blank (Sight.blank_flatten hblank)
  rw [htree, hkids]
  refine h.resolved.refit hat ((h.resolved.collected hat).replace hblank ?_)
  intro y hy ho
  rw [← List.flatMap_def, List.flatMap_append] at hy
  rcases List.mem_append.mp hy with hy | hy
  · left
    rw [← List.flatMap_def, hcol, List.flatMap_append]
    exact List.mem_append_left _ hy
  · right
    obtain ⟨-, -, hall⟩ := Sight.mapM_analyze_ok hd.run
    obtain ⟨before, x, after, hx, htaken⟩ := hall _ hy
    cases htaken with
    | inner hi =>
      rw [Sight.isOuter, ho] at hi
      cases hi
    | entered _ hrole _ => exact fun _ hne => (hne hrole).elim
    | @found m k houter _ hlook =>
      intro _ _
      refine ⟨k, rfl, ?_⟩
      rw [Mention.resolve_eq (m.boundTo k) m rfl rfl, hdecl,
        ← (h.lookup_at hat hs hcol hr hm hx houter).2, hlook]

theorem named_sprout (tok : Token) (serial : Nat) (site : Node.Site) (m : Option Marker) :
    Sight.named ((Node.sprout tok serial site m).sights false) = [] := by
  rw [Node.sprout, Node.sights_mk, Node.sightStep]
  dsimp only
  cases (Form.ofToken tok).link serial site.block <;> rfl

theorem Abreast.append (h : t.Abreast t.path) (hn : Sight.named (n.sights false) = []) :
    (t.append n).Abreast (t.append n).path := by
  refine ⟨forall_fragments_append h.fragments (Or.inr hn), forall_path_append h.blocks ?_⟩
  intro m hm hb
  exact List.forall_mem_append.mpr ⟨hm hb, by simp [hn]⟩

/-- Where a node was closed, only the scope that it went to may have something pending. -/
theorem Abreast.leave (h : t.Abreast t.path) :
    ∀ n rest, t.leave.path = n :: rest → t.leave.Abreast rest := by
  intro n rest hn
  cases hp : t.path with
  | nil =>
    rw [Tree.leave, hp] at hn
    dsimp only at hn
    rw [hp] at hn
    cases hn
  | cons k path =>
    rw [hp] at h
    rw [leave_cons hp] at hn ⊢
    unfold Tree.append at hn ⊢
    split at hn
    · next he =>
      dsimp only at he
      rw [he] at hn
      cases hn
    · next p path' he =>
      obtain ⟨-, rfl⟩ := List.cons.inj hn
      dsimp only at he
      rw [he] at h
      exact ⟨h.fragments, h.tail.tail.blocks⟩

theorem Abreast.flush (ha : ∀ n rest, t.path = n :: rest → t.Abreast rest) (hat : t.atScope = true)
    (hs : ∀ k ∈ t.flush.tree.collected, k.Settled) : t.flush.tree.Abreast t.flush.tree.path := by
  obtain ⟨s, os, u, -, -, ht, -⟩ := flush_refit hat
  rw [ht, collected_refit] at hs
  rw [ht]
  unfold refit
  split
  · next hp => exact ⟨fun k hk => Or.inl (hs k hk), by simp [hp]⟩
  · next n path hp =>
    have h := ha n path hp
    refine ⟨h.fragments, ?_⟩
    intro i hi hb k hk
    rcases List.mem_cons.mp hi with rfl | hi
    · rw [Node.setScope_eq] at hk
      exact Or.inl (hs k hk)
    · exact h.blocks i hi hb k hk

theorem orderly_fresh : ({} : Tree).Orderly where
  staged := ⟨by simp, by simp⟩
  kept := kept_fresh
  moored := moored_fresh
  timed := ⟨⟨by simp, by simp, by simp⟩, by simp [timeline], by simp [timeline]⟩
  pending := by simp
  abreast := ⟨by simp, by simp⟩
  resolved := by
    refine ⟨?_, ?_⟩
    · intro m hm
      cases hm
    · intro n rest hn
      have hlen := hn.length_le
      simp at hlen

theorem Abreast.pending (h : t.Abreast t.path) : ∀ n rest, t.path = n :: rest → t.Abreast rest :=
  fun _ _ hp => (hp ▸ h).tail

theorem Orderly.tick (h : t.Orderly) : ({ t with clock := t.clock + 1 } : Tree).Orderly where
  staged := ⟨h.staged.fragments, h.staged.path⟩
  kept := ⟨h.kept.root, h.kept.kids, h.kept.blocks⟩
  moored := ⟨h.moored.fragments, h.moored.path, h.moored.globals⟩
  timed := ⟨⟨h.timed.dated.opened, h.timed.dated.fragments, h.timed.dated.kids⟩, h.timed.order,
    fun x hx => Nat.le_succ_of_le (h.timed.bound x hx)⟩
  pending := fun n rest hp => ⟨h.abreast.fragments, (h.pending n rest hp).blocks⟩
  abreast := ⟨h.abreast.fragments, h.abreast.blocks⟩
  resolved := ⟨h.resolved.fragments, h.resolved.path⟩

theorem Poised.flush (h : t.Poised) (hat : t.atScope = true) (hf : t.flush.failure = none) :
    t.flush.tree.Orderly := by
  obtain ⟨hk, hset⟩ := h.kept.flush hat hf
  have ha := Abreast.flush h.pending hat hset
  exact ⟨⟨(h.staged.flush hat).tree, hk, h.moored.flush h.staged, h.timed.flush h.kept hat,
    ha.pending, h.resolved_flush hat hf⟩, ha⟩

theorem Orderly.closing (h : t.Orderly) (hc : t.Closing tok u) : u.Orderly := by
  rcases h.staged.closing_cases hc with ⟨rfl, -⟩ | ⟨ha, rfl, hf⟩
  · exact h
  · exact h.flush ha hf

/-- A node that a token closes leaves its parent in the middle of an insertion. -/
theorem Orderly.leave (h : t.Orderly) (hlt : ∀ x ∈ t.timeline, x < t.clock)
    (hc : t.Closing tok u) : u.leave.Poised := by
  have hu := h.closing hc
  obtain ⟨hk, hb⟩ := h.kept.closing h.staged hc
  have htime := (h.timed.dated.closing h.kept h.staged hc).2
  have horder : (u.timeline ++ [u.clock]).Pairwise (· < ·) := by
    rw [htime, hc.clock]
    exact h.timed.concat hlt
  refine ⟨hu.staged.leave, hk.leave hu.staged hb, hu.moored.leave,
    ⟨hu.timed.dated.leave, ?_, ?_⟩, hu.abreast.leave,
    hu.resolved.leave hu.timed.dated hu.staged horder⟩
  · exact horder.sublist (timeline_leave hu.timed.dated)
  · intro x hx
    rw [clock_leave]
    rcases List.mem_append.mp ((timeline_leave hu.timed.dated).subset hx) with hx | hx
    · exact hu.timed.bound x hx
    · cases List.mem_singleton.mp hx
      exact Nat.le_refl _

theorem Orderly.place (h : t.Orderly) (hc : 0 < t.clock) (hlt : ∀ x ∈ t.timeline, x < t.clock)
    (hp : t.Placed tok u none) (hs : u.Staged) : u.Orderly := by
  have hk := (h.kept.place h.staged hp).2 rfl
  have hm := h.moored.place h.staged hc hp
  have ht := h.timed.place hlt h.kept h.staged hp
  suffices hcase : u.Abreast u.path ∧ u.Resolved from
    ⟨⟨hs, hk, hm, ht, hcase.1.pending, hcase.2⟩, hcase.1⟩
  generalize hg : (none : Option Failure) = g at hp
  cases hp with
  | refused _ _ => cases hg
  | blocked _ _ _ _ _ _ => cases hg
  | awaiting _ =>
    exact ⟨⟨h.abreast.fragments, h.abreast.blocks⟩, h.resolved.fragments, h.resolved.path⟩
  | leaf k _ _ =>
    have htimes := (dated_sprout tok t.clock k none).2
    exact ⟨h.abreast.append (named_sprout ..), h.resolved.append Node.bound_childless
      (Node.raw_sprout tok t.clock k none) ((h.timed.concat hlt).sublist (htimes.append_left _))⟩
  | entered k m _ _ =>
    refine ⟨⟨h.abreast.fragments, ?_⟩, h.resolved.fragments, ?_⟩
    · intro n hn
      rcases List.mem_cons.mp hn with rfl | hn
      · simp [Node.sprout]
      · exact h.abreast.blocks n hn
    · intro n rest hn
      rcases List.suffix_cons_iff.mp hn with he | hn
      · obtain ⟨rfl, -⟩ := List.cons.inj he
        exact Node.bound_childless
      · exact h.resolved.path n rest hn
  | flushed _ ha =>
    have hu := h.flush ha hg.symm
    exact ⟨hu.abreast, hu.resolved⟩
  | left v hv hat =>
    have hu := h.leave hlt hv
    refine ⟨?_, hu.resolved⟩
    cases hpath : v.leave.path with
    | nil => simp [atScope, hpath] at hat
    | cons n rest =>
      have hnb : n.isBlock = false := by simpa [atScope, hpath] using hat
      have hrest := hu.pending n rest hpath
      refine ⟨hrest.fragments, ?_⟩
      intro i hi hb
      rcases List.mem_cons.mp hi with rfl | hi
      · rw [hnb] at hb
        cases hb
      · exact hrest.blocks i hi hb
  | delivered v hv ha =>
    have hu := (h.leave hlt hv).flush ha hg.symm
    exact ⟨hu.abreast, hu.resolved⟩

/-! The variables of a whole tree. -/

/-- The variables of a tree, with the scopes around them up to the global one. -/
def mentions (t : Tree) : List Mention :=
  (Sight.enclose t.globals.keys [] (t.roots.map (Node.sights false))).filterMap Sight.mention?

theorem mem_mentions : m ∈ t.mentions ↔
    .mention m ∈ Sight.enclose t.globals.keys [] (t.roots.map (Node.sights false)) := by
  rw [mentions, List.mem_filterMap]
  constructor
  · rintro ⟨x, hx, hm⟩
    cases x with
    | mention v =>
      cases hm
      exact hx
    | scope _ _ => cases hm
  · exact fun h => ⟨_, h, rfl⟩

/-- The tree with its innermost open node as if it were closed. -/
def tuck (t : Tree) : Tree :=
  match t.path with
  | [] => t
  | n :: path => { t with path }.append n

theorem tuck_cons (hp : t.path = n :: path) : t.tuck = { t with path }.append n := by
  rw [tuck, hp]

theorem roots_tuck (t : Tree) : t.tuck.roots = t.roots := by
  cases hp : t.path with
  | nil => rw [tuck, hp]
  | cons n path =>
    rw [tuck_cons hp]
    cases path with
    | nil => simp [Tree.append, Tree.roots, openFragment, hp]
    | cons p path => simp [Tree.append, Tree.roots, openFragment, hp]

theorem Resolved.roots (h : t.Resolved) (hd : ∀ n ∈ t.path, n.label.closedAt = none ∧ n.Raw)
    (ht : t.timeline.Pairwise (· < ·)) (keys : List Key) :
    Sight.Bound [] (Sight.enclose keys [] (t.roots.map (Node.sights false))) := by
  -- One open node after the other is put below the next, up to the root.
  induction hl : t.path.length generalizing t with
  | zero =>
    have hp : t.path = [] := List.length_eq_zero_iff.mp hl
    have hroots : t.roots = t.fragments := by simp [Tree.roots, hp, openFragment]
    rw [hroots]
    exact Sight.bound_enclose.mpr (Sight.bound_enclose.mp h.fragments)
  | succ len ih =>
    obtain ⟨n, path, hp⟩ := List.exists_cons_of_length_eq_add_one hl
    have htimes : ({ t with path } : Tree).timeline ++ n.times = t.timeline := by
      simp [timeline, hp]
    have hpath : ∀ m ∈ path, m.label.closedAt = none ∧ m.Raw := fun m hm => hd m (by simp [hp, hm])
    have hraw := (hd n (by simp [hp])).2
    rw [← roots_tuck, tuck_cons hp]
    refine ih (Resolved.append ⟨h.fragments, ?_⟩ (h.head hp) hraw (htimes ▸ ht)) ?_ ?_ ?_
    · exact fun k rest hk => h.path k rest (hk.trans (by rw [hp]; exact List.suffix_cons ..))
    · cases path with
      | nil => simp [Tree.append]
      | cons p path =>
        obtain ⟨hc, hr⟩ := hpath p (by simp)
        intro m hm
        rcases List.mem_cons.mp hm with rfl | hm
        · exact ⟨hc, Node.raw_push hr hraw⟩
        · exact hpath m (by simp [hm])
    · refine List.Pairwise.sublist (timeline_append (fun m hm => (hpath m hm).1) n) ?_
      rw [htimes]
      exact ht
    · rw [hp, List.length_cons] at hl
      have hlen : path.length = len := by omega
      cases path <;> simpa [Tree.append] using hlen

theorem within_append (m : Mention) (g : Frame) (fs : List Frame) :
    ({ m.within g with frames := (m.within g).frames ++ fs } : Mention) =
      { m with frames := m.frames ++ (g :: fs) } := by
  simp [Mention.within]

/-- A scope puts a frame around each variable of its fragments. -/
theorem mem_enclose_fragment (keys : List Key) (gs hs : List Node)
    (hm : .mention m ∈ n.sights false) :
    .mention (m.within ⟨keys, Node.declaredAll (gs ++ hs), Sight.declared (n.sights false)⟩) ∈
      Sight.enclose keys [] ((gs ++ n :: hs).map (Node.sights false)) := by
  refine Sight.mem_enclose.mpr ⟨gs.map (Node.sights false), n.sights false,
    hs.map (Node.sights false), by simp, _, hm, ?_⟩
  rw [List.nil_append, ← List.flatMap_def, ← List.flatMap_def, ← List.flatMap_append]
  rfl

/-- A variable inside the innermost open node sees, beyond that node, what is declared around it. -/
theorem lift_mention (hp : t.path = n :: rest) (hm : .mention m ∈ n.sights false)
    (ho : m.isOuter = false) : ∃ fs, ({ m with frames := m.frames ++ fs } : Mention) ∈ t.mentions ∧
      ({ m with frames := m.frames ++ fs } : Mention).sees = m.sees ++ t.context rest := by
  induction rest generalizing t n m with
  | nil =>
    refine ⟨[⟨t.globals.keys, Node.declaredAll t.fragments, Sight.declared (n.sights false)⟩], ?_,
      ?_⟩
    · have hin := mem_enclose_fragment t.globals.keys t.fragments [] hm
      have hroots : t.roots = t.fragments ++ [n] := by simp [Tree.roots, hp, openFragment]
      rw [List.append_nil, ← hroots] at hin
      exact mem_mentions.mpr hin
    · exact Mention.sees_within_inner ho
  | cons p rest ih =>
    have htuck : t.tuck.mentions = t.mentions := by
      rw [mentions, mentions, roots_tuck, tuck_cons hp]
      rfl
    have hpath : t.tuck.path = p.push n :: rest := by
      rw [tuck_cons hp]
      rfl
    have hctx : t.tuck.context rest = t.context rest := by
      rw [tuck_cons hp]
      rfl
    obtain ⟨l, ks⟩ := p
    have hcons : t.context (Node.mk l ks :: rest) = (Node.mk l ks).widen (t.context rest) := rfl
    by_cases hb : l.isBlock = true
    · obtain ⟨kind, s, hf⟩ := Label.isBlock_iff.mp hb
      let g : Frame := ⟨s.keys, Node.declaredAll ks, Sight.declared (n.sights false)⟩
      have hin : .mention (m.within g) ∈ ((Node.mk l ks).push n).sights false := by
        have hpush : (Node.mk l ks).push n = .mk l (ks ++ [n]) := rfl
        have hin := mem_enclose_fragment s.keys ks [] hm
        rw [List.append_nil] at hin
        rw [hpush, Node.sights_block hf]
        exact List.mem_append_left _ hin
      obtain ⟨fs, hmem, hsees⟩ := ih hpath hin (Sight.isOuter_within _ (.mention m))
      rw [htuck] at hmem
      rw [Mention.sees_within_inner ho, hctx, List.append_assoc] at hsees
      rw [hcons, Node.widen_block hb]
      rw [within_append] at hmem hsees
      exact ⟨_, hmem, hsees⟩
    · have hb : l.isBlock = false := by simpa using hb
      have hin : .mention m ∈ ((Node.mk l ks).push n).sights false :=
        (Node.inner_mk (x := .mention m) hb ho).mpr ⟨n, by simp, hm⟩
      obtain ⟨fs, hmem, hsees⟩ := ih hpath hin ho
      rw [htuck] at hmem
      rw [hctx] at hsees
      rw [hcons, Node.widen_other hb]
      exact ⟨fs, hmem, hsees⟩

theorem Orderly.strict (h : t.Orderly) :
    ∀ x ∈ ({ t with clock := t.clock + 1 } : Tree).timeline, x < t.clock + 1 :=
  fun x hx => Nat.lt_succ_of_le (h.timed.bound x hx)

theorem Orderly.insertAll (h : t.Orderly) {toks : List Token}
    (hf : (t.insertAll toks).failure = none) : (t.insertAll toks).tree.Orderly := by
  induction toks generalizing t with
  | nil => exact h
  | cons tok toks ih =>
    rw [Tree.insertAll, Step.next] at hf ⊢
    rcases insert_tree t tok with ⟨hp, ht, hi⟩ | ⟨f, hp, ht, hi⟩
    · rw [hi] at hf ⊢
      dsimp only at hf ⊢
      refine ih ?_ hf
      rw [ht]
      have hplaced := placed_place { t with clock := t.clock + 1 } tok
      rw [hp] at hplaced
      exact h.tick.place (Nat.succ_pos _) h.strict hplaced (h.tick.staged.place tok).tree
    · rw [hi] at hf
      dsimp only at hf
      rw [hi] at hf
      cases hf

end Tree

end TokenShell
