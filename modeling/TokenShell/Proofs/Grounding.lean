import TokenShell.Proofs.Lineage

/-! In the order in which the variables of a tree are evaluated, each stands for a declaration that
comes before it. Analysis takes them in another order: what is inside a block goes first. -/
namespace TokenShell

/-! Declarations are told apart by the levels of their scopes and their keys. -/

/-- What scopes declare, innermost first, with the level of each. -/
def standing : List (List Key) → List (Nat × Key)
  | [] => []
  | keys :: ctx => keys.map (ctx.length, ·) ++ standing ctx

theorem mem_standing {ctx : List (List Key)} {k : Nat} {key : Key} :
    (k, key) ∈ standing ctx ↔ ∃ keys, ctx.reverse[k]? = some keys ∧ key ∈ keys := by
  induction ctx with
  | nil => simp [standing]
  | cons keys ctx ih =>
    rw [standing, List.mem_append, ih, List.reverse_cons]
    constructor
    · rintro (h | ⟨ks, hks, hkey⟩)
      · obtain ⟨key, hkey, he⟩ := List.mem_map.mp h
        cases he
        exact ⟨keys, by simp, hkey⟩
      · have hlt := (List.getElem?_eq_some_iff.mp hks).1
        exact ⟨ks, by rw [List.getElem?_append_left hlt, hks], hkey⟩
    · rintro ⟨ks, hks, hkey⟩
      rcases Nat.lt_or_ge k ctx.reverse.length with hlt | hge
      · rw [List.getElem?_append_left hlt] at hks
        exact Or.inr ⟨ks, hks, hkey⟩
      · rw [List.getElem?_append_right hge, List.getElem?_singleton] at hks
        split at hks
        · next hz =>
          cases hks
          obtain rfl : k = ctx.length := by
            rw [List.length_reverse] at hz hge
            omega
          exact Or.inl (List.mem_map.mpr ⟨key, hkey, rfl⟩)
        · cases hks

theorem Widens.extend (s : Scope) (new : List Key) (os : Scopes) :
    Widens ((s :: os).map Scope.keys) ((s.extend new :: os).map Scope.keys) := by
  refine .cons ?_ (Widens.refl _)
  rw [Scope.keys_extend]
  exact List.prefix_append _ _

namespace Mention

variable {known known' : List (Nat × Key)} {ctx ctx' : List (List Key)} {x y z : Mention}
  {xs ys : List Mention}

/-- The declaration that a variable makes. -/
def made (z : Mention) : List (Nat × Key) :=
  if z.role = .declares then z.binding.toList.map (·, z.key) else []

/-- A variable stands for a declaration of its name in the scope that it is bound to. One that
declares stands for itself, in the innermost scope; any other for a declaration that is known. -/
def Founded (known : List (Nat × Key)) (ctx : List (List Key)) (z : Mention) : Prop :=
  ∃ k keys e, z.binding = some k ∧ (z.scopes ++ ctx).reverse[k]? = some keys ∧ (z.name, e) ∈ keys ∧
    if z.role = .declares then e = z.serial ∧ k + 1 = (z.scopes ++ ctx).length
    else (k, (z.name, e)) ∈ known

/-- Each variable is founded on what is known and what those before it make. -/
def Grounded (known : List (Nat × Key)) (ctx : List (List Key)) : List Mention → Prop
  | [] => True
  | z :: zs => z.Founded known ctx ∧ Grounded (known ++ z.made) ctx zs

theorem Founded.mono (h : z.Founded known ctx) (hk : known ⊆ known') (hc : Widens ctx ctx') :
    z.Founded known' ctx' := by
  obtain ⟨k, keys, e, hb, hkeys, he, hrole⟩ := h
  have hwide := (Widens.refl z.scopes).append hc
  obtain ⟨keys', hkeys', hmore⟩ := hwide.level hkeys
  refine ⟨k, keys', e, hb, hkeys', hmore.subset he, ?_⟩
  split at hrole
  · rw [if_pos ‹_›, ← List.Forall₂.length_eq hwide]
    exact hrole
  · rw [if_neg ‹_›]
    exact hk hrole

theorem grounded_append : Grounded known ctx (xs ++ ys) ↔
    Grounded known ctx xs ∧ Grounded (known ++ xs.flatMap made) ctx ys := by
  induction xs generalizing known with
  | nil => simp [Grounded]
  | cons x xs ih =>
    rw [List.cons_append, Grounded, Grounded, ih, List.flatMap_cons, List.append_assoc, and_assoc]

theorem Grounded.mono (h : Grounded known ctx xs) (hk : known ⊆ known') (hc : Widens ctx ctx') :
    Grounded known' ctx' xs := by
  induction xs generalizing known known' with
  | nil => trivial
  | cons x xs ih =>
    obtain ⟨hx, hxs⟩ := h
    exact ⟨hx.mono hk hc, ih hxs (List.append_subset.mpr ⟨fun _ h => List.mem_append_left _ (hk h),
      List.subset_append_right _ _⟩)⟩

theorem Grounded.founded (h : Grounded known ctx xs) (hx : x ∈ xs) :
    ∃ known', x.Founded known' ctx := by
  induction xs generalizing known with
  | nil => cases hx
  | cons y xs ih =>
    rcases List.mem_cons.mp hx with rfl | hx
    · exact ⟨known, h.1⟩
    · exact ih h.2 hx

/-- A scope around the tree is a scope around its variables. -/
theorem grounded_within {keys : List Key}
    (h : List.Forall₂ (fun x y => ∃ f : Frame, f.keys = keys ∧ y = x.within f) xs ys) :
    Grounded known ctx ys ↔ Grounded known (keys :: ctx) xs := by
  induction h generalizing known with
  | nil => exact Iff.rfl
  | @cons x y xs ys hy _ ih =>
    obtain ⟨f, rfl, rfl⟩ := hy
    have hscopes : (x.within f).scopes ++ ctx = x.scopes ++ f.keys :: ctx := by
      simp [scopes, within]
    rw [Grounded, Grounded, ih]
    refine and_congr ?_ Iff.rfl
    unfold Founded
    rw [hscopes]
    rfl

theorem made_within {keys : List Key}
    (h : List.Forall₂ (fun x y => ∃ f : Frame, f.keys = keys ∧ y = x.within f) xs ys) :
    ys.flatMap made = xs.flatMap made := by
  induction h with
  | nil => rfl
  | cons hy _ ih =>
    obtain ⟨f, -, rfl⟩ := hy
    rw [List.flatMap_cons, List.flatMap_cons, ih]
    rfl

end Mention

/-! The variables of a tree that are analyzed, in their order. -/

namespace Sight

variable {s : Scope} {os ss : Scopes} {x y : Sight} {xs ys : List Sight} {known : List (Nat × Key)}

def analyzed? : Sight → Option Mention
  | mention m => if m.analyzed then some m else none
  | scope .. => none

theorem analyzed?_within (f : Frame) (x : Sight) :
    (x.within f).analyzed? = x.analyzed?.map (Mention.within f) := by
  cases x with
  | mention m =>
    rw [within, analyzed?, analyzed?]
    change (if m.analyzed = true then _ else _) = _
    split <;> rfl
  | scope _ _ => rfl

theorem analyzed_enclose (keys : List Key) (before : List Sight) (fs : List (List Sight)) :
    List.Forall₂ (fun x y => ∃ f : Frame, f.keys = keys ∧ y = x.within f)
      (fs.flatten.filterMap analyzed?) ((enclose keys before fs).filterMap analyzed?) := by
  induction fs generalizing before with
  | nil => exact .nil
  | cons f fs ih =>
    rw [enclose, List.flatten_cons, List.filterMap_append, List.filterMap_append]
    refine List.rel_append ?_ (ih _)
    have hmap : ∀ g : Frame, (f.map (within g)).filterMap analyzed? =
        (f.filterMap analyzed?).map (Mention.within g) := by
      intro g
      rw [List.filterMap_map, List.map_filterMap]
      exact List.filterMap_congr fun x _ => analyzed?_within g x
    rw [hmap, List.forall₂_map_right_iff]
    exact List.forall₂_same.mpr fun x _ => ⟨_, rfl, rfl⟩

/-- A variable that analysis takes is founded on what is known: the scopes outside as a whole, and
of the innermost one what has been made in it. -/
theorem Taken.grounded (h : Taken os s x y)
    (hraw : ∀ v, x = .mention v → v.isOuter = true → v.analyzed = false)
    (hk : standing ((s :: os).map Scope.keys) ⊆ known)
    (hg : Mention.Grounded known ((s :: os).map Scope.keys) ([x].filterMap analyzed?)) :
    Mention.Grounded known ((s.extend (named [x]) :: os).map Scope.keys)
        ([y].filterMap analyzed?) ∧
      standing ((s.extend (named [x]) :: os).map Scope.keys) ⊆
        known ++ ([y].filterMap analyzed?).flatMap Mention.made ∧
      ([x].filterMap analyzed?).flatMap Mention.made ⊆
        ([y].filterMap analyzed?).flatMap Mention.made := by
  cases h with
  | inner hi =>
    rw [named_inner hi, Scope.extend_nil]
    exact ⟨hg, fun _ h => List.mem_append_left _ (hk h), List.Subset.refl _⟩
  | @found m k ho hr hl =>
    have hnone : [mention m].filterMap analyzed? = [] := by
      simp [analyzed?, hraw m rfl ho]
    have hmade : [mention (m.boundTo k)].filterMap analyzed? = [m.boundTo k] := rfl
    rw [named_outer ho, if_neg hr, Scope.extend_nil, hnone, hmade]
    refine ⟨⟨?_, trivial⟩, fun _ h => List.mem_append_left _ (hk h), by simp⟩
    obtain ⟨v, hv, hd⟩ := Scopes.declares_of_lookup hl fun h => h
    obtain ⟨⟨a, e⟩, he, rfl⟩ := Scope.declares_iff.mp hd
    have hscopes : (m.boundTo k).scopes = [] := Mention.isOuter_iff.mp ho
    have hkeys : ((s :: os).map Scope.keys).reverse[k]? = some v.keys := by
      rw [← List.map_reverse, List.getElem?_map, hv]
      rfl
    refine ⟨k, v.keys, e, rfl, by rw [hscopes, List.nil_append, hkeys], he, ?_⟩
    rw [if_neg (show (m.boundTo k).role ≠ .declares from hr)]
    exact hk (mem_standing.mpr ⟨v.keys, hkeys, he⟩)
  | @entered m ho hr hd =>
    have hnone : [mention m].filterMap analyzed? = [] := by
      simp [analyzed?, hraw m rfl ho]
    have hmade : [mention (m.boundTo os.length)].filterMap analyzed? = [m.boundTo os.length] := rfl
    have hown : (m.boundTo os.length).made = [(os.length, m.key)] := by
      rw [Mention.made, if_pos (show (m.boundTo os.length).role = .declares from hr)]
      rfl
    have hscopes : (m.boundTo os.length).scopes = [] := Mention.isOuter_iff.mp ho
    rw [named_outer ho, if_pos hr, hnone, hmade, List.flatMap_singleton, hown]
    refine ⟨⟨?_, trivial⟩, ?_, by simp⟩
    · refine ⟨os.length, (s.extend [m.key]).keys, m.serial, rfl, ?_, ?_, ?_⟩
      · simp [hscopes]
      · rw [Scope.keys_extend]
        exact List.mem_append_right _ (List.mem_singleton_self _)
      · rw [if_pos (show (m.boundTo os.length).role = .declares from hr)]
        exact ⟨rfl, by simp [hscopes]⟩
    · intro p hp
      rw [List.map_cons, standing, Scope.keys_extend, List.map_append, List.mem_append,
        List.mem_append] at hp
      rcases hp with (hp | hp) | hp
      · exact List.mem_append_left _ (hk (List.mem_append_left _ hp))
      · refine List.mem_append_right _ ?_
        simpa using hp
      · exact List.mem_append_left _ (hk (List.mem_append_right _ hp))

/-- Analysis founds each variable on what is declared in the scopes around it. -/
theorem grounded_analyze (h : xs.mapM analyze (s :: os) = (.ok ys, ss))
    (hraw : ∀ v, .mention v ∈ xs → v.isOuter = true → v.analyzed = false)
    (hk : standing ((s :: os).map Scope.keys) ⊆ known)
    (hg : Mention.Grounded known ((s :: os).map Scope.keys) (xs.filterMap analyzed?)) :
    Mention.Grounded known (ss.map Scope.keys) (ys.filterMap analyzed?) := by
  induction xs generalizing ys s known with
  | nil =>
    cases h
    trivial
  | cons x xs ih =>
    obtain ⟨y, zs, ht, hz, rfl⟩ := mapM_analyze_cons h
    have hsplit : ∀ (z : Sight) zs, (z :: zs).filterMap analyzed? =
        [z].filterMap analyzed? ++ zs.filterMap analyzed? := by
      intro z zs
      rw [← List.filterMap_append, List.singleton_append]
    rw [hsplit, Mention.grounded_append] at hg ⊢
    obtain ⟨hy, hstand, hmade⟩ := ht.grounded (fun v hv => hraw v (by simp [hv])) hk hg.1
    have hlast : Widens ((s.extend (named [x]) :: os).map Scope.keys) (ss.map Scope.keys) := by
      rw [(mapM_analyze_ok hz).1]
      exact .extend _ _ os
    refine ⟨hy.mono (List.Subset.refl _) hlast,
      ih hz (fun v hv => hraw v (List.mem_cons_of_mem _ hv)) hstand (hg.2.mono ?_ (.extend s _ os))⟩
    exact List.append_subset.mpr ⟨List.subset_append_left _ _,
      fun p hp => List.mem_append_right _ (hmade hp)⟩

end Sight

namespace Node

variable {n : Node} {l : Label} {ks : List Node} {b : Bool} {known : List (Nat × Key)}
  {ctx : List (List Key)}

/-- The variables of a tree that are analyzed. -/
def resolved (b : Bool) (n : Node) : List Mention := (n.sights b).filterMap Sight.analyzed?

theorem resolved_flatMap (b : Bool) (ks : List Node) :
    (ks.flatMap (sights b)).filterMap Sight.analyzed? = ks.flatMap (resolved b) := by
  rw [List.filterMap_flatMap]
  rfl

theorem filter_inner_map {xs : List Sight} {g : Sight → Sight}
    (hg : ∀ x, (g x).isOuter = x.isOuter) (hfix : ∀ x ∈ xs, x.isOuter = false → g x = x) :
    (xs.map g).filter (!·.isOuter) = xs.filter (!·.isOuter) := by
  induction xs with
  | nil => rfl
  | cons x xs ih =>
    have hxs := ih fun y hy => hfix y (List.mem_cons_of_mem _ hy)
    rw [List.map_cons, List.filter_cons, List.filter_cons, hg, hxs]
    cases ho : x.isOuter with
    | true => rfl
    | false => rw [hfix x List.mem_cons_self ho]

/-- What is inside blocks keeps its order on the way up. -/
theorem filter_inner_mk (hb : l.isBlock = false) :
    ((mk l ks).sights b).filter (!·.isOuter) =
      (ks.flatMap (sights false)).filter (!·.isOuter) := by
  have hkids : ∀ (c : Bool), ∀ x ∈ (ks.map (fold sightStep)).flatten, x.isOuter = false →
      x.under c = x := by
    intro c x hx ho
    obtain ⟨_, hp, hx⟩ := List.mem_flatten.mp hx
    obtain ⟨k, -, rfl⟩ := List.mem_map.mp hp
    exact under_inner ho hx c
  have hown : ∀ x ∈ sightStep l (ks.map (fold sightStep)), x.isOuter = false → x.under b = x := by
    intro x hx ho
    have hmk : (mk l ks).fold sightStep = sightStep l (ks.map (fold sightStep)) := fold_mk ..
    exact under_inner ho (hmk ▸ hx) b
  rw [sights_mk, filter_inner_map (isOuter_under b) hown, ← flatten_sights,
    filter_inner_map (isOuter_under false) (hkids false)]
  rcases sightStep_cases hb (ks.map (fold sightStep)) with ⟨g, hg, he⟩ | ⟨d, k, -, he⟩ |
    ⟨-, v, more, hflat, hv, he⟩
  · rw [he]
    rcases hg with rfl | ⟨c, rfl⟩
    · rw [List.map_id]
    · exact filter_inner_map (isOuter_under c) (hkids c)
  · rw [he, List.filter_cons_of_neg (by simp [Sight.isOuter, Mention.isOuter, Label.mention])]
    exact filter_inner_map (isOuter_under false) (hkids false)
  · have hstart : Sight.isOuter (.mention (v.start l)) = true := hv
    have hfirst : Sight.isOuter (.mention v) = true := hv
    rw [he, hflat, List.filter_append, List.filter_cons_of_neg (by simp [hstart]),
      List.filter_cons_of_neg (by simp [hfirst]), List.filter_nil, List.append_nil]
    refine filter_inner_map (isOuter_under false) fun x hx => hkids false x ?_
    rw [hflat]
    exact List.mem_cons_of_mem _ hx

/-- Of a fragment that is not analyzed, only what is inside blocks is. -/
theorem resolved_of_outer {xs : List Sight}
    (h : ∀ v, .mention v ∈ xs → v.isOuter = true → v.analyzed = false) :
    (xs.filter (!·.isOuter)).filterMap Sight.analyzed? = xs.filterMap Sight.analyzed? := by
  rw [List.filterMap_filter]
  refine List.filterMap_congr fun x hx => ?_
  cases x with
  | scope _ _ => rfl
  | mention v =>
    cases ho : v.isOuter with
    | false => simp [Sight.isOuter, ho]
    | true => simp [Sight.isOuter, ho, Sight.analyzed?, h v hx ho]

theorem Raw.resolved_mk (h : (mk l ks).Raw) (hb : l.isBlock = false) :
    (mk l ks).resolved b = ks.flatMap (resolved false) := by
  have hkids : ∀ v, .mention v ∈ ks.flatMap (sights false) → v.isOuter = true →
      v.analyzed = false := by
    intro v hv
    obtain ⟨k, hk, hv⟩ := List.mem_flatMap.mp hv
    exact ((raw_mk.mp h).2 hb k hk).analyzed_sights v hv
  rw [resolved, ← resolved_of_outer h.analyzed_sights, filter_inner_mk hb, resolved_of_outer hkids,
    resolved_flatMap]

theorem resolved_block (b : Bool) (ks : List Node) {kind : BlockKind} {s : Scope}
    (hf : l.form = .block kind s) :
    List.Forall₂ (fun x y => ∃ f : Frame, f.keys = s.keys ∧ y = x.within f)
      (ks.flatMap (resolved false)) ((mk l ks).resolved b) := by
  have hlast : ∀ as es, [Sight.scope as es].filterMap Sight.analyzed? = [] := fun _ _ => rfl
  rw [resolved, sights_block hf, List.filterMap_append, hlast, List.append_nil, ← resolved_flatMap,
    List.flatMap_def]
  exact Sight.analyzed_enclose _ _ _

/-- What is grounded below a node is grounded there. -/
theorem grounded_mk (h : (mk l ks).Raw)
    (hg : Mention.Grounded known (l.scopeKeys ++ ctx) (ks.flatMap (resolved false))) :
    Mention.Grounded known ctx ((mk l ks).resolved b) := by
  cases hb : l.isBlock with
  | true =>
    obtain ⟨kind, s, hf⟩ := Label.isBlock_iff.mp hb
    rw [Label.scopeKeys, hf] at hg
    exact (Mention.grounded_within (resolved_block b ks hf)).mpr hg
  | false =>
    rw [h.resolved_mk hb]
    rwa [Label.scopeKeys_of_not_block hb] at hg

theorem resolved_sprout (tok : Token) (serial : Nat) (k : Site) (m : Option Marker) :
    (sprout tok serial k m).resolved b = [] := by
  cases hb : (sprout tok serial k m).isBlock with
  | true =>
    obtain ⟨kind, s, hf⟩ := Label.isBlock_iff.mp hb
    exact List.forall₂_nil_left_iff.mp (resolved_block b [] hf)
  | false => exact (raw_sprout tok serial k m).resolved_mk hb

/-- What has been entered into a scope has been made in it. -/
theorem standing_subset {keys : List Key} (hkeys : keys = ks.flatMap entered)
    (hg : Mention.Grounded known (keys :: ctx) (ks.flatMap (resolved false))) :
    standing (keys :: ctx) ⊆
      standing ctx ++ (ks.flatMap (resolved false)).flatMap Mention.made := by
  rintro ⟨j, key⟩ hp
  rw [standing] at hp
  rcases List.mem_append.mp hp with hp | hp
  · obtain ⟨key, hkey, he⟩ := List.mem_map.mp hp
    cases he
    rw [hkeys] at hkey
    obtain ⟨n, hn, hkey⟩ := List.mem_flatMap.mp hkey
    obtain ⟨x, hx, hkey⟩ := List.mem_filterMap.mp hkey
    cases x with
    | scope _ _ => cases hkey
    | mention z =>
      rw [Sight.entered?] at hkey
      split at hkey
      · next hz =>
        obtain ⟨ho, hr, ha⟩ := hz
        cases hkey
        have hz : z ∈ ks.flatMap (resolved false) :=
          List.mem_flatMap.mpr ⟨n, hn, List.mem_filterMap.mpr
            ⟨_, hx, by rw [Sight.analyzed?, if_pos ha]⟩⟩
        obtain ⟨known', k, _, e, hb, -, -, hrole⟩ := hg.founded hz
        rw [if_pos hr, Mention.isOuter_iff.mp ho, List.nil_append, List.length_cons] at hrole
        obtain rfl : k = ctx.length := by omega
        refine List.mem_append_right _ (List.mem_flatMap.mpr ⟨z, hz, ?_⟩)
        rw [Mention.made, if_pos hr, hb]
        exact List.mem_singleton_self _
      · cases hkey
  · exact List.mem_append_left _ hp

end Node

/-- Fragments that are delivered are grounded along with those before them. -/
theorem Scope.Records.grounded {s u : Scope} {os : Scopes} {rs ms qs rest : List Node}
    (h : s.Records (rs ++ (ms ++ rest))) (hm : ∀ n ∈ ms ++ rest, n.Upper Label.Planted)
    (hd : Delivered os s u ms qs)
    (hg : Mention.Grounded (standing (os.map Scope.keys)) ((s :: os).map Scope.keys)
      ((rs ++ (ms ++ rest)).flatMap (Node.resolved false))) :
    Mention.Grounded (standing (os.map Scope.keys)) ((u :: os).map Scope.keys)
      ((rs ++ qs).flatMap (Node.resolved false)) := by
  rw [List.flatMap_append, List.flatMap_append, Mention.grounded_append,
    Mention.grounded_append] at hg
  obtain ⟨hrs, hms, -⟩ := hg
  have hkeys : s.keys = rs.flatMap Node.entered := by
    have hraw : (ms ++ rest).flatMap Node.entered = [] :=
      List.flatMap_eq_nil_iff.mpr fun n hn => (hm n hn).raw.entered
    rw [h.keys, List.flatMap_append, hraw, List.append_nil]
  rw [List.flatMap_append, Mention.grounded_append]
  constructor
  · refine hrs.mono (fun _ h => h) (.cons ?_ (Widens.refl _))
    rw [hd.keys]
    exact List.prefix_append _ _
  · rw [← Node.resolved_flatMap false qs]
    refine Sight.grounded_analyze hd.run ?_ (Node.standing_subset hkeys hrs) ?_
    · intro v hv
      obtain ⟨n, hn, hv⟩ := List.mem_flatMap.mp hv
      exact (hm n (List.mem_append_left _ hn)).raw.analyzed_sights v hv
    · rw [Node.resolved_flatMap]
      exact hms

namespace Tree

variable {t u : Tree} {n : Node} {path ks : List Node} {s : Scope} {tok : Token}
  {f : Option Failure}

/-- What is declared in the scopes around a path. -/
def backdrop (t : Tree) (path : List Node) : List (List Key) := around path ++ [t.globals.keys]

theorem backdrop_cons (t : Tree) (n : Node) (path : List Node) :
    t.backdrop (n :: path) = n.label.scopeKeys ++ t.backdrop path := by
  simp [backdrop, around]

theorem keys_scopes (t : Tree) : t.scopes.map Scope.keys = t.backdrop t.path := by
  rw [scopes, List.map_append, ← around_eq]
  rfl

/-- In every scope the variables of the fragments are grounded on what is declared outside of it. -/
structure Grounded (t : Tree) : Prop where
  root : Mention.Grounded [] [t.globals.keys] (t.fragments.flatMap (Node.resolved false))
  path : ∀ p rest, p :: rest <:+ t.path → Mention.Grounded (standing (t.backdrop rest))
    (p.label.scopeKeys ++ t.backdrop rest) (p.kids.flatMap (Node.resolved false))

/-- The fragments that are ready are grounded on their own. -/
def Rooted (t : Tree) : Prop :=
  Mention.Grounded [] [(t.fragments.filter (·.isReady)).flatMap Node.entered]
    ((t.fragments.filter (·.isReady)).flatMap (Node.resolved false))

theorem grounded_fresh : ({} : Tree).Grounded where
  root := trivial
  path p rest h := by simp at h

theorem Grounded.rooted (h : t.Grounded) (hk : t.Kept) : t.Rooted := by
  obtain ⟨rs, ps, hf, hr, hp⟩ := hk.root.order
  have hready : ∀ r ∈ rs, r.isReady = true := fun r hm => (hr r hm).isReady
  have hfilter : t.fragments.filter (·.isReady) = rs := by
    rw [hf, (filter_ready hready fun p hm => (hp p hm).raw).1]
  have hroot := h.root
  rw [hk.root.keys, ← hk.root.ready, hfilter, hf, List.flatMap_append,
    Mention.grounded_append] at hroot
  rw [Rooted, hfilter]
  exact hroot.1

theorem Grounded.append (h : t.Grounded) (hk : t.Kept)
    (hn : Mention.Grounded (standing (t.backdrop t.path)) (t.backdrop t.path) (n.resolved false)) :
    (t.append n).Grounded := by
  unfold Tree.append
  split
  · next hp =>
    rw [hp] at hn
    refine ⟨?_, h.path⟩
    rw [List.flatMap_append, List.flatMap_singleton, Mention.grounded_append]
    exact ⟨h.root, hn.mono (Node.standing_subset hk.root.keys h.root) (.refl _)⟩
  · next p path hp =>
    refine ⟨h.root, ?_⟩
    intro q rest hq
    rcases List.suffix_cons_iff.mp hq with he | hq
    · obtain ⟨rfl, rfl⟩ := List.cons.inj he
      have hpath := h.path p rest (hp ▸ List.suffix_rfl)
      have hkids : (p.push n).kids = p.kids ++ [n] := rfl
      rw [hp, backdrop_cons] at hn
      rw [hkids, List.flatMap_append, List.flatMap_singleton, Mention.grounded_append]
      refine ⟨hpath, hn.mono ?_ (.refl _)⟩
      cases hb : p.isBlock with
      | true =>
        obtain ⟨kind, s, hf⟩ := Label.isBlock_iff.mp hb
        have hscope : p.label.scopeKeys = [s.keys] := by rw [Label.scopeKeys, hf]
        rw [hscope, List.singleton_append] at hpath ⊢
        exact Node.standing_subset (hk.blocks p (by simp [hp]) kind s hf).2.keys hpath
      | false =>
        rw [Label.scopeKeys_of_not_block hb]
        exact List.subset_append_left _ _
    · exact h.path q rest (hp ▸ hq.trans (List.suffix_cons _ _))

theorem Grounded.leave (h : t.Grounded) (hk : t.Kept) (hs : t.Staged) : t.leave.Grounded := by
  cases hp : t.path with
  | nil =>
    rw [Tree.leave, hp]
    exact h
  | cons n path =>
    have hpath := h.path n path (hp ▸ List.suffix_rfl)
    rw [leave_cons hp]
    refine Grounded.append ⟨h.root, ?_⟩ ⟨hk.root, ?_, ?_⟩ ?_
    · exact fun q rest hq => h.path q rest (hp ▸ hq.trans (List.suffix_cons _ _))
    · exact fun m hm => hk.kids m (by simp [hp, hm])
    · exact fun m hm => hk.blocks m (by simp [hp, hm])
    · have hraw := Node.raw_shut (hs.raw n (by simp [hp])) t.clock
      obtain ⟨l, ks⟩ := n
      exact Node.grounded_mk hraw hpath

/-- The scope at the cursor takes other fragments in. -/
theorem Grounded.refit (h : t.Grounded) (ha : t.atScope = true)
    (hg : Mention.Grounded (standing (t.backdrop t.path).tail) (s.keys :: (t.backdrop t.path).tail)
      (ks.flatMap (Node.resolved false))) : (t.refit ks s).Grounded := by
  unfold Tree.refit
  split
  · next hp =>
    rw [hp] at hg
    refine ⟨hg, ?_⟩
    simp [hp]
  · next p path hp =>
    refine ⟨h.root, ?_⟩
    intro q rest hq
    rcases List.suffix_cons_iff.mp hq with he | hq
    · obtain ⟨rfl, rfl⟩ := List.cons.inj he
      rw [atScope, hp] at ha
      obtain ⟨l, js⟩ := p
      obtain ⟨kind, s', hf⟩ := Label.isBlock_iff.mp (show l.isBlock = true from ha)
      have htail : (t.backdrop t.path).tail = t.backdrop rest := by
        simp [hp, backdrop_cons, Label.scopeKeys, hf]
      rw [htail] at hg
      simp only [Node.setScope, Node.label_mk, Node.form_mk, hf, Label.scopeKeys]
      exact hg
    · exact h.path q rest (hp ▸ hq.trans (List.suffix_cons _ _))

/-- The fragments at the cursor, grounded on what is declared outside of its scope. -/
theorem Grounded.collected (h : t.Grounded) (ha : t.atScope = true) :
    Mention.Grounded (standing (t.backdrop t.path).tail) (t.backdrop t.path)
      (t.collected.flatMap (Node.resolved false)) := by
  cases hp : t.path with
  | nil =>
    rw [Tree.collected, hp]
    exact h.root
  | cons n path =>
    rw [atScope, hp] at ha
    obtain ⟨kind, s, hf⟩ := Label.isBlock_iff.mp ha
    have hpath := h.path n path (hp ▸ List.suffix_rfl)
    have hscope : n.label.scopeKeys = [s.keys] := by rw [Label.scopeKeys, hf]
    rw [hscope, List.singleton_append] at hpath
    rw [Tree.collected, hp, backdrop_cons, hscope, List.singleton_append, List.tail_cons]
    exact hpath

/-- A flush grounds what it delivers. Where it fails, what is ready by then is grounded. -/
theorem Grounded.flush (h : t.Grounded) (hk : t.Kept) (ha : t.atScope = true) :
    t.flush.tree.Rooted ∧ (t.flush.failure = none → t.flush.tree.Grounded) := by
  obtain ⟨s, os, u, hscopes, hu, htree, hfail⟩ := flush_refit ha
  have hrec := hk.records ha hscopes
  obtain ⟨rs, ms, qs, rest, v, hks, hr, hm, hkids, hd, hcase⟩ := hrec.flushed t.innerBlock os
  have hcollected := h.collected ha
  rw [hks] at hrec hcollected
  rw [← keys_scopes, hscopes] at hcollected
  have hnew := hrec.grounded hm hd hcollected
  have hdel := hrec.delivered hr hm hd
  have htail : (t.backdrop t.path).tail = os.map Scope.keys := by
    rw [← keys_scopes, hscopes]
    rfl
  rw [htree, hfail, hkids]
  constructor
  · cases hp : t.path with
    | nil =>
      simp only [scopes, hp, List.filterMap_nil, List.nil_append, List.cons.injEq] at hscopes
      obtain ⟨-, rfl⟩ := hscopes
      have hsettled : ∀ r ∈ rs ++ qs, r.isReady = true := by
        intro r hm
        have hset : r.Settled := (List.mem_append.mp hm).elim (hr r) fun h => (hd.settled r h).1
        exact hset.isReady
      have hfilter : (rs ++ (qs ++ rest)).filter (·.isReady) = rs ++ qs := by
        rw [← List.append_assoc]
        exact (filter_ready hsettled fun p hp => (hm p (List.mem_append_right _ hp)).raw).1
      have hfragments : (t.refit (rs ++ (qs ++ rest)) u).fragments = rs ++ (qs ++ rest) := by
        simp [Tree.refit, hp]
      rw [Rooted, hfragments, hfilter, ← hdel.keys]
      exact hnew
    | cons n path =>
      have hfragments : (t.refit (rs ++ (qs ++ rest)) u).fragments = t.fragments := by
        simp [Tree.refit, hp]
      rw [Rooted, hfragments]
      exact h.rooted hk
  · intro hnone
    obtain ⟨rfl, hv⟩ := hcase hnone
    obtain rfl : v = u := (List.cons.inj (hv.symm.trans hu)).1
    refine h.refit ha ?_
    rw [List.append_nil, htail]
    exact hnew

theorem Grounded.closing (h : t.Grounded) (hk : t.Kept) (hs : t.Staged) (hc : t.Closing tok u) :
    u.leave.Grounded := by
  refine Grounded.leave ?_ (hk.closing hs hc).1 (hs.closing hc)
  rcases hs.closing_cases hc with ⟨rfl, -⟩ | ⟨ha, rfl, hf⟩
  · exact h
  · exact (h.flush hk ha).2 hf

theorem Grounded.place (h : t.Grounded) (hk : t.Kept) (hs : t.Staged) (hp : t.Placed tok u f) :
    u.Rooted ∧ (f = none → u.Grounded) := by
  have hkept := hk.place hs hp
  have hboth : u.Kept → u.Grounded → u.Rooted ∧ (f = none → u.Grounded) :=
    fun hu hg => ⟨hg.rooted hu, fun _ => hg⟩
  cases hp with
  | refused _ _ => exact ⟨h.rooted hk, fun _ => h⟩
  | awaiting _ => exact hboth (hkept.2 rfl) ⟨h.root, h.path⟩
  | leaf k _ _ =>
    refine hboth (hkept.2 rfl) (h.append hk ?_)
    rw [Node.resolved_sprout]
    trivial
  | entered k m _ _ =>
    refine hboth (hkept.2 rfl) ⟨h.root, ?_⟩
    intro q rest hq
    rcases List.suffix_cons_iff.mp hq with he | hq
    · obtain ⟨rfl, rfl⟩ := List.cons.inj he
      trivial
    · exact h.path q rest hq
  | flushed _ ha => exact h.flush hk ha
  | blocked f n path hp hc _ =>
    exact ⟨(h.flush hk (hs.atScope_of_closedBy hp hc)).1, fun h => nomatch h⟩
  | left v hv _ => exact hboth (hkept.2 rfl) (h.closing hk hs hv)
  | delivered v hv ha =>
    obtain ⟨hvk, hblock⟩ := hk.closing hs hv
    exact (h.closing hk hs hv).flush (hvk.leave (hs.closing hv) hblock) ha

theorem Rooted.reset (h : t.Rooted) (ho : ∀ n ∈ t.path, n.Opened) (hk : t.reset.tree.Kept) :
    t.reset.tree.Grounded where
  root := by
    rw [hk.root.keys, reset_fragments ho]
    exact h
  path p rest hp := by
    have hpath : t.reset.tree.path = [] := rfl
    simp [hpath] at hp

theorem Grounded.insert (h : t.Grounded) (hr : t.Reachable) (tok : Token) :
    (t.insert tok).tree.Grounded := by
  have hp := placed_place { t with clock := t.clock + 1 } tok
  have hs : ({ t with clock := t.clock + 1 } : Tree).Staged := ⟨hr.staged.fragments, hr.staged.path⟩
  have hk : ({ t with clock := t.clock + 1 } : Tree).Kept :=
    ⟨hr.kept.root, hr.kept.kids, hr.kept.blocks⟩
  have hg : ({ t with clock := t.clock + 1 } : Tree).Grounded := ⟨h.root, h.path⟩
  obtain ⟨hrooted, hok⟩ := hg.place hk hs hp
  have hkept := hr.kept.insert hr.staged hr.sound tok
  rcases insert_tree t tok with ⟨hf, he, -⟩ | ⟨f, hf, he, -⟩
  · rw [he]
    exact hok hf
  · obtain ⟨hready, -, hgrown⟩ := hr.sound.grown
    obtain ⟨extra, hgp, -⟩ := hgrown.tick.place hready hp
    rw [he] at hkept ⊢
    exact hrooted.reset hgp.opened hkept

theorem Grounded.reset (h : t.Grounded) (hr : t.Reachable) : t.reset.tree.Grounded :=
  (h.rooted hr.kept).reset hr.sound.opened (hr.kept.reset hr.staged hr.sound)

end Tree

end TokenShell
