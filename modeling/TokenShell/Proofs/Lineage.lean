import TokenShell.Proofs.Lexical

/-! Variables from one state of a tree to the next: what a variable is bound to stays for good, and
what is declared in the blocks around it stays declared. -/
namespace TokenShell

/-- Scopes of which each declares what it declared before and maybe more. -/
def Widens (as bs : List (List Key)) : Prop := List.Forall₂ (· <+: ·) as bs

namespace Widens

variable {as bs cs ds : List (List Key)}

theorem refl (as : List (List Key)) : Widens as as :=
  List.forall₂_same.mpr fun _ _ => List.prefix_rfl

theorem trans (h : Widens as bs) (h' : Widens bs cs) : Widens as cs := by
  induction h generalizing cs with
  | nil => exact h'
  | cons hab _ ih =>
    cases h' with
    | cons hbc ht => exact .cons (hab.trans hbc) (ih ht)

theorem append (h : Widens as bs) (h' : Widens cs ds) : Widens (as ++ cs) (bs ++ ds) :=
  List.rel_append h h'

/-- Counted from the outermost scope, as levels are. -/
theorem level {k : Nat} {a : List Key} (h : Widens as bs) (ha : as.reverse[k]? = some a) :
    ∃ b, bs.reverse[k]? = some b ∧ a <+: b := by
  obtain ⟨hlen, hget⟩ := List.forall₂_iff_get.mp (List.rel_reverse h)
  obtain ⟨hlt, rfl⟩ := List.getElem?_eq_some_iff.mp ha
  have hlt' : k < bs.reverse.length := hlen ▸ hlt
  exact ⟨_, List.getElem?_eq_getElem hlt', hget k hlt hlt'⟩

end Widens

namespace Label

variable {l : Label}

/-- What the scope of a block declares, and nothing for another node. -/
def scopeKeys (l : Label) : List (List Key) :=
  match l.form with
  | .block _ s => [s.keys]
  | _ => []

theorem scopeKeys_of_not_block (h : l.isBlock = false) : l.scopeKeys = [] := by
  unfold isBlock at h
  unfold scopeKeys
  cases hf : l.form <;> simp_all

end Label

theorem Node.keys_scope? (n : Node) : n.scope?.toList.map Scope.keys = n.label.scopeKeys := by
  obtain ⟨l, ks⟩ := n
  cases hf : l.form <;> simp [Label.scopeKeys, scope?, hf]

namespace Mention

variable {x y z : Mention} {ctx : List (List Key)} {l : Label}

/-- What is declared in the scopes around a variable, innermost first. -/
def scopes (m : Mention) : List (List Key) := m.frames.map Frame.keys

theorem isOuter_iff : y.isOuter = true ↔ y.scopes = [] := by
  simp [isOuter, scopes]

/-- A variable is bound, and a block that it is bound to declares its name. The blocks around its
tree are given, without the global scope, whose level is zero. -/
def Anchored (ctx : List (List Key)) (m : Mention) : Prop :=
  ∃ j, m.binding = some j ∧ ∀ k, j = k + 1 →
    ∃ keys, (m.scopes ++ ctx).reverse[k]? = some keys ∧ ∃ e, (m.name, e) ∈ keys

/-- A variable in two successive states. Once analyzed it keeps its binding, and the blocks around
it what they declare. -/
structure Leads (ctx : List (List Key)) (x y : Mention) : Prop where
  serial : y.serial = x.serial
  keeps : x.analyzed = true → y.analyzed = true ∧ y.token = x.token ∧ y.binding = x.binding ∧
    Widens x.scopes y.scopes
  binds : x.analyzed = false → y.analyzed = true → y.Anchored ctx

/-- A variable of a child as a variable of the node. -/
structure Lifts (l : Label) (z y : Mention) : Prop where
  token : y.token = z.token
  serial : y.serial = z.serial
  binding : y.binding = z.binding
  scopes : y.scopes = z.scopes ++ l.scopeKeys
  analyzed : y.isOuter = false → y.analyzed = z.analyzed

/-- A variable without its role, the phase it is in and the place where its search begins. -/
def core (m : Mention) : Mention :=
  { m with role := .refers, time := none, analyzed := false, block := none }

theorem Leads.refl (ctx : List (List Key)) (x : Mention) : x.Leads ctx x where
  serial := rfl
  keeps h := ⟨h, rfl, rfl, .refl _⟩
  binds h h' := by
    rw [h] at h'
    cases h'

theorem Anchored.mono (h : x.Anchored ctx) (ht : y.token = x.token) (hb : y.binding = x.binding)
    (hs : Widens x.scopes y.scopes) : y.Anchored ctx := by
  obtain ⟨j, hj, hall⟩ := h
  refine ⟨j, hb.trans hj, fun k hk => ?_⟩
  obtain ⟨keys, hkeys, e, he⟩ := hall k hk
  obtain ⟨keys', hkeys', hmore⟩ := (hs.append (.refl ctx)).level hkeys
  refine ⟨keys', hkeys', e, ?_⟩
  rw [name, ht]
  exact hmore.subset he

theorem Leads.trans (h : x.Leads ctx y) (h' : y.Leads ctx z) : x.Leads ctx z where
  serial := h'.serial.trans h.serial
  keeps ha := by
    obtain ⟨hya, hyt, hyb, hys⟩ := h.keeps ha
    obtain ⟨hza, hzt, hzb, hzs⟩ := h'.keeps hya
    exact ⟨hza, hzt.trans hyt, hzb.trans hyb, hys.trans hzs⟩
  binds ha hz := by
    cases hy : y.analyzed with
    | false => exact h'.binds hy hz
    | true =>
      obtain ⟨-, hzt, hzb, hzs⟩ := h'.keeps hy
      exact (h.binds ha hy).mono hzt hzb hzs

theorem Lifts.anchored (h : z.Lifts l y) (hz : z.Anchored (l.scopeKeys ++ ctx)) :
    y.Anchored ctx := by
  obtain ⟨j, hj, hall⟩ := hz
  refine ⟨j, h.binding.trans hj, fun k hk => ?_⟩
  rw [h.scopes, List.append_assoc, name, h.token]
  exact hall k hk

end Mention

/-- The variable that a node is, if it is one. -/
def Label.cores (l : Label) : List Mention :=
  match l.form with
  | .variable _ v => [(l.mention v).core]
  | _ => []

theorem Label.isOuter_of_cores {l : Label} {y : Mention} (h : y.core ∈ l.cores) :
    y.isOuter = true := by
  unfold cores at h
  split at h
  · exact congrArg Mention.isOuter (List.mem_singleton.mp h)
  · cases h

namespace Sight

variable {keys : List Key} {before : List Sight} {fs : List (List Sight)} {y z : Mention}

def core? : Sight → Option Mention
  | mention m => some m.core
  | scope .. => none

theorem core?_under (b : Bool) (s : Sight) : (s.under b).core? = s.core? := by
  cases s <;> rfl

theorem cores_map {g : Sight → Sight} (hg : ∀ s, (g s).core? = s.core?) (xs : List Sight) :
    (xs.map g).filterMap core? = xs.filterMap core? := by
  rw [List.filterMap_map]
  exact List.filterMap_congr fun s _ => hg s

theorem mem_cores {c : Mention} {xs : List Sight} :
    c ∈ xs.filterMap core? ↔ ∃ y, .mention y ∈ xs ∧ y.core = c := by
  rw [List.mem_filterMap]
  constructor
  · rintro ⟨x, hx, hc⟩
    cases x with
    | mention y => exact ⟨y, hx, Option.some.inj hc⟩
    | scope _ _ => cases hc
  · rintro ⟨y, hy, rfl⟩
    exact ⟨_, hy, rfl⟩

theorem mention_of_enclose (h : .mention y ∈ enclose keys before fs) :
    ∃ z f, .mention z ∈ fs.flatten ∧ f.keys = keys ∧ y = z.within f := by
  obtain ⟨gs, g, hs, rfl, x, hx, he⟩ := mem_enclose.mp h
  cases x with
  | mention z =>
    refine ⟨z, _, ?_, rfl, mention.inj he⟩
    simp [hx]
  | scope _ _ => cases he

theorem mention_enclose (h : .mention z ∈ fs.flatten) :
    ∃ f : Frame, f.keys = keys ∧ .mention (z.within f) ∈ enclose keys before fs := by
  obtain ⟨g, hg, hz⟩ := List.mem_flatten.mp h
  obtain ⟨gs, hs, rfl⟩ := List.append_of_mem hg
  exact ⟨_, rfl, mem_enclose.mpr ⟨gs, g, hs, rfl, _, hz, rfl⟩⟩

variable {ctx : List (List Key)} {xs ys zs xs' ys' : List Sight}

/-- Each variable of a later state comes from one of an earlier state. -/
def Follows (ctx : List (List Key)) (xs ys : List Sight) : Prop :=
  ∀ y, .mention y ∈ ys → ∃ x, .mention x ∈ xs ∧ x.Leads ctx y

theorem follows_of_subset (h : ys ⊆ xs) : Follows ctx xs ys :=
  fun y hy => ⟨y, h hy, .refl ctx y⟩

theorem Follows.refl (xs : List Sight) : Follows ctx xs xs :=
  follows_of_subset (List.Subset.refl xs)

theorem Follows.trans (h : Follows ctx xs ys) (h' : Follows ctx ys zs) : Follows ctx xs zs := by
  intro z hz
  obtain ⟨y, hy, hyz⟩ := h' z hz
  obtain ⟨x, hx, hxy⟩ := h y hy
  exact ⟨x, hx, hxy.trans hyz⟩

theorem Follows.append (h : Follows ctx xs ys) (h' : Follows ctx xs' ys') :
    Follows ctx (xs ++ xs') (ys ++ ys') := by
  intro y hy
  rcases List.mem_append.mp hy with hy | hy
  · obtain ⟨x, hx, hxy⟩ := h y hy
    exact ⟨x, List.mem_append_left _ hx, hxy⟩
  · obtain ⟨x, hx, hxy⟩ := h' y hy
    exact ⟨x, List.mem_append_right _ hx, hxy⟩

end Sight

namespace Node

variable {n k : Node} {l : Label} {ks : List Node} {b : Bool} {y z : Mention}

/-- Outside blocks a variable keeps its core on the way up. -/
theorem cores_mk (b : Bool) (hb : l.isBlock = false) :
    (((mk l ks).sights b).filterMap Sight.core?).Perm
    (l.cores ++ (ks.flatMap (sights false)).filterMap Sight.core?) := by
  rw [sights_mk, Sight.cores_map (Sight.core?_under b), ← flatten_sights,
    Sight.cores_map (Sight.core?_under false)]
  generalize ks.map (fold sightStep) = parts
  unfold sightStep Label.cores
  cases hf : l.form with
  | block _ _ => simp [Label.isBlock, hf] at hb
  | initializer =>
    dsimp only
    rw [List.nil_append]
    rcases startStep_cases parts with rfl | h | ⟨m, xs, hp, h⟩
    · exact .refl _
    · have h := h l []
      rw [List.append_nil] at h
      rw [h, Sight.cores_map (Sight.core?_under false)]
    · have h := h l []
      rw [List.append_nil, List.flatten_nil, List.append_nil] at h
      rw [h, hp, List.filterMap_append, Sight.cores_map (Sight.core?_under false)]
      exact List.perm_append_singleton ..
  | «variable» d v =>
    dsimp only
    rw [List.filterMap_cons, Sight.cores_map (Sight.core?_under false)]
    exact .refl _
  | operator _ _ _ => exact .refl _
  | _ =>
    dsimp only
    rw [Sight.cores_map (Sight.core?_under _)]
    exact .refl _

theorem lifts_of_core (hb : l.isBlock = false) (hc : z.core = y.core)
    (ha : y.isOuter = false → y.analyzed = z.analyzed) : z.Lifts l y where
  token := (congrArg Mention.token hc).symm
  serial := (congrArg Mention.serial hc).symm
  binding := (congrArg Mention.binding hc).symm
  scopes := by
    rw [Label.scopeKeys_of_not_block hb, List.append_nil]
    exact (congrArg Mention.scopes hc).symm
  analyzed := ha

theorem lifts_within {kind : BlockKind} {s : Scope} {f : Frame} (hl : l.form = .block kind s)
    (hf : f.keys = s.keys) (z : Mention) : z.Lifts l (z.within f) where
  token := rfl
  serial := rfl
  binding := rfl
  scopes := by simp [Mention.scopes, Mention.within, Label.scopeKeys, hl, hf]
  analyzed _ := rfl

/-- A variable of a node is the node itself or a variable of a child. -/
theorem lifted_of_mem (hy : .mention y ∈ (mk l ks).sights b) :
    y.core ∈ l.cores ∨ ∃ z, .mention z ∈ ks.flatMap (sights false) ∧ z.Lifts l y := by
  cases hb : l.isBlock with
  | true =>
    obtain ⟨kind, s, hf⟩ := Label.isBlock_iff.mp hb
    rw [sights_block hf, List.mem_append] at hy
    obtain ⟨z, f, hz, hk, rfl⟩ := Sight.mention_of_enclose (hy.resolve_right (by simp))
    exact Or.inr ⟨z, by rwa [List.flatMap_def], lifts_within hf hk z⟩
  | false =>
    cases ho : y.isOuter with
    | false =>
      have hi : Sight.isOuter (.mention y) = false := ho
      obtain ⟨k, hk, hy⟩ := (inner_mk hb hi).mp hy
      exact Or.inr ⟨y, List.mem_flatMap.mpr ⟨k, hk, hy⟩, lifts_of_core hb rfl fun _ => rfl⟩
    | true =>
      have hcore := (cores_mk b hb).subset (Sight.mem_cores.mpr ⟨y, hy, rfl⟩)
      rcases List.mem_append.mp hcore with h | h
      · exact Or.inl h
      · obtain ⟨z, hz, hc⟩ := Sight.mem_cores.mp h
        refine Or.inr ⟨z, hz, lifts_of_core hb hc ?_⟩
        rw [ho]
        exact fun h => nomatch h

theorem mem_of_cores (ks : List Node) (b : Bool) {c : Mention} (hc : c ∈ l.cores) :
    ∃ y, .mention y ∈ (mk l ks).sights b ∧ y.core = c := by
  have hb : l.isBlock = false := by
    unfold Label.cores at hc
    unfold Label.isBlock
    cases hf : l.form <;> simp_all
  exact Sight.mem_cores.mp ((cores_mk b hb).symm.subset (List.mem_append_left _ hc))

theorem exists_lifted (l : Label) (b : Bool) (hz : .mention z ∈ ks.flatMap (sights false)) :
    ∃ y, .mention y ∈ (mk l ks).sights b ∧ z.Lifts l y := by
  cases hb : l.isBlock with
  | true =>
    obtain ⟨kind, s, hf⟩ := Label.isBlock_iff.mp hb
    rw [List.flatMap_def] at hz
    obtain ⟨f, hk, hm⟩ := Sight.mention_enclose hz
    exact ⟨_, by rw [sights_block hf]; exact List.mem_append_left _ hm, lifts_within hf hk z⟩
  | false =>
    cases ho : z.isOuter with
    | false =>
      have hi : Sight.isOuter (.mention z) = false := ho
      exact ⟨z, (inner_mk hb hi).mpr (List.mem_flatMap.mp hz), lifts_of_core hb rfl fun _ => rfl⟩
    | true =>
      have hm := (cores_mk b hb).symm.subset
        (List.mem_append_right l.cores (Sight.mem_cores.mpr ⟨z, hz, rfl⟩))
      obtain ⟨y, hy, hc⟩ := Sight.mem_cores.mp hm
      refine ⟨y, hy, lifts_of_core hb hc.symm ?_⟩
      have hyo : y.core.isOuter = z.core.isOuter := by rw [hc]
      exact fun h => nomatch (hyo.symm.trans h).symm.trans ho

/-- What happens to the variables of the children of an open node happens to its own. -/
theorem follows_mk {l' : Label} {ks' : List Node} {ctx : List (List Key)} {new : List Sight}
    (hr : (mk l ks).Raw) (hr' : (mk l' ks').Raw) (hc : l'.cores = l.cores)
    (hs : Widens l.scopeKeys l'.scopeKeys)
    (hnew : ∀ x, .mention x ∈ new → x.analyzed = false)
    (h : Sight.Follows (l'.scopeKeys ++ ctx) (ks.flatMap (sights false) ++ new)
      (ks'.flatMap (sights false))) :
    Sight.Follows ctx ((mk l ks).sights false ++ new) ((mk l' ks').sights false) := by
  intro y hy
  have hy' : y.isOuter = true → y.analyzed = false := hr'.analyzed_sights y hy
  have hinner : y.analyzed = true → y.isOuter = false := fun ha => by
    cases ho : y.isOuter with
    | false => rfl
    | true => rw [hy' ho] at ha; cases ha
  rcases lifted_of_mem hy with hcore | ⟨z, hz, hlift⟩
  · have hya : y.analyzed = false := hy' (Label.isOuter_of_cores hcore)
    rw [hc] at hcore
    obtain ⟨x, hx, hxc⟩ := mem_of_cores ks false hcore
    have hxo : x.isOuter = true := Label.isOuter_of_cores (hxc ▸ hcore)
    refine ⟨x, List.mem_append_left _ hx, (congrArg Mention.serial hxc).symm, ?_, ?_⟩
    · rw [hr.analyzed_sights x hx hxo]
      exact fun h => nomatch h
    · rw [hya]
      exact fun _ h => nomatch h
  obtain ⟨x, hx, hlead⟩ := h z hz
  rcases List.mem_append.mp hx with hx | hx
  · obtain ⟨w, hw, hwl⟩ := exists_lifted l false hx
    have hscopes : x.analyzed = true → Widens w.scopes y.scopes := fun ha => by
      rw [hwl.scopes, hlift.scopes]
      exact (hlead.keeps ha).2.2.2.append hs
    have houter : x.analyzed = true → w.isOuter = y.isOuter := fun ha => by
      rw [Bool.eq_iff_iff, Mention.isOuter_iff, Mention.isOuter_iff, ← List.length_eq_zero_iff,
        List.Forall₂.length_eq (hscopes ha), List.length_eq_zero_iff]
    refine ⟨w, List.mem_append_left _ hw, ?_, fun ha => ?_, fun ha hya => ?_⟩
    · rw [hlift.serial, hlead.serial, hwl.serial]
    · have hwo : w.isOuter = false := by
        cases ho : w.isOuter with
        | false => rfl
        | true => rw [hr.analyzed_sights w hw ho] at ha; cases ha
      have hxa : x.analyzed = true := hwl.analyzed hwo ▸ ha
      obtain ⟨hza, ht, hb, -⟩ := hlead.keeps hxa
      refine ⟨?_, ?_, ?_, hscopes hxa⟩
      · rw [hlift.analyzed (houter hxa ▸ hwo), hza]
      · rw [hlift.token, ht, hwl.token]
      · rw [hlift.binding, hb, hwl.binding]
    · have hyo := hinner hya
      have hza : z.analyzed = true := hlift.analyzed hyo ▸ hya
      refine hlift.anchored (hlead.binds ?_ hza)
      cases hxa : x.analyzed with
      | false => rfl
      | true => rw [hwl.analyzed ((houter hxa).trans hyo), hxa] at ha; cases ha
  · refine ⟨x, List.mem_append_right _ hx, hlift.serial.trans hlead.serial, ?_, fun ha hya => ?_⟩
    · rw [hnew x hx]
      exact fun h => nomatch h
    · exact hlift.anchored (hlead.binds ha (hlift.analyzed (hinner hya) ▸ hya))

end Node

/-- A name that is found is declared at its level, also after more has been declared in the
innermost scope. -/
theorem Scopes.declares_of_lookup {x : Bytes} {b : Option Nat} {s u : Scope} {os : Scopes} {k : Nat}
    (h : lookup x b (s :: os) = some k) (hu : s.declares x = true → u.declares x = true) :
    ∃ v, (u :: os).reverse[k]? = some v ∧ v.declares x = true := by
  obtain ⟨v, hv, hd⟩ := lookup_level h
  rw [← level?_eq]
  rw [level?] at hv ⊢
  split at hv
  · next hk =>
    cases hv
    exact ⟨u, if_pos hk, hu hd⟩
  · next hk => exact ⟨v, (if_neg hk).trans hv, hd⟩

theorem Mention.anchored_boundTo {m : Mention} {ss : Scopes} {v : Scope} {k : Nat}
    (ho : m.isOuter = true) (hk : ss.reverse[k]? = some v) (hv : v.declares m.name = true) :
    (m.boundTo k).Anchored (ss.map Scope.keys).dropLast := by
  refine ⟨k, rfl, ?_⟩
  rintro j rfl
  obtain ⟨⟨x, e⟩, he, rfl⟩ := Scope.declares_iff.mp hv
  have hs : (m.boundTo (j + 1)).scopes = [] := isOuter_iff.mp ho
  refine ⟨v.keys, ?_, e, he⟩
  rw [hs, List.nil_append, ← List.tail_reverse, List.getElem?_tail, ← List.map_reverse,
    List.getElem?_map, hk]
  rfl

/-- Analysis binds each variable to a scope that declares its name. -/
theorem Delivered.follows {os : Scopes} {s u : Scope} {ms qs : List Node}
    (h : Delivered os s u ms qs) (hm : ∀ m ∈ ms, m.Raw) :
    Sight.Follows ((u :: os).map Scope.keys).dropLast (ms.flatMap (Node.sights false))
      (qs.flatMap (Node.sights false)) := by
  obtain ⟨hu, -, hall⟩ := Sight.mapM_analyze_ok h.run
  obtain ⟨rfl, -⟩ := List.cons.inj hu
  intro y hy
  obtain ⟨before, x, after, hxs, htaken⟩ := hall _ hy
  have hx : x ∈ ms.flatMap (Node.sights false) := by simp [hxs]
  have hraw : ∀ v, x = .mention v → v.isOuter = true → v.analyzed = false := by
    rintro v rfl ho
    obtain ⟨n, hn, hv⟩ := List.mem_flatMap.mp hx
    exact (hm n hn).analyzed_sights v hv ho
  generalize hyx : Sight.mention y = z at htaken
  cases htaken with
  | inner _ =>
    subst hyx
    exact ⟨y, hx, .refl _ y⟩
  | @found m k ho _ hk =>
    obtain rfl := Sight.mention.inj hyx
    have hup : (s.extend (Sight.named before)).declares m.name = true →
        (s.extend (Sight.named (ms.flatMap (Node.sights false)))).declares m.name = true := by
      rw [hxs, Sight.named_append, Scope.declares_iff, Scope.declares_iff]
      rintro ⟨key, hkey, he⟩
      refine ⟨key, ?_, he⟩
      rw [Scope.keys_extend] at hkey ⊢
      exact List.append_assoc .. ▸ List.mem_append_left _ hkey
    obtain ⟨v, hv, hd⟩ := Scopes.declares_of_lookup hk hup
    refine ⟨m, hx, rfl, ?_, fun _ _ => Mention.anchored_boundTo ho hv hd⟩
    rw [hraw m rfl ho]
    exact fun h => nomatch h
  | @entered m ho hr _ =>
    obtain rfl := Sight.mention.inj hyx
    refine ⟨m, hx, rfl, ?_, fun _ _ => ?_⟩
    · rw [hraw m rfl ho]
      exact fun h => nomatch h
    · have hlast :
          (s.extend (Sight.named (ms.flatMap (Node.sights false))) :: os).reverse[os.length]? =
          some (s.extend (Sight.named (ms.flatMap (Node.sights false)))) := by simp
      refine Mention.anchored_boundTo ho hlast (Scope.declares_iff.mpr ⟨m.key, ?_, rfl⟩)
      rw [Scope.keys_extend, hxs, Sight.named_append, ← List.singleton_append, Sight.named_append,
        Sight.named_outer ho, if_pos hr]
      simp

/-! Variables are told apart by their numbers. -/

namespace Sight

def serials (xs : List Sight) : List Nat := (xs.filterMap mention?).map Mention.serial

theorem serials_cores (xs : List Sight) : (xs.filterMap core?).map Mention.serial = serials xs := by
  rw [serials, List.map_filterMap, List.map_filterMap]
  refine List.filterMap_congr fun x _ => ?_
  cases x <;> rfl

theorem serials_within (g : Frame) (xs : List Sight) :
    serials (xs.map (within g)) = serials xs := by
  rw [serials, serials, List.filterMap_map, List.map_filterMap, List.map_filterMap]
  refine List.filterMap_congr fun x _ => ?_
  cases x <;> rfl

theorem serials_append (xs ys : List Sight) : serials (xs ++ ys) = serials xs ++ serials ys := by
  simp [serials]

theorem serials_enclose (keys : List Key) (before : List Sight) (fs : List (List Sight)) :
    serials (enclose keys before fs) = serials fs.flatten := by
  induction fs generalizing before with
  | nil => rfl
  | cons f fs ih =>
    rw [enclose, serials_append, serials_within, ih, List.flatten_cons, serials_append]

end Sight

theorem Node.serials_flatMap (ks : List Node) (b : Bool) :
    Sight.serials (ks.flatMap (sights b)) = ks.flatMap fun k => Sight.serials (k.sights b) := by
  simp only [Sight.serials, List.filterMap_flatMap, List.map_flatMap]

/-- The numbers of the variables of a tree, each once. -/
theorem Node.serials_sights (n : Node) (b : Bool) :
    (Sight.serials (n.sights b)).Perm (n.identifiers.map Prod.snd) := by
  induction n using Node.induct generalizing b with
  | h l ks ih =>
    have hkids : (Sight.serials (ks.flatMap (sights false))).Perm
        ((ks.flatMap identifiers).map Prod.snd) := by
      rw [serials_flatMap, List.map_flatMap]
      exact List.Perm.flatMap_left ks fun k hk => ih k hk false
    rw [identifiers_mk, List.map_append]
    cases hb : l.isBlock with
    | true =>
      obtain ⟨kind, s, hf⟩ := Label.isBlock_iff.mp hb
      have hown : l.variableKey? = none := by rw [Label.variableKey?, hf]
      have hscope : ∀ as es, Sight.serials [.scope as es] = [] := fun _ _ => rfl
      rw [sights_block hf, Sight.serials_append, Sight.serials_enclose, ← List.flatMap_def, hscope,
        List.append_nil, hown]
      exact hkids
    | false =>
      have hown : l.cores.map Mention.serial = l.variableKey?.toList.map Prod.snd := by
        unfold Label.cores Label.variableKey?
        cases l.form <;> rfl
      rw [← Sight.serials_cores]
      refine ((cores_mk b hb).map Mention.serial).trans ?_
      rw [List.map_append, hown, Sight.serials_cores]
      exact hkids.append_left _

namespace Tree

variable {t u : Tree} {n n' : Node} {path : List Node} {new : List Sight} {tok : Token}
  {f : Option Failure}

/-- The variables of a tree, with the blocks around them. -/
def sights (t : Tree) : List Sight := t.roots.flatMap (Node.sights false)

/-- What is declared in the blocks on a path, innermost first. -/
def around (path : List Node) : List (List Key) := path.flatMap (·.label.scopeKeys)

theorem serials_sights (t : Tree) : (Sight.serials t.sights).Perm (t.identifiers.map Prod.snd) := by
  have hids : t.roots.flatMap Node.identifiers = t.identifiers := by
    rw [roots, List.flatMap_append, (openFragment_spec t.path).1, identifiers]
  rw [sights, Node.serials_flatMap, ← hids, List.map_flatMap]
  exact List.Perm.flatMap_left t.roots fun n _ => n.serials_sights false

theorem Numbered.serial_le (h : t.Numbered) {x : Mention} (hx : .mention x ∈ t.sights) :
    x.serial ≤ t.clock := by
  have hm : x.serial ∈ Sight.serials t.sights :=
    List.mem_map.mpr ⟨x, List.mem_filterMap.mpr ⟨_, hx, rfl⟩, rfl⟩
  obtain ⟨key, hkey, he⟩ := List.mem_map.mp (t.serials_sights.subset hm)
  exact he ▸ h.bounded key hkey

theorem Numbered.eq_of_serial (h : t.Numbered) {x y : Mention} (hx : .mention x ∈ t.sights)
    (hy : .mention y ∈ t.sights) (hs : x.serial = y.serial) : x = y :=
  List.inj_on_of_nodup_map (t.serials_sights.nodup_iff.mpr h.distinct)
    (List.mem_filterMap.mpr ⟨_, hx, rfl⟩) (List.mem_filterMap.mpr ⟨_, hy, rfl⟩) hs

theorem follows_foldl (hp : ∀ p ∈ path, p.Raw) (hn : n.Raw) (hn' : n'.Raw)
    (hnew : ∀ x, .mention x ∈ new → x.analyzed = false)
    (h : Sight.Follows (around path) (n.sights false ++ new) (n'.sights false)) :
    Sight.Follows [] ((path.foldl (fun n p => p.push n) n).sights false ++ new)
      ((path.foldl (fun n p => p.push n) n').sights false) := by
  induction path generalizing n n' with
  | nil => exact h
  | cons p path ih =>
    have hraw := hp p (by simp)
    refine ih (fun q hq => hp q (by simp [hq])) (Node.raw_push hraw hn) (Node.raw_push hraw hn') ?_
    obtain ⟨l, ks⟩ := p
    refine Node.follows_mk (Node.raw_push hraw hn) (Node.raw_push hraw hn') rfl
      (.refl _) hnew ?_
    rw [Node.kids_mk, List.flatMap_append, List.flatMap_append, List.append_assoc,
      List.flatMap_singleton, List.flatMap_singleton]
    exact (Sight.Follows.refl _).append h

theorem sights_cons (hp : t.path = n :: path) : t.sights =
    t.fragments.flatMap (Node.sights false) ++
      (path.foldl (fun n p => p.push n) n).sights false := by
  simp [sights, roots, openFragment, hp]

/-- What happens to the variables of the innermost open node happens to those of the tree. -/
theorem follows_head (hp : t.path = n :: path) (hu : u.path = n' :: path)
    (hf : u.fragments = t.fragments) (hraw : ∀ p ∈ path, p.Raw) (hn : n.Raw) (hn' : n'.Raw)
    (hnew : ∀ x, .mention x ∈ new → x.analyzed = false)
    (h : Sight.Follows (around path) (n.sights false ++ new) (n'.sights false)) :
    Sight.Follows [] (t.sights ++ new) u.sights := by
  rw [sights_cons hp, sights_cons hu, hf, List.append_assoc]
  exact (Sight.Follows.refl _).append (follows_foldl hraw hn hn' hnew h)

theorem follows_append (hraw : ∀ p ∈ t.path, p.Raw) (hn : n.Raw)
    (hnew : ∀ x, .mention x ∈ n.sights false → x.analyzed = false) :
    Sight.Follows [] (t.sights ++ n.sights false) (t.append n).sights := by
  cases hp : t.path with
  | nil =>
    refine Sight.follows_of_subset ?_
    simp [Tree.append, sights, roots, openFragment, hp]
  | cons p path =>
    rw [hp] at hraw
    have hr := hraw p (by simp)
    have hpath : (t.append n).path = p.push n :: path := by simp [Tree.append, hp]
    have hfrag : (t.append n).fragments = t.fragments := by simp [Tree.append, hp]
    refine follows_head hp hpath hfrag (fun q hq => hraw q (by simp [hq])) hr (Node.raw_push hr hn)
      hnew ?_
    obtain ⟨l, ks⟩ := p
    refine Node.follows_mk hr (Node.raw_push hr hn) rfl (.refl _) hnew ?_
    rw [Node.kids_mk, List.flatMap_append, List.flatMap_singleton]
    exact Sight.Follows.refl _

theorem sights_enter (t : Tree) (n : Node) (b : Bool) :
    ({ t with path := n :: t.path, expectHead := b } : Tree).sights = (t.append n).sights := by
  rw [sights, ← roots_tuck, tuck_cons rfl, sights]
  unfold Tree.append
  cases t.path <;> rfl

theorem follows_leave (hraw : ∀ p ∈ t.path, p.Raw) : Sight.Follows [] t.sights t.leave.sights := by
  cases hp : t.path with
  | nil =>
    rw [leave, hp]
    exact Sight.Follows.refl _
  | cons n path =>
    rw [hp] at hraw
    have hr := hraw n (by simp)
    rw [leave_cons hp, ← sights_enter { t with path } (n.shut t.clock) t.expectHead,
      ← List.append_nil t.sights]
    refine follows_head hp rfl rfl (fun q hq => hraw q (by simp [hq])) hr
      (Node.raw_shut hr t.clock) (by simp) ?_
    obtain ⟨l, ks⟩ := n
    exact Node.follows_mk hr (Node.raw_shut hr t.clock) rfl (.refl _) (by simp)
      (Sight.follows_of_subset (by simp))

theorem around_eq (path : List Node) :
    around path = (path.filterMap Node.scope?).map Scope.keys := by
  rw [List.filterMap_eq_flatMap_toList, List.map_flatMap]
  exact List.flatMap_congr fun n _ => (n.keys_scope?).symm

theorem Staged.raw (h : t.Staged) : ∀ n ∈ t.path, n.Raw := fun n hn => (h.path n hn).upper.raw

/-- At a flush the variables are bound, and blocks declare more. A flush in a block that fails has
not touched the fragments. -/
theorem follows_flush (hk : t.Kept) (hs : t.Staged) (ha : t.atScope = true) :
    Sight.Follows [] t.sights (t.flush.tree.fragments.flatMap (Node.sights false)) ∧
      (t.flush.failure = none → Sight.Follows [] t.sights t.flush.tree.sights) := by
  obtain ⟨s, os, u, hscopes, hu, htree, hfail⟩ := flush_refit ha
  have hrec := hk.records ha hscopes
  obtain ⟨rs, ms, qs, rest, v, hks, hr, hm, hkids, hd, hcase⟩ := hrec.flushed t.innerBlock os
  have hall : Sight.Follows ((v :: os).map Scope.keys).dropLast
      (t.collected.flatMap (Node.sights false))
      ((Flushed.of t.innerBlock (s :: os) t.collected).kids.flatMap (Node.sights false)) := by
    rw [hkids, hks]
    simp only [List.flatMap_append]
    exact (Sight.Follows.refl _).append
      ((hd.follows fun m h => (hm m (List.mem_append_left _ h)).raw).append
        (Sight.Follows.refl _))
  rw [htree, hfail]
  cases hp : t.path with
  | nil =>
    simp only [scopes, hp, List.filterMap_nil, List.nil_append, List.cons.injEq] at hscopes
    obtain ⟨-, rfl⟩ := hscopes
    simp only [collected, hp] at hall
    have hsights : t.sights = t.fragments.flatMap (Node.sights false) := by
      simp [sights, roots, openFragment, hp]
    rw [hsights]
    refine ⟨by simpa [refit, hp, collected] using hall, fun _ => ?_⟩
    simpa [refit, hp, collected, sights, roots, openFragment] using hall
  | cons n path =>
    refine ⟨?_, fun hnone => ?_⟩
    · refine Sight.follows_of_subset ?_
      rw [sights_cons hp]
      simp [refit, hp]
    · have hraw : ∀ p ∈ n :: path, p.Raw := fun p h => hs.raw p (hp ▸ h)
      obtain ⟨rfl, hv⟩ := hcase hnone
      obtain rfl : v = u := (List.cons.inj (hv.symm.trans hu)).1
      obtain ⟨l, ks⟩ := n
      rw [atScope, hp] at ha
      obtain ⟨kind, s', hf⟩ := Label.isBlock_iff.mp (show l.isBlock = true from ha)
      have hsc : (Node.mk l ks).scope? = some s' := by rw [Node.scope?, Node.form_mk, hf]
      simp only [scopes, hp, List.filterMap_cons, hsc, List.cons_append, List.cons.injEq] at hscopes
      obtain ⟨rfl, rfl⟩ := hscopes
      have hset : ∀ js, (t.refit js v).path = .mk { l with form := .block kind v } js :: path :=
        fun js => by simp [refit, hp, Node.setScope, hf]
      have hnew : ∀ js, (Node.mk { l with form := .block kind v } js).Raw := fun js =>
        Node.raw_mk.mpr ⟨(Node.raw_mk.mp (hraw (.mk l ks) (by simp))).1, fun hb => by
          simp [Label.isBlock] at hb⟩
      rw [← List.append_nil t.sights]
      refine follows_head hp (hset _) (by simp [refit, hp])
        (fun q h => hraw q (by simp [h])) (hraw _ (by simp)) (hnew _) (by simp) ?_
      refine Node.follows_mk (hraw _ (by simp)) (hnew _) ?_ ?_ (by simp) ?_
      · simp [Label.cores, hf]
      · simp only [Label.scopeKeys, hf]
        exact .cons ⟨_, hd.keys.symm⟩ .nil
      · have hctx : ((v :: (path.filterMap Node.scope? ++ [t.globals])).map Scope.keys).dropLast =
            v.keys :: around path := by
          rw [around_eq, ← List.cons_append, List.map_append]
          exact List.dropLast_concat
        rw [hctx] at hall
        rw [List.append_nil]
        simp only [collected, hp, Node.kids_mk] at hall ⊢
        exact hall

theorem fresh_sprout {k : Node.Site} {m : Option Marker} {x : Mention}
    (h : .mention x ∈ (Node.sprout tok t.clock k m).sights false) :
    x.serial = t.clock ∧ x.analyzed = false := by
  rcases Node.lifted_of_mem h with hc | ⟨z, hz, -⟩
  · refine ⟨?_, (Node.raw_sprout tok t.clock k m).analyzed_sights x h (Label.isOuter_of_cores hc)⟩
    unfold Label.cores at hc
    split at hc
    · exact congrArg Mention.serial (List.mem_singleton.mp hc)
    · cases hc
  · cases hz

theorem follows_closing (hk : t.Kept) (hs : t.Staged) (hc : t.Closing tok u) :
    Sight.Follows [] t.sights u.leave.sights := by
  refine Sight.Follows.trans ?_ (follows_leave (hs.closing hc).raw)
  rcases hs.closing_cases hc with ⟨rfl, -⟩ | ⟨ha, rfl, hf⟩
  · exact Sight.Follows.refl _
  · exact (follows_flush hk hs ha).2 hf

/-- A token adds one variable at most. Where it fails, the closed fragments are of the earlier
state still. -/
theorem Placed.follows (hk : t.Kept) (hs : t.Staged) (hp : t.Placed tok u f) :
    ∃ new, (∀ x, .mention x ∈ new → x.serial = t.clock ∧ x.analyzed = false) ∧
      Sight.Follows [] (t.sights ++ new) (u.fragments.flatMap (Node.sights false)) ∧
      (f = none → Sight.Follows [] (t.sights ++ new) u.sights) := by
  have hsub : ∀ v : Tree, v.fragments.flatMap (Node.sights false) ⊆ v.sights := fun v => by
    simp [sights, roots]
  have hboth : ∀ {xs : List Sight} {v : Tree}, Sight.Follows [] xs v.sights →
      Sight.Follows [] xs (v.fragments.flatMap (Node.sights false)) ∧
        (f = none → Sight.Follows [] xs v.sights) := fun h =>
    ⟨h.trans (Sight.follows_of_subset (hsub _)), fun _ => h⟩
  have hnone : (∀ x, .mention x ∈ ([] : List Sight) → x.serial = t.clock ∧ x.analyzed = false) := by
    simp
  cases hp with
  | refused _ _ =>
    exact ⟨[], hnone, hboth (Sight.follows_of_subset (by simp))⟩
  | awaiting _ => exact ⟨[], hnone, hboth (Sight.follows_of_subset (by simp [sights, roots]))⟩
  | leaf k _ _ =>
    exact ⟨_, fun x hx => fresh_sprout hx, hboth (follows_append hs.raw
      (Node.raw_sprout tok t.clock k none) fun x hx => (fresh_sprout hx).2)⟩
  | entered k m _ _ =>
    refine ⟨(Node.sprout tok t.clock k (some m)).sights false, fun x hx => fresh_sprout hx,
      hboth ?_⟩
    rw [sights_enter]
    exact follows_append hs.raw (Node.raw_sprout tok t.clock k (some m))
      fun x hx => (fresh_sprout hx).2
  | flushed _ ha =>
    refine ⟨[], hnone, ?_⟩
    rw [List.append_nil]
    exact follows_flush hk hs ha
  | blocked f n path hpath hc hf =>
    refine ⟨[], hnone, ?_, by simp⟩
    rw [List.append_nil]
    exact (follows_flush hk hs (hs.atScope_of_closedBy hpath hc)).1
  | left v hv _ =>
    refine ⟨[], hnone, hboth ?_⟩
    rw [List.append_nil]
    exact follows_closing hk hs hv
  | delivered v hv ha =>
    refine ⟨[], hnone, ?_⟩
    rw [List.append_nil]
    obtain ⟨hvk, hblock⟩ := hk.closing hs hv
    have hvs := hs.closing hv
    obtain ⟨hfrag, hall⟩ := follows_flush (hvk.leave hvs hblock) hvs.leave ha
    have hleave := follows_closing hk hs hv
    exact ⟨hleave.trans hfrag, fun h => hleave.trans (hall h)⟩

theorem follows_reset (h : ∀ n ∈ t.path, n.Opened) :
    Sight.Follows [] (t.fragments.flatMap (Node.sights false)) t.reset.tree.sights := by
  have hpath : t.reset.tree.path = [] := rfl
  refine Sight.follows_of_subset ?_
  rw [sights, roots, hpath, reset_fragments h, openFragment, Option.toList_none, List.append_nil]
  intro y hy
  obtain ⟨n, hn, hy⟩ := List.mem_flatMap.mp hy
  exact List.mem_flatMap.mpr ⟨n, List.mem_of_mem_filter hn, hy⟩

theorem follows_insert (h : t.Reachable) (tok : Token) :
    ∃ new, (∀ x, .mention x ∈ new → x.serial = t.clock + 1 ∧ x.analyzed = false) ∧
      Sight.Follows [] (t.sights ++ new) (t.insert tok).tree.sights := by
  have hk : ({ t with clock := t.clock + 1 } : Tree).Kept :=
    ⟨h.kept.root, h.kept.kids, h.kept.blocks⟩
  have hs : ({ t with clock := t.clock + 1 } : Tree).Staged := ⟨h.staged.fragments, h.staged.path⟩
  have hp := placed_place { t with clock := t.clock + 1 } tok
  obtain ⟨new, hfresh, hfrag, hall⟩ := hp.follows hk hs
  refine ⟨new, hfresh, ?_⟩
  rcases insert_tree t tok with ⟨hf, ht, -⟩ | ⟨f, hf, ht, -⟩
  · rw [ht]
    exact hall hf
  · obtain ⟨hr, hkeys, hg⟩ := h.sound.grown
    obtain ⟨extra, hgrown, -⟩ := hg.tick.place hr hp
    rw [ht]
    exact hfrag.trans (follows_reset hgrown.opened)

theorem follows_evaluate {σ : Type} (d : Option (Dispatcher σ)) (w : σ) (cancelled : Bool)
    (interrupts : List Bool) :
    Sight.Follows [] t.sights (t.evaluate d w cancelled interrupts).tree.sights := by
  obtain ⟨ks, ks', rest, rest', vs, m', m'', stop, hsplit, hpass, hend, hof⟩ :=
    Progress.of_cases d interrupts { scopes := [t.globals], world := w, cancelled, outputs := [] }
      t.fragments
  have hafter : (t.evaluate d w cancelled interrupts).tree.fragments = ks' ++ rest' := by
    rw [Tree.evaluate, hof]
  have hpath : (t.evaluate d w cancelled interrupts).tree.path = t.path := rfl
  have hpassed : ks'.flatMap (Node.sights false) = ks.flatMap (Node.sights false) := by
    rw [List.flatMap_def, List.flatMap_def, hpass.sights]
  have hrest : Sight.Follows [] (rest.flatMap (Node.sights false))
      (rest'.flatMap (Node.sights false)) :=
    Sight.follows_of_subset (hend.sublist.flatMap _).subset
  simp only [sights, roots, hafter, hpath, hsplit, List.flatMap_append, hpassed]
  exact ((Sight.Follows.refl _).append hrest).append
    (Sight.Follows.refl _)

end Tree

namespace Run

variable {σ : Type}

/-- A call adds one variable at most and binds some; to those that are bound it does nothing. -/
theorem follows_step {r : Run σ} (h : r.tree.Reachable) (d : Option (Dispatcher σ)) (c : Call) :
    ∃ new, (∀ x, .mention x ∈ new → x.serial = r.tree.clock + 1 ∧ x.analyzed = false) ∧
      Sight.Follows [] (r.tree.sights ++ new) (r.step d c).tree.sights := by
  cases c with
  | insert tok => exact Tree.follows_insert h tok
  | reset =>
    refine ⟨[], by simp, ?_⟩
    refine Sight.Follows.trans (Sight.follows_of_subset ?_) (Tree.follows_reset h.sound.opened)
    simp [Tree.sights, Tree.roots]
  | evaluate cancelled interrupts =>
    refine ⟨[], by simp, ?_⟩
    rw [List.append_nil]
    exact Tree.follows_evaluate d r.world cancelled interrupts

/-- A variable that is bound to a block is bound to one that declares its name. -/
theorem anchored (d : Option (Dispatcher σ)) (w : σ) (cs : List Call) {y : Mention}
    (hy : .mention y ∈ (of d w cs).tree.sights) (ha : y.analyzed = true) : y.Anchored [] := by
  induction cs using List.reverseRecOn generalizing y with
  | nil => cases hy
  | append_singleton cs c ih =>
    rw [of_concat] at hy
    obtain ⟨new, hnew, hf⟩ := follows_step (reachable d w cs) d c
    obtain ⟨x, hx, hlead⟩ := hf y hy
    cases hxa : x.analyzed with
    | false => exact hlead.binds hxa ha
    | true =>
      obtain ⟨-, ht, hb, hs⟩ := hlead.keeps hxa
      rcases List.mem_append.mp hx with hx | hx
      · exact (ih hx hxa).mono ht hb hs
      · rw [(hnew x hx).2] at hxa
        cases hxa

end Run

end TokenShell
