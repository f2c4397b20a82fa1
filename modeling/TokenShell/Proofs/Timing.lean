import TokenShell.Proofs.Delivery

/-! Variables take effect in the order of the tokens: the times at which they do so rise along the
tree, whatever the phases make of it. -/
namespace TokenShell

namespace Sight

variable {xs ys : List Sight}

def time? : Sight → Option Nat
  | mention m => m.time
  | scope .. => none

/-- The times at which variables take effect. -/
def times (xs : List Sight) : List Nat := xs.filterMap time?

/-- A variable whose time is known. -/
def Dated : Sight → Prop
  | mention m => m.time ≠ none
  | scope .. => True

@[simp] theorem times_append (xs ys : List Sight) : times (xs ++ ys) = times xs ++ times ys :=
  List.filterMap_append

theorem time?_under (b : Bool) (x : Sight) : (x.under b).time? = x.time? := by
  cases x <;> rfl

theorem time?_within (f : Frame) (x : Sight) : (x.within f).time? = x.time? := by
  cases x <;> rfl

theorem time?_blank (x : Sight) : x.blank.time? = x.time? := by
  cases x with
  | mention m => rw [blank]; split <;> rfl
  | scope _ _ => rfl

theorem times_map {g : Sight → Sight} (h : ∀ x, (g x).time? = x.time?) (xs : List Sight) :
    times (xs.map g) = times xs := by
  rw [times, List.filterMap_map]
  exact List.filterMap_congr fun x _ => h x

theorem times_of_blank (h : ys.map blank = xs.map blank) : times ys = times xs := by
  rw [← times_map time?_blank ys, h, times_map time?_blank]

theorem times_enclose (keys : List Key) (before : List Sight) (fs : List (List Sight)) :
    times (enclose keys before fs) = times fs.flatten := by
  induction fs generalizing before with
  | nil => rfl
  | cons f fs ih =>
    rw [enclose, times_append, ih, times_map (time?_within _), List.flatten_cons, times_append]

theorem dated_under (b : Bool) (x : Sight) : (x.under b).Dated ↔ x.Dated := by
  cases x <;> rfl

theorem dated_within (f : Frame) (x : Sight) : (x.within f).Dated ↔ x.Dated := by
  cases x <;> rfl

theorem dated_blank (x : Sight) : x.blank.Dated ↔ x.Dated := by
  cases x with
  | mention m => rw [blank]; split <;> rfl
  | scope _ _ => rfl

theorem dated_of_blank (h : ys.map blank = xs.map blank) (hx : ∀ x ∈ xs, x.Dated) :
    ∀ y ∈ ys, y.Dated := by
  intro y hy
  have hb : y.blank ∈ xs.map blank := by
    rw [← h]
    exact List.mem_map_of_mem hy
  obtain ⟨x, hxm, he⟩ := List.mem_map.mp hb
  rw [← dated_blank, ← he, dated_blank]
  exact hx x hxm

end Sight

namespace Node

variable {n p k : Node} {l : Label} {ks : List Node} {time : Nat}

def times (n : Node) : List Nat := Sight.times (n.sights false)

/-- Every variable of the tree has its time. -/
def Dated (n : Node) : Prop := ∀ x ∈ n.sights false, x.Dated

theorem times_mk (l : Label) (ks : List Node) :
    (mk l ks).times = Sight.times (sightStep l (ks.map (fold sightStep))) := by
  rw [times, sights_mk, Sight.times_map (Sight.time?_under false)]

theorem times_flatMap (ks : List Node) :
    Sight.times (ks.flatMap (sights false)) = ks.flatMap times := by
  rw [Sight.times, List.filterMap_flatMap]
  rfl

theorem times_block (hb : l.isBlock = true) : (mk l ks).times = ks.flatMap times := by
  obtain ⟨kind, s, hf⟩ := Label.isBlock_iff.mp hb
  rw [times, sights_block hf, Sight.times_append, Sight.times_enclose, ← List.flatMap_def,
    times_flatMap]
  simp [Sight.times, Sight.time?]

/-- An initializer that has a first part takes its variable from there, whatever comes after. -/
theorem startStep_cases (parts : List (List Sight)) : parts = [] ∨
    (∀ l more, startStep l (parts ++ more) = (parts ++ more).flatten.map (Sight.under false)) ∨
    ∃ m xs, parts.flatten = .mention m :: xs ∧ ∀ l more, startStep l (parts ++ more) =
      (xs ++ more.flatten).map (Sight.under false) ++ [.mention (m.start l)] := by
  cases parts with
  | nil => exact Or.inl rfl
  | cons first rest =>
    right
    match first with
    | [] => exact Or.inl fun l more => rfl
    | .scope .. :: _ => exact Or.inl fun l more => rfl
    | .mention m :: xs =>
      by_cases ho : m.isOuter = true
      · refine Or.inr ⟨m, xs ++ rest.flatten, rfl, fun l more => ?_⟩
        rw [List.cons_append, startStep, if_pos ho, List.flatten_append, List.append_assoc]
      · refine Or.inl fun l more => ?_
        rw [List.cons_append, startStep, if_neg ho]
        rfl

theorem times_start (m : Mention) (l : Label) :
    Sight.times [.mention (m.start l)] = l.closedAt.toList := by
  cases h : l.closedAt <;> simp [Sight.times, Sight.time?, Mention.start, h]

theorem closedAt_setScope (n : Node) (s : Scope) :
    (n.setScope s).label.closedAt = n.label.closedAt := by
  obtain ⟨l, ks⟩ := n
  rw [setScope]
  split <;> rfl

/-- The variable of an open initializer has no time yet. -/
theorem times_startStep (hl : l.closedAt = none) (parts : List (List Sight)) :
    (Sight.times (startStep l parts)).Sublist (Sight.times parts.flatten) := by
  rcases startStep_cases parts with rfl | h | ⟨m, xs, hp, h⟩
  · exact .refl _
  · have h := h l []
    rw [List.append_nil] at h
    rw [h, Sight.times_map (Sight.time?_under false)]
  · have h := h l []
    rw [List.append_nil, List.flatten_nil, List.append_nil] at h
    rw [h, hp, Sight.times_append, times_start, hl, Option.toList_none, List.append_nil,
      Sight.times_map (Sight.time?_under false)]
    exact (List.sublist_cons_self ..).filterMap _

theorem times_push (hp : p.label.closedAt = none) :
    (p.push k).times.Sublist (p.times ++ k.times) := by
  obtain ⟨l, ks⟩ := p
  have hk : Sight.times (k.fold sightStep) = k.times :=
    (Sight.times_map (Sight.time?_under false) _).symm
  have hflat : Sight.times ((ks ++ [k]).map (fold sightStep)).flatten =
      Sight.times (ks.map (fold sightStep)).flatten ++ k.times := by
    simp [hk]
  rw [push, label_mk, kids_mk]
  by_cases hb : l.isBlock = true
  · rw [times_block hb, times_block hb]
    simp
  rw [times_mk, times_mk, sightStep, sightStep]
  cases hf : l.form with
  | block _ _ => exact (hb (Label.isBlock_iff.mpr ⟨_, _, hf⟩)).elim
  | initializer =>
    dsimp only
    rw [List.map_append, List.map_singleton]
    rcases startStep_cases (ks.map (fold sightStep)) with h | h | ⟨m, xs, hx, h⟩
    · rw [h, List.nil_append]
      refine (times_startStep hp _).trans ?_
      simp [hk]
    · have hnil := h l []
      rw [List.append_nil] at hnil
      rw [h, hnil, Sight.times_map (Sight.time?_under false),
        Sight.times_map (Sight.time?_under false), List.flatten_append, Sight.times_append]
      simp [hk]
    · have hnil := h l []
      rw [List.append_nil, List.flatten_nil, List.append_nil] at hnil
      rw [h, hnil]
      simp only [Sight.times_append, times_start, show l.closedAt = none from hp,
        Sight.times_map (Sight.time?_under false)]
      simp [hk]
  | «variable» d v =>
    have hcons : ∀ xs : List Sight, Sight.times (.mention (l.mention v) :: xs) =
        l.serial :: Sight.times xs := fun _ => rfl
    rw [hcons, hcons, Sight.times_map (Sight.time?_under false),
      Sight.times_map (Sight.time?_under false), hflat]
    rfl
  | operator _ _ _ =>
    dsimp only
    rw [hflat]
  | _ =>
    dsimp only
    rw [Sight.times_map (Sight.time?_under _), Sight.times_map (Sight.time?_under _), hflat]

theorem times_shut (hn : n.label.closedAt = none) (time : Nat) :
    (n.shut time).times.Sublist (n.times ++ [time]) := by
  obtain ⟨l, ks⟩ := n
  rw [shut, setLabel_mk, label_mk, times_mk, times_mk]
  by_cases hf : l.form = .initializer
  · rw [sightStep, sightStep, hf]
    dsimp only
    rcases startStep_cases (ks.map (fold sightStep)) with h | h | ⟨m, xs, -, h⟩
    · rw [h]
      exact List.nil_sublist _
    · have h := fun l => h l []
      rw [List.append_nil] at h
      rw [h, h]
      exact List.sublist_append_left ..
    · have h := fun l => h l []
      rw [List.append_nil] at h
      rw [h, h, Sight.times_append, Sight.times_append, times_start, times_start,
        show l.closedAt = none from hn]
      simp
  · have hstep : sightStep { l with closedAt := some time } = sightStep l := by
      funext parts
      rw [sightStep, sightStep]
      cases hl : l.form with
      | initializer => exact (hf hl).elim
      | _ => rfl
    rw [hstep]
    exact List.sublist_append_left ..

theorem dated_mk (hk : ∀ k ∈ ks, k.Dated)
    (hl : l.form = .initializer → ks = [] ∨ l.closedAt ≠ none) : (mk l ks).Dated := by
  have hflat : ∀ x ∈ (ks.map (fold sightStep)).flatten, x.Dated := by
    intro x hx
    rw [← Sight.dated_under false]
    have hm := List.mem_map_of_mem (f := Sight.under false) hx
    rw [flatten_sights] at hm
    obtain ⟨k, hkm, hm⟩ := List.mem_flatMap.mp hm
    exact hk k hkm _ hm
  intro x hx
  by_cases hb : l.isBlock = true
  · obtain ⟨kind, s, hf⟩ := Label.isBlock_iff.mp hb
    rw [sights_block hf] at hx
    rcases List.mem_append.mp hx with hx | hx
    · obtain ⟨gs, f, hs, he, y, hy, rfl⟩ := Sight.mem_enclose.mp hx
      have hf : f ∈ ks.map (sights false) := by simp [he]
      obtain ⟨k, hkm, rfl⟩ := List.mem_map.mp hf
      exact (Sight.dated_within _ y).mpr (hk k hkm y hy)
    · cases List.mem_singleton.mp hx
      exact trivial
  · rw [sights_mk] at hx
    obtain ⟨y, hy, rfl⟩ := List.mem_map.mp hx
    rw [Sight.dated_under]
    have hmap : ∀ g : Sight → Sight, (g = id ∨ ∃ b, g = Sight.under b) →
        ∀ z ∈ (ks.map (fold sightStep)).flatten, (g z).Dated := by
      rintro g (rfl | ⟨b, rfl⟩) z hz
      · exact hflat z hz
      · exact (Sight.dated_under b z).mpr (hflat z hz)
    rcases sightStep_cases (by simpa using hb) (ks.map (fold sightStep)) with
      ⟨g, hg, he⟩ | ⟨d, b, -, he⟩ | ⟨hf, v, more, hm, hv, he⟩
    · rw [he] at hy
      obtain ⟨z, hz, rfl⟩ := List.mem_map.mp hy
      exact hmap g hg z hz
    · rw [he] at hy
      rcases List.mem_cons.mp hy with rfl | hy
      · exact Option.some_ne_none _
      · obtain ⟨z, hz, rfl⟩ := List.mem_map.mp hy
        exact hmap _ (Or.inr ⟨false, rfl⟩) z hz
    · rw [he] at hy
      rcases List.mem_append.mp hy with hy | hy
      · obtain ⟨z, hz, rfl⟩ := List.mem_map.mp hy
        exact hmap _ (Or.inr ⟨false, rfl⟩) z (hm ▸ List.mem_cons_of_mem _ hz)
      · cases List.mem_singleton.mp hy
        rcases hl hf with rfl | hc
        · cases hm
        · exact hc

end Node

namespace Tree

variable {t u : Tree} {tok : Token} {f : Option Failure} {n : Node} {path ks : List Node}
  {s : Scope}

/-- The times at which the variables of a tree take effect, in the order of the tree. -/
def timeline (t : Tree) : List Nat :=
  t.fragments.flatMap Node.times ++ t.path.reverse.flatMap Node.times

/-- The nodes below the cursor's are closed, and those on the path are open. -/
structure Dated (t : Tree) : Prop where
  opened : ∀ n ∈ t.path, n.label.closedAt = none
  fragments : ∀ n ∈ t.fragments, n.Dated
  kids : ∀ n ∈ t.path, ∀ k ∈ n.kids, k.Dated

/-- Variables take effect in their order, and none after the last token. -/
structure Timed (t : Tree) : Prop where
  dated : t.Dated
  order : t.timeline.Pairwise (· < ·)
  bound : ∀ x ∈ t.timeline, x ≤ t.clock

theorem Dated.append (h : t.Dated) (hn : n.Dated) : (t.append n).Dated := by
  refine ⟨forall_path_append h.opened fun _ hm => hm, forall_fragments_append h.fragments hn, ?_⟩
  exact forall_path_append h.kids fun m hm => List.forall_mem_append.mpr ⟨hm, by simpa using hn⟩

theorem timeline_append (h : ∀ p ∈ t.path, p.label.closedAt = none) (n : Node) :
    (t.append n).timeline.Sublist (t.timeline ++ n.times) := by
  unfold Tree.append
  split
  · next hp => simp [timeline, hp]
  · next p path hp =>
    have hpush := Node.times_push (k := n) (h p (by simp [hp]))
    simp only [timeline, hp, List.reverse_cons, List.flatMap_append, List.flatMap_singleton,
      List.append_assoc]
    exact ((hpush.append_left _).append_left _)

theorem Dated.leave (h : t.Dated) : t.leave.Dated := by
  cases hp : t.path with
  | nil =>
    rw [Tree.leave, hp]
    exact h
  | cons n path =>
    rw [leave_cons hp]
    refine Dated.append ⟨?_, h.fragments, ?_⟩ ?_
    · exact fun m hm => h.opened m (by simp [hp, hm])
    · exact fun m hm => h.kids m (by simp [hp, hm])
    · obtain ⟨l, ks⟩ := n
      exact Node.dated_mk (h.kids _ (by simp [hp])) fun _ => Or.inr (by simp)

theorem timeline_leave (h : t.Dated) : t.leave.timeline.Sublist (t.timeline ++ [t.clock]) := by
  cases hp : t.path with
  | nil =>
    rw [Tree.leave, hp]
    exact List.sublist_append_left ..
  | cons n path =>
    rw [leave_cons hp]
    refine (timeline_append (fun m hm => h.opened m (by simp [hp, hm])) _).trans ?_
    have hshut := Node.times_shut (h.opened n (by simp [hp])) t.clock
    simp only [timeline, hp, List.reverse_cons, List.flatMap_append, List.flatMap_singleton,
      List.append_assoc]
    exact ((hshut.append_left _).append_left _)

/-- What the variables of a scope's fragments are does not change by a flush, failed or not. -/
theorem Kept.flush_blank (h : t.Kept) (ha : t.atScope = true) :
    ∃ ks s, t.flush.tree = t.refit ks s ∧
    List.Forall₂ (fun k j => (j.sights false).map Sight.blank = (k.sights false).map Sight.blank)
      t.collected ks := by
  obtain ⟨s, os, u, hs, -, ht, -⟩ := flush_refit ha
  obtain ⟨rs, ms, qs, rest, v, hk, -, -, hkids, hd, -⟩ := (h.records ha hs).flushed t.innerBlock os
  refine ⟨_, _, ht, ?_⟩
  rw [hkids, hk]
  have hsame : ∀ ns : List Node, List.Forall₂ (fun k j : Node =>
      (j.sights false).map Sight.blank = (k.sights false).map Sight.blank) ns ns :=
    fun ns => List.forall₂_same.mpr fun _ _ => rfl
  exact List.rel_append (hsame rs)
    (List.rel_append (hd.fragments.imp fun _ _ hq => hq.2.2) (hsame rest))

theorem Dated.flush (h : t.Dated) (hk : t.Kept) (ha : t.atScope = true) : t.flush.tree.Dated := by
  obtain ⟨ks, s, ht, hb⟩ := hk.flush_blank ha
  have hks : (∀ k ∈ t.collected, k.Dated) → ∀ k ∈ ks, k.Dated := fun hd =>
    forall_of_forall₂ hb fun k hm j he => Sight.dated_of_blank he (hd k hm)
  rw [ht, Tree.refit]
  split
  · next hp =>
    rw [collected, hp] at hks
    exact ⟨h.opened, hks h.fragments, h.kids⟩
  · next n path hp =>
    rw [collected, hp] at hks
    refine ⟨?_, h.fragments, ?_⟩
    · intro m hm
      rcases List.mem_cons.mp hm with rfl | hm
      · rw [Node.closedAt_setScope]
        exact h.opened n (by simp [hp])
      · exact h.opened m (by simp [hp, hm])
    · intro m hm
      rcases List.mem_cons.mp hm with rfl | hm
      · rw [Node.setScope_eq]
        exact hks (h.kids n (by simp [hp]))
      · exact h.kids m (by simp [hp, hm])

theorem timeline_flush (hk : t.Kept) (ha : t.atScope = true) :
    t.flush.tree.timeline = t.timeline := by
  obtain ⟨ks, s, ht, hb⟩ := hk.flush_blank ha
  have hks : ks.flatMap Node.times = t.collected.flatMap Node.times := by
    rw [List.flatMap_def, List.flatMap_def]
    exact congrArg List.flatten (Node.map_eq_of_forall₂ hb fun _ _ _ he => Sight.times_of_blank he)
  rw [ht, Tree.refit]
  split
  · next hp =>
    rw [collected, hp] at hks
    simp only [timeline, hks]
  · next n path hp =>
    simp only [collected, hp] at hks
    rw [atScope, hp] at ha
    obtain ⟨l, js⟩ := n
    have ha : l.isBlock = true := ha
    have hhead : ((Node.mk l ks).setScope s).times = (Node.mk l js).times := by
      obtain ⟨kind, s', hf⟩ := Label.isBlock_iff.mp ha
      have hset : (Node.mk l ks).setScope s = .mk { l with form := .block kind s } ks := by
        simp [Node.setScope, hf]
      rw [hset, Node.times_block (by rfl), Node.times_block ha, hks, Node.kids_mk]
    simp only [timeline, hp, List.reverse_cons, List.flatMap_append, List.flatMap_singleton,
      Node.label_mk, hhead]

theorem Timed.flush (h : t.Timed) (hk : t.Kept) (ha : t.atScope = true) : t.flush.tree.Timed := by
  refine ⟨h.dated.flush hk ha, ?_, ?_⟩
  · rw [timeline_flush hk ha]
    exact h.order
  · rw [timeline_flush hk ha, clock_flush]
    exact h.bound

theorem Dated.closing (h : t.Dated) (hk : t.Kept) (hs : t.Staged) (hc : t.Closing tok u) :
    u.Dated ∧ u.timeline = t.timeline := by
  rcases hs.closing_cases hc with ⟨rfl, -⟩ | ⟨ha, rfl, -⟩
  · exact ⟨h, rfl⟩
  · exact ⟨h.flush hk ha, timeline_flush hk ha⟩

theorem dated_sprout (tok : Token) (serial : Nat) (site : Node.Site) (m : Option Marker) :
    (Node.sprout tok serial site m).Dated ∧
      (Node.sprout tok serial site m).times.Sublist [serial] := by
  refine ⟨Node.dated_mk (by simp) fun _ => Or.inl rfl, ?_⟩
  rw [Node.sprout, Node.times_mk, Node.sightStep]
  dsimp only
  cases (Form.ofToken tok).link serial site.block with
  | «variable» _ _ => exact .refl _
  | _ => exact List.nil_sublist _

/-- A token adds to the end of the timeline or takes from it. -/
theorem Dated.place (h : t.Dated) (hk : t.Kept) (hs : t.Staged) (hp : t.Placed tok u f) :
    u.Dated ∧ u.timeline.Sublist (t.timeline ++ [t.clock]) := by
  have hself : t.timeline.Sublist (t.timeline ++ [t.clock]) := List.sublist_append_left ..
  have hflush : t.atScope = true →
      t.flush.tree.Dated ∧ t.flush.tree.timeline.Sublist (t.timeline ++ [t.clock]) := by
    intro ha
    refine ⟨h.flush hk ha, ?_⟩
    rw [timeline_flush hk ha]
    exact hself
  have hleave : ∀ v, t.Closing tok v →
      v.leave.Kept ∧ v.leave.Dated ∧ v.leave.timeline.Sublist (t.timeline ++ [t.clock]) := by
    intro v hv
    obtain ⟨hkv, hb⟩ := hk.closing hs hv
    obtain ⟨hd, ht⟩ := h.closing hk hs hv
    refine ⟨hkv.leave (hs.closing hv) hb, hd.leave, ?_⟩
    rw [← ht, ← hv.clock]
    exact timeline_leave hd
  cases hp with
  | refused f _ => exact ⟨h, hself⟩
  | awaiting _ => exact ⟨⟨h.opened, h.fragments, h.kids⟩, hself⟩
  | leaf k _ _ =>
    obtain ⟨hd, ht⟩ := dated_sprout tok t.clock k none
    exact ⟨h.append hd, (timeline_append h.opened _).trans (ht.append_left _)⟩
  | entered k m _ _ =>
    refine ⟨⟨?_, h.fragments, ?_⟩, ?_⟩
    · intro n hn
      rcases List.mem_cons.mp hn with rfl | hn
      · rfl
      · exact h.opened n hn
    · intro n hn
      rcases List.mem_cons.mp hn with rfl | hn
      · simp [Node.sprout]
      · exact h.kids n hn
    · have ht := (dated_sprout tok t.clock k (some m)).2
      simp only [timeline, List.reverse_cons, List.flatMap_append, List.flatMap_singleton,
        ← List.append_assoc]
      exact ht.append_left _
  | flushed _ ha => exact hflush ha
  | blocked f n path hp hc _ => exact hflush (hs.atScope_of_closedBy hp hc)
  | left v hv _ => exact (hleave v hv).2
  | delivered v hv ha =>
    obtain ⟨hkv, hd, ht⟩ := hleave v hv
    refine ⟨hd.flush hkv ha, ?_⟩
    rw [timeline_flush hkv ha]
    exact ht

theorem Timed.concat (h : t.Timed) (hlt : ∀ x ∈ t.timeline, x < t.clock) :
    (t.timeline ++ [t.clock]).Pairwise (· < ·) := by
  refine List.pairwise_append.mpr ⟨h.order, by simp, ?_⟩
  intro x hx y hy
  cases List.mem_singleton.mp hy
  exact hlt x hx

theorem Timed.place (h : t.Timed) (hlt : ∀ x ∈ t.timeline, x < t.clock) (hk : t.Kept)
    (hs : t.Staged)
    (hp : t.Placed tok u f) : u.Timed := by
  obtain ⟨hd, ht⟩ := h.dated.place hk hs hp
  refine ⟨hd, (h.concat hlt).sublist ht, ?_⟩
  intro x hx
  rw [hp.clock]
  rcases List.mem_append.mp (ht.subset hx) with hx | hx
  · exact h.bound x hx
  · cases List.mem_singleton.mp hx
    exact Nat.le_refl _

end Tree

end TokenShell
