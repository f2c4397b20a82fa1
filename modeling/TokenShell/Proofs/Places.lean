import TokenShell.Proofs.Conservation
import TokenShell.Proofs.Staging
import TokenShell.Tree.Inspect

/-! Where nodes stand: every node has one place in the tree and a number of its own, and the
operators that are analyzed are in their final places. -/
namespace TokenShell

namespace Node

variable {n m k : Node} {l : Label} {ks above : List Node} {p : List Node × Node}

mutual

/-- The nodes of a tree, each with the nodes above it from the innermost on. -/
def places (above : List Node) : Node → List (List Node × Node)
  | mk l ks => (above, mk l ks) :: placesAll (mk l ks :: above) ks

def placesAll (above : List Node) : List Node → List (List Node × Node)
  | [] => []
  | n :: ns => n.places above ++ placesAll above ns

end

theorem placesAll_eq (above : List Node) (ks : List Node) :
    placesAll above ks = ks.flatMap (places above) := by
  induction ks with
  | nil => rfl
  | cons k ks ih => rw [placesAll, ih, List.flatMap_cons]

theorem places_mk (above : List Node) (l : Label) (ks : List Node) : (mk l ks).places above =
    (above, mk l ks) :: ks.flatMap (places (mk l ks :: above)) := by
  rw [places, placesAll_eq]

theorem mem_places_mk : p ∈ (mk l ks).places above ↔
    p = (above, mk l ks) ∨ ∃ k ∈ ks, p ∈ k.places (mk l ks :: above) := by
  rw [places_mk, List.mem_cons, List.mem_flatMap]

theorem places_label (above : List Node) (n : Node) :
    (n.places above).map (·.2.label) = n.labels := by
  induction n using induct generalizing above with
  | h l ks ih =>
    rw [places_mk, labels_mk, List.map_cons, List.map_flatMap, label_mk]
    exact congrArg _ (List.flatMap_congr fun k hk => ih k hk _)

/-- A node other than the uppermost one is a child of the first node above it, which has a place of
its own. -/
theorem parent_of_places (h : p ∈ n.places above) : p = (above, n) ∨
    ∃ q ∈ n.places above, p.1 = q.2 :: q.1 ∧ p.2 ∈ q.2.kids := by
  induction n using induct generalizing above with
  | h l ks ih =>
    rcases mem_places_mk.mp h with rfl | ⟨k, hk, hp⟩
    · exact Or.inl rfl
    · right
      rcases ih k hk hp with rfl | ⟨q, hq, he⟩
      · exact ⟨(above, mk l ks), mem_places_mk.mpr (Or.inl rfl), rfl, hk⟩
      · exact ⟨q, mem_places_mk.mpr (Or.inr ⟨k, hk, hq⟩), he⟩

theorem child_places (h : p ∈ n.places above) (hk : k ∈ p.2.kids) :
    (p.2 :: p.1, k) ∈ n.places above := by
  induction n using induct generalizing above with
  | h l ks ih =>
    rcases mem_places_mk.mp h with rfl | ⟨j, hj, hp⟩
    · obtain ⟨l', ks'⟩ := k
      exact mem_places_mk.mpr (Or.inr ⟨_, hk, mem_places_mk.mpr (Or.inl rfl)⟩)
    · exact mem_places_mk.mpr (Or.inr ⟨j, hj, ih j hj hp⟩)

end Node

namespace Node

variable {n m : Node}

theorem labels_mem {ks : List Node} (h : n ∈ ks) : n.labels.Sublist (ks.flatMap labels) := by
  simpa using (List.singleton_sublist.mpr h).flatMap labels

theorem labels_subtree (h : m ∈ n.subtrees) : m.labels.Sublist n.labels := by
  induction n using induct with
  | h l ks ih =>
    rcases mem_subtrees_mk.mp h with rfl | ⟨k, hk, h⟩
    · exact .refl _
    · rw [labels_mk]
      exact ((ih k hk h).trans (labels_mem hk)).cons _

theorem label_labels (ks : List Node) : (ks.map label).Sublist (ks.flatMap labels) := by
  induction ks with
  | nil => exact .slnil
  | cons k ks ih =>
    obtain ⟨l, js⟩ := k
    rw [List.map_cons, List.flatMap_cons, labels_mk]
    exact (ih.trans (List.sublist_append_right _ _)).cons_cons _

end Node

/-! What an evaluation leaves of the fragments. -/

theorem Progress.Pass.outlines {σ : Type} {d : Option (Dispatcher σ)} {m m' : Machine σ}
    {ns ns' : List Node} {vs : List Value} (h : Pass d m ns ns' vs m') :
    ns'.map Node.outline = ns.map Node.outline := by
  induction h with
  | nil => rfl
  | skip _ _ ih => rw [List.map_cons, List.map_cons, ih]
  | step _ _ _ hn _ ih => rw [List.map_cons, List.map_cons, ih, Node.outline_evaluate hn]

theorem Tree.evaluate_outlines {σ : Type} (t : Tree) (d : Option (Dispatcher σ)) (w : σ)
    (cancelled : Bool) (interrupts : List Bool) :
    ((t.evaluate d w cancelled interrupts).tree.fragments.map Node.outline).Sublist
      (t.fragments.map Node.outline) := by
  obtain ⟨ks, ks', rest, rest', vs, m', m'', stop, hns, hpass, hend, ho⟩ :=
    Progress.of_cases d interrupts ⟨[t.globals], w, cancelled, []⟩ t.fragments
  simp only [Tree.evaluate, ho]
  rw [hns, List.map_append, List.map_append, hpass.outlines]
  exact (List.Sublist.refl _).append (hend.sublist.map _)

namespace Tree

variable {t u : Tree} {tok : Token} {f : Option Failure} {n : Node} {path : List Node}

/-- The places of all nodes of a tree. -/
def places (t : Tree) : List (List Node × Node) := Node.placesAll [] t.roots

theorem mem_places {p : List Node × Node} : p ∈ t.places ↔ ∃ r ∈ t.roots, p ∈ r.places [] := by
  rw [places, Node.placesAll_eq, List.mem_flatMap]

/-! The numbers of all nodes. -/

/-- The numbers of the nodes of a tree. -/
def serials (t : Tree) : List Nat := (t.roots.flatMap Node.labels).map Label.serial

/-- They are those of the nodes that are no operators and those of the operators. -/
theorem serials_perm (t : Tree) : t.serials.Perm
    ((t.gather Label.other).map Prod.snd ++ t.lodgings.map (·.1.2)) := by
  have hothers : (t.gather Label.other).map Prod.snd =
      ((t.roots.flatMap Node.labels).filter (!·.isOperator)).map Label.serial := by
    rw [← Run.roots_gather, Run.flatMap_other, List.map_map]
    rfl
  have hhomes : (t.roots.flatMap (Node.homes none)).map (·.1.2) =
      ((t.roots.flatMap Node.labels).filter (·.isOperator)).map Label.serial := by
    rw [List.map_flatMap, List.filter_flatMap, List.map_flatMap]
    refine List.flatMap_congr fun n _ => ?_
    have hn := congrArg (List.map Prod.snd) (n.homes_fst none)
    rw [List.map_map, List.map_map] at hn
    exact hn
  have hops := (t.roots_homes.map (·.1.2)).symm
  rw [hhomes] at hops
  rw [hothers]
  refine .trans ?_ (hops.symm.append_left _)
  rw [← List.map_append, serials]
  refine List.Perm.map _ ?_
  have hp := List.filter_append_perm (·.isOperator) (t.roots.flatMap Node.labels)
  exact (hp.symm.trans List.perm_append_comm)

theorem places_serials (t : Tree) : t.places.map (·.2.label.serial) = t.serials := by
  rw [places, Node.placesAll_eq, serials, List.map_flatMap, List.map_flatMap]
  refine List.flatMap_congr fun n _ => ?_
  rw [← Node.places_label [] n, List.map_map]
  rfl

/-- No two nodes have the same number, none has that of the root, and none is ahead of time. -/
structure Unshared (t : Tree) : Prop where
  distinct : t.serials.Nodup
  positive : ∀ s ∈ t.serials, 0 < s
  bounded : ∀ s ∈ t.serials, s ≤ t.clock

/-- A token adds at most one node, and its number is the time. -/
theorem Placed.serials (h : t.Placed tok u f) :
    u.serials.Perm t.serials ∨ u.serials.Perm (t.serials ++ [t.clock]) := by
  obtain ⟨o, ho, hother⟩ : ∃ o, (o = [] ∨ o = (Label.ofToken tok t.clock).other) ∧
      u.gather Label.other = t.gather Label.other ++ o := by
    rcases h.gather Label.other_lasting with ⟨-, hg⟩ | ⟨-, hg⟩
    · exact ⟨[], Or.inl rfl, by rw [hg, List.append_nil]⟩
    · exact ⟨_, Or.inr rfl, hg⟩
  obtain ⟨q, hq, hhome⟩ : ∃ q, (q = [] ∨ q = (Label.ofToken tok t.clock).home t.anchor) ∧
      u.lodgings.Perm (t.lodgings ++ q) := by
    rcases h.lodgings with ⟨-, hl⟩ | ⟨-, hl⟩
    · exact ⟨[], Or.inl rfl, by rwa [List.append_nil]⟩
    · exact ⟨_, Or.inr rfl, hl⟩
  -- A node is an operator or not, so that at most one of the two lists grows.
  have hnew : o.map Prod.snd ++ q.map (·.1.2) = [] ∨
      o.map Prod.snd ++ q.map (·.1.2) = [t.clock] := by
    unfold Label.other at ho
    unfold Label.home at hq
    by_cases hop : (Label.ofToken tok t.clock).isOperator = true
    · rw [if_pos hop] at ho hq
      rcases ho with rfl | rfl <;> rcases hq with rfl | rfl <;> simp [Label.entry, Label.ofToken]
    · rw [if_neg hop] at ho hq
      rcases ho with rfl | rfl <;> rcases hq with rfl | rfl <;> simp [Label.entry, Label.ofToken]
  have hu : u.serials.Perm (t.serials ++ (o.map Prod.snd ++ q.map (·.1.2))) := by
    have hl := hhome.map (·.1.2)
    have hu := u.serials_perm
    rw [hother, List.map_append] at hu
    rw [List.map_append] at hl
    refine hu.trans ((hl.append_left _).trans ?_)
    refine .trans ?_ (t.serials_perm.symm.append_right _)
    simp only [List.append_assoc]
    refine List.Perm.append_left _ ?_
    exact List.perm_append_comm_assoc _ _ _
  rcases hnew with hn | hn
  · rw [hn, List.append_nil] at hu
    exact Or.inl hu
  · rw [hn] at hu
    exact Or.inr hu

theorem Unshared.sublist (h : t.Unshared) (hs : u.serials.Sublist t.serials)
    (hc : u.clock = t.clock) : u.Unshared :=
  ⟨h.distinct.sublist hs, fun s hm => h.positive s (hs.mem hm),
    fun s hm => hc ▸ h.bounded s (hs.mem hm)⟩

/-- The children of a node have different numbers. -/
theorem Unshared.kids (h : t.Unshared) {r n : Node} (hr : r ∈ t.roots) (hn : n ∈ r.subtrees) :
    (n.kids.map (·.label.serial)).Nodup := by
  have hsub : n.labels.Sublist r.labels := Node.labels_subtree hn
  have hkids : (n.kids.map Node.label).Sublist n.labels := by
    obtain ⟨l, ks⟩ := n
    rw [Node.labels_mk, Node.kids_mk]
    exact (Node.label_labels ks).cons _
  have hd := h.distinct.sublist (((hkids.trans hsub).trans (Node.labels_mem hr)).map Label.serial)
  rwa [List.map_map] at hd

theorem Unshared.place (h : t.Unshared) (tok : Token) :
    ({ t with clock := t.clock + 1 }.place tok).tree.Unshared := by
  have hp := placed_place { t with clock := t.clock + 1 } tok
  have hc := hp.clock
  rcases hp.serials with hs | hs
  · refine ⟨hs.nodup_iff.mpr h.distinct, fun s hm => h.positive s (hs.mem_iff.mp hm),
      fun s hm => ?_⟩
    have hb := h.bounded s (hs.mem_iff.mp hm)
    rw [hc]
    exact Nat.le_succ_of_le hb
  · constructor
    · rw [hs.nodup_iff, List.nodup_append]
      refine ⟨h.distinct, by simp, ?_⟩
      intro a ha b hb
      obtain rfl := List.mem_singleton.mp hb
      have hle := h.bounded a ha
      dsimp only
      omega
    · intro s hm
      rcases List.mem_append.mp (hs.mem_iff.mp hm) with hm | hm
      · exact h.positive s hm
      · obtain rfl := List.mem_singleton.mp hm
        exact Nat.succ_pos _
    · intro s hm
      rw [hc]
      rcases List.mem_append.mp (hs.mem_iff.mp hm) with hm | hm
      · exact Nat.le_succ_of_le (h.bounded s hm)
      · obtain rfl := List.mem_singleton.mp hm
        exact Nat.le_refl _

theorem Unshared.reset (h : t.Unshared) : t.reset.tree.Unshared := by
  refine h.sublist ?_ rfl
  have hr : t.reset.tree.roots = t.roots.filter (·.isReady) := by
    simp [Tree.reset, Tree.roots, openFragment]
  rw [serials, serials, hr]
  exact (List.filter_sublist.flatMap _).map _

theorem Unshared.insert (h : t.Unshared) (tok : Token) : (t.insert tok).tree.Unshared := by
  have hp := h.place tok
  rcases insert_tree t tok with ⟨-, ht, -⟩ | ⟨f, -, ht, -⟩
  · exact ht ▸ hp
  · exact ht ▸ hp.reset

theorem Unshared.evaluate {σ : Type} (h : t.Unshared) (d : Option (Dispatcher σ)) (w : σ)
    (cancelled : Bool) (interrupts : List Bool) :
    (t.evaluate d w cancelled interrupts).tree.Unshared := by
  have hout : ∀ n : Node, n.outline.labels.map Label.serial = n.labels.map Label.serial := by
    intro n
    induction n using Node.induct with
    | h l ks ih =>
      simp only [Node.outline_mk, Node.labels_mk, List.map_cons, List.map_flatMap, List.flatMap_map]
      exact congrArg _ (List.flatMap_congr ih)
  have hser : ∀ ns : List Node, (ns.flatMap Node.labels).map Label.serial =
      (ns.map Node.outline).flatMap fun n => n.labels.map Label.serial := by
    intro ns
    rw [List.map_flatMap, List.flatMap_map]
    exact List.flatMap_congr fun n _ => (hout n).symm
  refine h.sublist ?_ rfl
  have ho := t.evaluate_outlines d w cancelled interrupts
  simp only [serials, Tree.roots, List.flatMap_append, List.map_append]
  rw [hser, hser t.fragments]
  exact (ho.flatMap _).append (.refl _)

theorem Reachable.unshared (h : t.Reachable) : t.Unshared := by
  refine h.invariant ?_ ?_ ?_ ?_
  · constructor <;> simp [serials, Tree.roots, openFragment]
  · exact fun _ tok _ ht => ht.insert tok
  · exact fun _ _ ht => ht.reset
  · exact fun _ d w cancelled interrupts _ ht => ht.evaluate d w cancelled interrupts

end Tree

/-! The operators of a tree. -/

namespace Label

variable {l : Label} {ks : List Node}

/-- The numbers in its slots lead an operator to its children. -/
theorem operands_eq (h : l.slots = ks.map (·.label.serial))
    (hd : (ks.map (·.label.serial)).Nodup) : l.operands ks = ks := by
  have hfind : ∀ k ∈ ks, ks.find? (·.label.serial == k.label.serial) = some k := by
    intro k hk
    obtain ⟨j, hj⟩ : ∃ j, ks.find? (·.label.serial == k.label.serial) = some j :=
      Option.isSome_iff_exists.mp (List.find?_isSome.mpr ⟨k, hk, by simp⟩)
    have he : j.label.serial = k.label.serial := by simpa using List.find?_some hj
    rw [hj, List.inj_on_of_nodup_map hd (List.mem_of_find?_eq_some hj) hk he]
  rw [operands, h, List.filterMap_map]
  exact (List.filterMap_congr hfind).trans List.filterMap_some

end Label

namespace Node

variable {n : Node}

/-- An operator in final form: its slots name its children, as many as its arity asks for, and it
binds no tighter than the operators right below it. -/
structure InForm (n : Node) : Prop where
  resolved : n.label.arity ≠ .unresolved
  width : n.kids.length = n.label.arity.width
  slots : n.label.slots = n.kids.map (·.label.serial)
  left : n.left? = n.kids[0]?
  right : n.right? = n.kids[1]?
  grouping : n.label.isGrouping = true → n.label.arity = .unary
  known : n.label.arity ≠ .nullary → ∃ p, n.label.priority = .ok p
  graded : n.label.isGrouping = false → n.label.arity ≠ .nullary →
    ∀ i k, n.kids[i]? = some k → k.label.isOperator = true → k.label.arity ≠ .nullary →
      ∃ p q, n.label.priority = .ok p ∧ k.label.priority = .ok q ∧ p ≤ q ∧
        (k.label.arity = .binary → n.label.arity = .unary ∨ i = 1 → p < q)

theorem Settled.inForm (h : n.Settled) (ho : n.label.isOperator = true)
    (hd : (n.kids.map (·.label.serial)).Nodup) : n.InForm := by
  have hseat := h.seated ho
  have hkids := h.kids
  obtain ⟨l, ks⟩ := n
  obtain ⟨⟨⟨b, hord⟩, -⟩, -⟩ := settled_mk.mp h
  obtain ⟨hu, hlen⟩ := (Label.shaped_operator ho).mp hord.shaped
  obtain ⟨s, a, hf⟩ := hseat.bound
  rw [label_mk] at hf
  have hslots : l.slots = ks.map (·.label.serial) := by
    rw [Label.slots, hf, kids_mk, List.map_map]
    rfl
  have hops := Label.operands_eq hslots hd
  refine ⟨hu, by simpa using hlen, hslots, ?_, ?_, hseat.grouping, ?_, ?_⟩
  · rw [left?, label_mk, kids_mk, hops]
  · rw [right?, label_mk, kids_mk, hops]
  · intro hn
    exact ⟨l.rank, hseat.known hn⟩
  · intro hg hn i k hk hko hkn
    have hmem : k ∈ ks := List.mem_of_getElem? hk
    obtain ⟨hle, hlt⟩ :=
      hseat.precedes hg i k.label (by simp [show ks[i]? = some k from hk]) hko hkn
    refine ⟨l.rank, k.label.rank, hseat.known hn, ((hkids k hmem).seated hko).known hkn, hle, ?_⟩
    intro hbin hright
    exact hlt hright hbin

end Node

namespace Tree

/-- Whatever the calls and their failures were, every analyzed operator anywhere in the tree is in
final form. -/
theorem analyzed_operators_inForm {t : Tree} (h : t.Reachable) :
    ∀ r ∈ t.roots, ∀ n ∈ r.subtrees, n.label.isOperator = true → n.flags.analyzed = true →
      n.InForm := by
  intro r hr n hn ho ha
  exact ((h.staged.roots r hr).subtree hn ha).inForm ho (h.unshared.kids hr hn)

/-- The chain `1 * 2 + -3` inserted with all operators nested to the right inside an open block, and
then a token that does not belong there. -/
def sumInsideBlock : List Call :=
  [.insert ⟨"\x7b", []⟩, .insert ⟨"(", []⟩, .insert ⟨"STAR", []⟩, .insert ⟨"INT", "1"⟩,
    .insert ⟨"(", []⟩, .insert ⟨"PLUS", []⟩, .insert ⟨"INT", "2"⟩, .insert ⟨"(", []⟩,
    .insert ⟨"MINUS", []⟩, .insert ⟨"INT", "3"⟩, .insert ⟨")", []⟩, .insert ⟨")", []⟩,
    .insert ⟨")", []⟩, .evaluate false [], .insert ⟨"(", []⟩, .insert ⟨"STAR", []⟩]

theorem analyzed_operators_inForm_sumInsideBlock :
    (Run.of (none : Option (Dispatcher Unit)) () sumInsideBlock).tree.Reachable ∧
      ∃ r ∈ (Run.of (none : Option (Dispatcher Unit)) () sumInsideBlock).tree.roots,
        r.flags.analyzed = false ∧ ∃ n ∈ r.subtrees, n.name = "PLUS" ∧
          n.kids.map Node.name = ["STAR", "MINUS"] ∧ n.InForm := by
  have hreach : (Run.of (none : Option (Dispatcher Unit)) () sumInsideBlock).tree.Reachable :=
    ⟨Unit, none, (), _, rfl⟩
  have hsum : ∃ r ∈ (Run.of (none : Option (Dispatcher Unit)) () sumInsideBlock).tree.roots,
      r.flags.analyzed = false ∧ ∃ n ∈ r.subtrees, n.name = "PLUS" ∧
        n.kids.map Node.name = ["STAR", "MINUS"] ∧ n.label.isOperator = true ∧
          n.flags.analyzed = true := by
    decide +kernel
  obtain ⟨r, hr, hopen, n, hn, hname, hkids, ho, ha⟩ := hsum
  exact ⟨hreach, r, hr, hopen, n, hn, hname, hkids,
    analyzed_operators_inForm hreach r hr n hn ho ha⟩

end Tree

end TokenShell
