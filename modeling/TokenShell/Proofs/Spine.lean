import TokenShell.Proofs.Lifecycle
import TokenShell.Proofs.Matching
import TokenShell.Tree.Print

/-! The nodes from the root to the cursor. They are the last children of one another and the only
nodes that are open, their openers are the unmatched ones, and the printed tree marks the last. -/
namespace TokenShell

/-- Whether a node has an opener and is not closed. -/
def Label.isOpen (l : Label) : Bool := l.opener.isSome && l.closedAt.isNone

namespace Node

variable {n m k : Node} {l : Label} {ks js : List Node} {within : Option Nat} {os : Scopes}

theorem label_mem_labels (n : Node) : n.label ∈ n.labels := by
  obtain ⟨l, ks⟩ := n
  rw [labels_mk]
  exact List.mem_cons_self

/-- Nothing in the tree is open. -/
def AllClosed (n : Node) : Prop := ∀ l ∈ n.labels, l.isOpen = false

theorem allClosed_mk : (mk l ks).AllClosed ↔ l.isOpen = false ∧ ∀ k ∈ ks, k.AllClosed := by
  simp only [AllClosed, labels_mk, List.forall_mem_cons, List.mem_flatMap]
  refine and_congr_right fun _ => ⟨fun h k hk x hx => h x ⟨k, hk, hx⟩, ?_⟩
  rintro h x ⟨k, hk, hx⟩
  exact h k hk x hx

theorem allClosed_iff_gather :
    n.AllClosed ↔ n.gather (fun l => if l.isOpen then [()] else []) = [] := by
  rw [gather_eq_labels, List.flatMap_eq_nil_iff]
  refine forall₂_congr fun l _ => ?_
  cases l.isOpen <;> simp

theorem AllClosed.passed (hk : k.AllClosed) (h : Flushed.Passed within os k m) : m.AllClosed := by
  rcases h with rfl | ⟨s, t, hc⟩
  · exact hk
  · have hm : m.gather (fun l => if l.isOpen then [()] else []) =
        k.gather (fun l => if l.isOpen then [()] else []) :=
      fold_cascade (.count fun _ => rfl) (fun _ => rfl) hc
    rw [allClosed_iff_gather, hm]
    exact allClosed_iff_gather.mp hk

theorem allClosed_passed (h : List.Forall₂ (Flushed.Passed within os) ks js)
    (hk : ∀ k ∈ ks, k.AllClosed) : ∀ j ∈ js, j.AllClosed := by
  induction h with
  | nil => simp
  | cons hp _ ih =>
    obtain ⟨hfirst, hrest⟩ := List.forall_mem_cons.mp hk
    exact List.forall_mem_cons.mpr ⟨hfirst.passed hp, ih hrest⟩

theorem AllClosed.outline (hn : n.AllClosed) (h : m.outline = n.outline) : m.AllClosed := by
  have hlabels : m.labels.map Label.outline = n.labels.map Label.outline := by
    rw [← labels_of_outline, h, labels_of_outline]
  intro y hy
  obtain ⟨x, hx, he⟩ := List.mem_map.mp (hlabels ▸ List.mem_map_of_mem hy)
  have hopen : y.outline.isOpen = x.outline.isOpen := congrArg Label.isOpen he.symm
  exact hopen.trans (hn x hx)

/-- An open node with nothing open below it. -/
structure Ajar (n : Node) : Prop where
  label : n.label.isOpen = true
  kids : ∀ k ∈ n.kids, k.AllClosed

theorem Ajar.push (h : n.Ajar) (hk : k.AllClosed) : (n.push k).Ajar := by
  refine ⟨h.label, fun j hj => ?_⟩
  rcases List.mem_append.mp hj with hj | hj
  · exact h.kids j hj
  · obtain rfl := List.mem_singleton.mp hj
    exact hk

theorem Ajar.shut (h : n.Ajar) (time : Nat) : (n.shut time).AllClosed := by
  refine allClosed_mk.mpr ⟨?_, h.kids⟩
  simp [Label.isOpen]

theorem Ajar.setScope (h : n.Ajar) (hj : ∀ j ∈ js, j.AllClosed) (s : Scope) :
    ((Node.mk n.label js).setScope s).Ajar := by
  unfold Node.setScope
  split
  · exact ⟨h.label, hj⟩
  · exact ⟨h.label, hj⟩

theorem ajar_sprout (tok : Token) (serial : Nat) (site : Site) (m : Marker) :
    (sprout tok serial site (some m)).Ajar :=
  ⟨rfl, by simp [sprout]⟩

theorem allClosed_sprout (tok : Token) (serial : Nat) (site : Site) :
    (sprout tok serial site none).AllClosed :=
  allClosed_mk.mpr ⟨rfl, by simp⟩

end Node

namespace Tree

variable {t u : Tree} {tok : Token} {f : Option Failure} {n : Node}

/-- The nodes on the path are open, and no others. -/
structure OpenPath (t : Tree) : Prop where
  fragments : ∀ n ∈ t.fragments, n.AllClosed
  path : ∀ n ∈ t.path, n.Ajar

theorem OpenPath.append (h : t.OpenPath) (hn : n.AllClosed) : (t.append n).OpenPath := by
  exact ⟨forall_fragments_append h.fragments hn, forall_path_append h.path fun _ hm => hm.push hn⟩

theorem OpenPath.leave (h : t.OpenPath) : t.leave.OpenPath := by
  unfold Tree.leave
  split
  · exact h
  · next n path hp =>
    obtain ⟨hfirst, hrest⟩ := List.forall_mem_cons.mp (hp ▸ h.path)
    exact OpenPath.append ⟨h.fragments, hrest⟩ (hfirst.shut _)

theorem OpenPath.flush (h : t.OpenPath) : t.flush.tree.OpenPath := by
  rcases flush_cases t with ⟨-, js, new, he, hj⟩ | ⟨n, path, js, scope, hp, he, hj, -⟩
  · rw [he]
    exact ⟨Node.allClosed_passed hj h.fragments, h.path⟩
  · rw [he]
    obtain ⟨hfirst, hrest⟩ := List.forall_mem_cons.mp (hp ▸ h.path)
    refine ⟨h.fragments, List.forall_mem_cons.mpr ⟨?_, hrest⟩⟩
    exact hfirst.setScope (Node.allClosed_passed hj hfirst.kids) scope

theorem OpenPath.closing (h : t.OpenPath) (hc : t.Closing tok u) : u.OpenPath := by
  obtain ⟨-, -, -, -, -, -, -, ⟨-, rfl⟩ | ⟨-, rfl, -⟩⟩ := hc
  · exact h
  · exact h.flush

theorem OpenPath.place (h : t.OpenPath) (hp : t.Placed tok u f) : u.OpenPath := by
  cases hp with
  | refused f _ => exact h
  | awaiting _ => exact ⟨h.fragments, h.path⟩
  | leaf k _ _ => exact h.append (Node.allClosed_sprout tok t.clock k)
  | entered k m _ _ =>
    exact ⟨h.fragments, List.forall_mem_cons.mpr ⟨Node.ajar_sprout tok t.clock k m, h.path⟩⟩
  | flushed _ _ => exact h.flush
  | blocked f n path _ _ _ => exact h.flush
  | left v hv => exact (h.closing hv).leave
  | delivered v hv _ => exact (h.closing hv).leave.flush

/-- The open fragment is not ready, so that a reset discards it. -/
theorem OpenPath.reset (h : t.OpenPath) (hs : t.Staged) : t.reset.tree.OpenPath := by
  refine ⟨fun n hn => ?_, by simp [Tree.reset]⟩
  obtain ⟨hroot, hready⟩ := List.mem_filter.mp hn
  rcases mem_roots.mp hroot with hm | ⟨m, path, hp, rfl⟩
  · exact h.fragments n hm
  · have hb : ∀ k ∈ m :: path, k.Budding := hp ▸ hs.path
    rw [(Node.budding_foldl hb).upper.not_ready] at hready
    cases hready

theorem OpenPath.insert (h : t.OpenPath) (hs : t.Staged) (tok : Token) :
    (t.insert tok).tree.OpenPath := by
  have hp := OpenPath.place (t := { t with clock := t.clock + 1 }) ⟨h.fragments, h.path⟩
    (placed_place _ tok)
  have hst := Staged.place (t := { t with clock := t.clock + 1 }) ⟨hs.fragments, hs.path⟩ tok
  rcases insert_tree t tok with ⟨-, ht, -⟩ | ⟨f, -, ht, -⟩
  · exact ht ▸ hp
  · exact ht ▸ hp.reset hst.tree

theorem OpenPath.evaluate {σ : Type} (h : t.OpenPath) (d : Option (Dispatcher σ)) (w : σ)
    (cancelled : Bool) (interrupts : List Bool) :
    (t.evaluate d w cancelled interrupts).tree.OpenPath := by
  refine ⟨fun n hn => ?_, h.path⟩
  have hm := (t.evaluate_outlines d w cancelled interrupts).mem (List.mem_map_of_mem hn)
  obtain ⟨k, hk, he⟩ := List.mem_map.mp hm
  exact (h.fragments k hk).outline he.symm

theorem Reachable.openPath (h : t.Reachable) : t.OpenPath := by
  refine h.invariant ⟨by simp, by simp⟩ ?_ ?_ ?_
  · exact fun _ tok hr ht => ht.insert hr.staged tok
  · exact fun _ hr ht => ht.reset hr.staged
  · exact fun _ d w cancelled interrupts _ ht => ht.evaluate d w cancelled interrupts

/-- The open nodes of a tree are those on the path. -/
theorem OpenPath.filter_labels (h : t.OpenPath) :
    t.labels.filter Label.isOpen = t.path.reverse.map Node.label := by
  have hclosed : ∀ ns : List Node, (∀ n ∈ ns, n.AllClosed) →
      (ns.flatMap Node.labels).filter Label.isOpen = [] := by
    intro ns hns
    rw [List.filter_eq_nil_iff]
    intro l hl
    obtain ⟨n, hn, hl⟩ := List.mem_flatMap.mp hl
    rw [hns n hn l hl]
    exact Bool.false_ne_true
  have hpath : ∀ ns : List Node, (∀ n ∈ ns, n.Ajar) →
      (ns.flatMap Node.labels).filter Label.isOpen = ns.map Node.label := by
    intro ns hns
    induction ns with
    | nil => rfl
    | cons n ns ih =>
      obtain ⟨⟨hlabel, hkids⟩, hrest⟩ := List.forall_mem_cons.mp hns
      obtain ⟨l, ks⟩ := n
      have hlabel : l.isOpen = true := hlabel
      rw [List.flatMap_cons, Node.labels_mk, List.cons_append, List.filter_cons_of_pos hlabel,
        List.filter_append, hclosed ks hkids, ih hrest]
      rfl
  rw [labels_eq, List.filter_append, hclosed _ h.fragments, List.nil_append]
  exact hpath _ fun n hn => h.path n (List.mem_reverse.mp hn)

end Tree

/-! From the root to the cursor. -/

namespace Node

/-- The open nodes, the outermost first, put under one another. -/
def nest : List Node → List Node
  | [] => []
  | n :: ns => [mk n.label (n.kids ++ nest ns)]

/-- Steps to the last child, from the last of some siblings on. -/
def descend : Nat → List Node → List Node
  | 0, _ => []
  | steps + 1, ns =>
    match ns.getLast? with
    | none => []
    | some n => n :: descend steps n.kids

/-- Where the open nodes are, stepping to the last child leads along them. -/
theorem descend_nest (ns before : List Node) :
    (descend ns.length (before ++ nest ns)).map label = ns.map label := by
  induction ns generalizing before with
  | nil => rfl
  | cons n ns ih =>
    rw [nest, List.length_cons, descend, List.getLast?_concat, List.map_cons, List.map_cons]
    exact congrArg (n.label :: ·) (ih n.kids)

end Node

theorem Tree.openFragment_eq_nest (path : List Node) :
    (openFragment path).toList = Node.nest path.reverse := by
  cases path with
  | nil => rfl
  | cons n path =>
    have hfold : ∀ (ps : List Node) (n : Node),
        Node.nest (ps ++ [n]) = [ps.foldr (fun p n => p.push n) n] := by
      intro ps n
      induction ps with
      | nil =>
        obtain ⟨l, ks⟩ := n
        simp [Node.nest]
      | cons p ps ih => rw [List.cons_append, Node.nest, ih, List.foldr_cons, Node.push]
    rw [openFragment, List.reverse_cons, hfold, List.foldr_reverse]
    rfl

/-! The printed tree. -/

namespace Node

variable {n : Node} {ns : List Node} {mark : Label → Bytes} {cursor : Bytes}

/-- The line of a node at its place, with a mark that may depend on the node. -/
def row (mark : Label → Bytes) (p : List Node × Node) : Bytes :=
  p.2.label.line (p.1.length + 1) (mark p.2.label)

theorem printAll_eq (depth : Nat) (ns : List Node) :
    printAll depth ns = ns.flatMap (print depth) := by
  induction ns with
  | nil => rfl
  | cons n ns ih => rw [printAll, ih, List.flatMap_cons]

/-- A tree without a mark. -/
theorem print_eq (h : ∀ l ∈ n.labels, mark l = []) (above : List Node) :
    n.print (above.length + 1) = (n.places above).flatMap (row mark) := by
  induction n using induct generalizing above with
  | h l ks ih =>
    rw [labels_mk] at h
    obtain ⟨hl, hks⟩ := List.forall_mem_cons.mp h
    have hrow : row mark (above, mk l ks) = l.line (above.length + 1) [] := by rw [← hl]; rfl
    rw [print, printAll_eq, places_mk, List.flatMap_cons, hrow, List.flatMap_assoc]
    refine congrArg _ (List.flatMap_congr fun k hk => ?_)
    exact ih k hk (fun x hx => hks x (List.mem_flatMap.mpr ⟨k, hk, hx⟩)) (mk l ks :: above)

theorem printAll_eq_rows (h : ∀ n ∈ ns, ∀ l ∈ n.labels, mark l = []) (above : List Node) :
    printAll (above.length + 1) ns = (ns.flatMap (places above)).flatMap (row mark) := by
  rw [printAll_eq, List.flatMap_assoc]
  exact List.flatMap_congr fun n hn => print_eq (h n hn) above

/-- The open nodes with a mark at the last of them. -/
theorem printPath_eq (hkids : ∀ n ∈ ns, ∀ k ∈ n.kids, ∀ l ∈ k.labels, mark l = [])
    (houter : ∀ n ∈ ns.dropLast, mark n.label = [])
    (hlast : ∀ n ∈ ns.getLast?, mark n.label = cursor) (above : List Node) :
    Tree.printPath cursor (above.length + 1) ns =
      ((nest ns).flatMap (places above)).flatMap (row mark) := by
  induction ns generalizing above with
  | nil => rfl
  | cons n ns ih =>
    obtain ⟨hn, hns⟩ := List.forall_mem_cons.mp hkids
    have hmark : mark n.label = if ns.isEmpty then cursor else [] := by
      cases ns with
      | nil => exact hlast n rfl
      | cons m ns => exact houter n (by simp)
    have hrest : Tree.printPath cursor (above.length + 1 + 1) ns =
        ((nest ns).flatMap (places (mk n.label (n.kids ++ nest ns) :: above))).flatMap
          (row mark) := by
      refine ih hns (fun m hm => houter m ?_) (fun m hm => hlast m ?_)
        (mk n.label (n.kids ++ nest ns) :: above)
      · cases ns with
        | nil => cases hm
        | cons k ns => exact List.mem_cons_of_mem _ hm
      · cases ns with
        | nil => cases hm
        | cons k ns => simpa using hm
    have hinner : printAll (above.length + 1 + 1) n.kids =
        (n.kids.flatMap (places (mk n.label (n.kids ++ nest ns) :: above))).flatMap (row mark) :=
      printAll_eq_rows hn (mk n.label (n.kids ++ nest ns) :: above)
    rw [Tree.printPath, hrest, hinner, nest, List.flatMap_singleton, places_mk, List.flatMap_cons,
      List.flatMap_append, List.flatMap_append, List.append_assoc, row, ← hmark]
    rfl

end Node

namespace Tree

variable {t : Tree} {n : Node}

/-- The number of the node at the cursor; none at the root. -/
def cursorSerial (t : Tree) : Option Nat := t.path.head?.map (·.label.serial)

/-- The mark behind a node, or behind the root. -/
def markAt (t : Tree) (serial : Option Nat) : Bytes :=
  if serial = t.cursorSerial then t.mark else []

theorem places_eq (t : Tree) : t.places = t.fragments.flatMap (Node.places []) ++
    (Node.nest t.path.reverse).flatMap (Node.places []) := by
  rw [places, Node.placesAll_eq, roots, openFragment_eq_nest, List.flatMap_append]

theorem mark_ne_nil (t : Tree) : t.mark ≠ [] := by
  unfold mark
  split <;> decide

/-- The nodes other than that at the cursor have no mark. -/
theorem markAt_elsewhere (h : t.serials.Nodup) {path : List Node} {l : Label}
    (hp : t.path = n :: path)
    (hl : l ∈ t.fragments.flatMap Node.labels ++ path.reverse.flatMap Node.labels ++
      n.kids.flatMap Node.labels) : t.markAt (some l.serial) = [] := by
  have hlabels : t.labels = t.fragments.flatMap Node.labels ++ path.reverse.flatMap Node.labels ++
      n.label :: n.kids.flatMap Node.labels := by
    obtain ⟨l, ks⟩ := n
    rw [labels_eq, hp, List.reverse_cons, List.flatMap_append, List.flatMap_singleton,
      Node.labels_mk, List.append_assoc]
    rfl
  have hnodup : (t.labels.map Label.serial).Nodup := h
  rw [hlabels, List.map_append, List.map_cons, List.nodup_middle, ← List.map_append] at hnodup
  have hne : l.serial ≠ n.label.serial := by
    intro he
    exact (List.nodup_cons.mp hnodup).1 (he ▸ List.mem_map_of_mem hl)
  rw [markAt, cursorSerial, hp, if_neg]
  simpa using hne

/-- The printed tree has a line for every node, and the node at the cursor is marked. -/
theorem print_eq (h : t.serials.Nodup) : t.print =
    rootToken.text ++ t.markAt none ++ [Bytes.newline] ++
      t.places.flatMap (Node.row fun l => t.markAt (some l.serial)) := by
  have hroot : t.markAt none = if t.path.isEmpty then t.mark else [] := by
    rw [markAt, cursorSerial]
    cases t.path <;> simp
  have hfragments : ∀ n ∈ t.fragments, ∀ l ∈ n.labels, t.markAt (some l.serial) = [] := by
    intro n hn l hl
    cases hp : t.path with
    | nil => simp [markAt, cursorSerial, hp]
    | cons m path =>
      refine markAt_elsewhere h hp ?_
      simp only [List.mem_append, List.mem_flatMap]
      exact .inl (.inl ⟨n, hn, hl⟩)
  have hpath : printPath t.mark 1 t.path.reverse =
      ((Node.nest t.path.reverse).flatMap (Node.places [])).flatMap
        (Node.row fun l => t.markAt (some l.serial)) := by
    cases hp : t.path with
    | nil => rfl
    | cons m path =>
      have hother : ∀ n ∈ path.reverse, ∀ l ∈ n.labels, t.markAt (some l.serial) = [] := by
        intro n hn l hl
        refine markAt_elsewhere h hp ?_
        simp only [List.mem_append, List.mem_flatMap]
        exact .inl (.inr ⟨n, hn, hl⟩)
      rw [List.reverse_cons]
      refine Node.printPath_eq ?_ ?_ ?_ []
      · intro n hn k hk l hl
        rcases List.mem_append.mp hn with hn | hn
        · refine hother n hn l ?_
          obtain ⟨x, ks⟩ := n
          rw [Node.labels_mk]
          exact List.mem_cons_of_mem _ (List.mem_flatMap.mpr ⟨k, hk, hl⟩)
        · obtain rfl := List.mem_singleton.mp hn
          refine markAt_elsewhere h hp ?_
          exact List.mem_append_right _ (List.mem_flatMap.mpr ⟨k, hk, hl⟩)
      · intro n hn
        rw [List.dropLast_concat] at hn
        exact hother n hn n.label n.label_mem_labels
      · intro n hn
        obtain rfl : m = n := by simpa using hn
        rw [markAt, cursorSerial, hp]
        exact if_pos rfl
  rw [print, hroot, places_eq, List.flatMap_append, ← hpath, ← Node.printAll_eq_rows hfragments []]
  simp only [List.append_assoc]
  rfl

/-- Just one node is at the cursor, the root included. -/
theorem count_cursor (h : t.serials.Nodup) :
    (none :: t.places.map fun p => some p.2.label.serial).count t.cursorSerial = 1 := by
  have hplaces : (t.places.map fun p => some p.2.label.serial) = t.serials.map some := by
    rw [← places_serials, List.map_map]
    rfl
  rw [hplaces, cursorSerial]
  cases hp : t.path with
  | nil => simp [List.count_eq_zero]
  | cons n path =>
    have hlabel : n.label ∈ t.labels := by
      rw [labels_eq, hp]
      simp [n.label_mem_labels]
    rw [List.head?_cons, Option.map_some, List.count_cons_of_ne (by simp)]
    refine List.count_eq_one_of_mem (h.map fun _ _ => Option.some.inj) ?_
    exact List.mem_map_of_mem (List.mem_map_of_mem hlabel)

end Tree

namespace Run

variable {σ : Type} {d : Option (Dispatcher σ)} {w : σ} {cs : List Call}

/-- As long as nothing fails, the tokens of a run leave unmatched what is open in the tree,
whatever is evaluated in between. -/
theorem unmatched_of {toks : List Token} (h : cs.filter Call.edits = toks.map .insert)
    (hr : ∀ p ∈ (of d w cs).reports, p.2 = none) :
    unmatched toks = some (of d w cs).tree.openers := by
  induction cs using List.reverseRecOn generalizing toks with
  | nil =>
    obtain rfl : toks = [] := List.map_eq_nil_iff.mp h.symm
    rfl
  | append_singleton cs c ih =>
    rw [of_concat] at hr ⊢
    rw [List.filter_append] at h
    have hlast : ∀ {c : Call}, cs.filter Call.edits ++ [c] = toks.map .insert →
        ∃ pre tok, toks = pre ++ [tok] ∧ c = .insert tok ∧
          cs.filter Call.edits = pre.map .insert := by
      intro c hc
      rcases List.eq_nil_or_concat toks with rfl | ⟨pre, tok, rfl⟩
      · simp at hc
      · rw [List.concat_eq_append, List.map_append] at hc
        obtain ⟨hpre, htok⟩ := List.append_inj' hc rfl
        exact ⟨pre, tok, List.concat_eq_append, (List.cons.inj htok).1, hpre⟩
    cases c with
    | insert tok =>
      obtain ⟨pre, _, rfl, ⟨rfl⟩, hpre⟩ := hlast h
      have hold := ih hpre fun p hp => hr p (List.mem_append_left _ hp)
      have hinsert := hr _ (List.mem_append_right _ (List.mem_singleton_self _))
      exact Tree.unmatched_insert hold (reachable d w cs).staged hinsert
    | reset =>
      obtain ⟨pre, tok, -, hc, -⟩ := hlast h
      cases hc
    | evaluate cancelled interrupts =>
      rw [step, Tree.openers_evaluate]
      exact ih ((List.append_nil _).symm.trans h) hr

/-- The number of openers is the sum of the depths. -/
theorem length_of_lines {lines : List Bytes} {toks : List (List Token)} {opens : List Marker}
    (h : List.Forall₂ (fun line ts => Line.tokenize line = .ok ts) lines toks)
    (ho : unmatched toks.flatten = some opens) :
    (opens.length : Int) = (lines.map Line.depth).sum := by
  rw [length_unmatched ho]
  clear ho
  induction h with
  | nil => rfl
  | cons hline _ ih =>
    rw [List.flatten_cons, List.map_append, List.sum_append, ih, List.map_cons, List.sum_cons,
      Line.depth_tokenize hline]

/-- Last children and the links back lead from the root to the cursor over the open nodes, whose
openers are what the lines leave unmatched as long as nothing fails. -/
theorem cursor_follows_nesting (d : Option (Dispatcher σ)) (w : σ) (cs : List Call) :
    let r := of d w cs
    let t := r.tree
    let spine := Node.descend t.path.length t.roots
    (spine.map Node.label = t.path.reverse.map Node.label ∧
      t.cursor = (spine.getLast?.map (·.label.token)).getD Tree.rootToken ∧
      ∀ pre n post, spine = pre ++ n :: post →
        n.label.parent = some (Node.numberAbove pre.reverse)) ∧
    t.labels.filter Label.isOpen = spine.map Node.label ∧
    (∀ n ∈ spine, n.flags.complete = false) ∧
    (∀ lines toks, List.Forall₂ (fun line ts => Line.tokenize line = .ok ts) lines toks →
      cs.filter Call.edits = toks.flatten.map .insert → (∀ p ∈ r.reports, p.2 = none) →
      unmatched toks.flatten = some t.openers ∧
        (t.openers.length : Int) = (lines.map Line.depth).sum) ∧
    t.print = Tree.rootToken.text ++ t.markAt none ++ [Bytes.newline] ++
      t.places.flatMap (Node.row fun l => t.markAt (some l.serial)) ∧
    t.mark ≠ [] ∧
      (none :: t.places.map fun p => some p.2.label.serial).count t.cursorSerial = 1 := by
  intro r t spine
  have ht : t.Reachable := reachable d w cs
  have hspine : spine.map Node.label = t.path.reverse.map Node.label := by
    have hdescend := Node.descend_nest t.path.reverse t.fragments
    rwa [List.length_reverse, ← Tree.openFragment_eq_nest] at hdescend
  refine ⟨⟨hspine, ?_, ?_⟩, ?_, ?_, ?_, Tree.print_eq ht.unshared.distinct, t.mark_ne_nil,
    Tree.count_cursor ht.unshared.distinct⟩
  · have hcursor : spine.getLast?.map Node.label = t.path.head?.map Node.label := by
      rw [← List.getLast?_map, hspine, List.getLast?_map, List.getLast?_reverse]
    have htoken : (spine.getLast?.map (·.label.token)) = t.path.head?.map (·.label.token) := by
      simpa [Option.map_map, Function.comp_def] using congrArg (Option.map Label.token) hcursor
    rw [htoken, Tree.cursor]
    cases t.path <;> rfl
  · exact fun pre n post he => ht.moored.path.parent_of_labels (he ▸ hspine)
  · rw [hspine]
    exact ht.openPath.filter_labels
  · intro n hn
    have hlabel : n.label ∈ t.path.reverse.map Node.label := hspine ▸ List.mem_map_of_mem hn
    obtain ⟨m, hm, he⟩ := List.mem_map.mp hlabel
    have hflags : m.flags = { setup := true } :=
      (ht.staged.path m (List.mem_reverse.mp hm)).upper.flags
    have hsame : n.flags = m.flags := congrArg Label.flags he.symm
    rw [hsame, hflags]
  · intro lines toks hlines hcalls hreports
    have hopen := unmatched_of hcalls hreports
    exact ⟨hopen, length_of_lines hlines hopen⟩

/-- A command that fails to be evaluated, and a second one up to a parenthesis in a block. Between
quotes nothing opens or closes. -/
def openLines : List (Bytes × List Token) :=
  [("[ FRAG:')' ] ;", [⟨"[", []⟩, ⟨"FRAG", ")"⟩, ⟨"]", []⟩, ⟨";", []⟩]),
    ("[FRAG:'\\'(' \x7b(", [⟨"[", []⟩, ⟨"FRAG", "'("⟩, ⟨"\x7b", []⟩, ⟨"(", []⟩])]

def openCalls : List Call :=
  openLines.flatMap fun p => p.2.map .insert ++ [.evaluate false []]

theorem cursor_follows_nesting_openLines :
    let r := of (none : Option (Dispatcher Unit)) () openCalls
    let t := r.tree
    List.Forall₂ (fun line ts => Line.tokenize line = .ok ts) (openLines.map Prod.fst)
        (openLines.map Prod.snd) ∧
      openCalls.filter Call.edits = (openLines.map Prod.snd).flatten.map .insert ∧
      (∀ p ∈ r.reports, p.2 = none) ∧
      t.openers = [.openCommand, .openBlock, .openGroup] ∧ t.cursorSerial = some 7 ∧
      unmatched (openLines.map Prod.snd).flatten = some t.openers ∧
      (t.openers.length : Int) = ((openLines.map Prod.fst).map Line.depth).sum := by
  have hlines : List.Forall₂ (fun line ts => Line.tokenize line = .ok ts) (openLines.map Prod.fst)
      (openLines.map Prod.snd) :=
    .cons (by decide +kernel) (.cons (by decide +kernel) .nil)
  have hcalls : openCalls.filter Call.edits = (openLines.map Prod.snd).flatten.map .insert := rfl
  have hshown : (∀ p ∈ (of (none : Option (Dispatcher Unit)) () openCalls).reports, p.2 = none) ∧
      (of (none : Option (Dispatcher Unit)) () openCalls).tree.openers =
        [.openCommand, .openBlock, .openGroup] ∧
      (of (none : Option (Dispatcher Unit)) () openCalls).tree.cursorSerial = some 7 := by
    decide +kernel
  obtain ⟨-, -, -, hopen, -⟩ :=
    cursor_follows_nesting (none : Option (Dispatcher Unit)) () openCalls
  exact ⟨hlines, hcalls, hshown.1, hshown.2.1, hshown.2.2, hopen _ _ hlines hcalls hshown.1⟩

end Run

end TokenShell
