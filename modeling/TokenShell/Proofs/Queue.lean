import TokenShell.Proofs.Lifecycle

/-! The fragments of a tree are a queue: first those that are evaluated, then those that are ready,
then those that wait to be analyzed. -/
namespace TokenShell

namespace Node

variable {n k : Node} {ks : List Node}

/-- A node of its own, without children or brackets, that waits to be analyzed. -/
structure Stray (n : Node) : Prop where
  unanalyzed : n.flags.analyzed = false
  kids : n.kids = []
  opener : n.label.opener = none

theorem stray_sprout (tok : Token) (serial : Nat) (site : Site) :
    (sprout tok serial site none).Stray :=
  ⟨rfl, rfl, rfl⟩

/-- The children of a block: the analyzed ones come first, and the others are strays. -/
def Sorted (n : Node) : Prop :=
  ∃ rs ps, n.kids = rs ++ ps ∧ (∀ k ∈ rs, k.flags.analyzed = true) ∧ ∀ k ∈ ps, k.Stray

theorem Sorted.push (h : n.Sorted) (hk : k.Stray) : (n.push k).Sorted := by
  obtain ⟨rs, ps, hks, hr, hp⟩ := h
  refine ⟨rs, ps ++ [k], ?_, hr, ?_⟩
  · show n.kids ++ [k] = _
    rw [hks, List.append_assoc]
  · intro j hj
    rcases List.mem_append.mp hj with hj | hj
    · exact hp j hj
    · obtain rfl := List.mem_singleton.mp hj
      exact hk

theorem sorted_of_analyzed (h : ∀ k ∈ n.kids, k.flags.analyzed = true) : n.Sorted :=
  ⟨n.kids, [], by simp, h, by simp⟩

theorem kids_setScope (n : Node) (s : Scope) : (n.setScope s).kids = n.kids := by
  unfold setScope
  split <;> rfl

end Node

/-- A flush that does not fail leaves nothing to be analyzed. -/
theorem Flushed.analyzed (within : Option Nat) {ns : List Node} {ss : Scopes} {depth : Nat}
    (h : ∀ n ∈ ns, n.Staged) (hs : ss.length = depth + 1)
    (hf : (of within ss ns).failure = none) :
    ∀ k ∈ (of within ss ns).kids, k.flags.analyzed = true := by
  induction ns generalizing ss with
  | nil => simp [of]
  | cons n ns ih =>
    obtain ⟨hn, hns⟩ := List.forall_mem_cons.mp h
    by_cases ha : n.flags.analyzed = true
    · rw [of, if_pos ha] at hf ⊢
      exact List.forall_mem_cons.mpr ⟨ha, ih hns hs hf⟩
    · obtain ⟨hlen, hm⟩ := (hn.upper_of_not_analyzed ha).cascade within depth ss hs
      rw [of, if_neg ha] at hf ⊢
      rcases hr : n.cascade within ss with ⟨f | q, us⟩
      · rw [hr] at hf
        cases hf
      · rw [hr] at hf hlen hm
        exact List.forall_mem_cons.mpr ⟨hm.analyzed, ih hns hlen hf⟩

namespace Tree

variable {t u v : Tree} {tok : Token} {f : Option Failure} {n : Node} {rs path : List Node}
  {g : Scope}

/-! Strays. -/

/-- What waits to be analyzed, at the root or in an open block, is a stray. -/
structure Swept (t : Tree) : Prop where
  fragments : ∀ n ∈ t.fragments, n.flags.analyzed = false → n.Stray
  blocks : ∀ n ∈ t.path, n.isBlock = true → n.Sorted

/-- A flush that does not fail sweeps the place where it is made. -/
theorem swept_flush (hs : t.Staged) (hf : t.flush.failure = none)
    (hroot : t.path ≠ [] → ∀ n ∈ t.fragments, n.flags.analyzed = false → n.Stray)
    (hpath : ∀ n ∈ t.path.tail, n.isBlock = true → n.Sorted) : t.flush.tree.Swept := by
  have hlen : t.scopes.length = (t.path.filterMap Node.scope?).length + 1 := by simp [scopes]
  cases hp : t.path with
  | nil =>
    simp only [flush, hp] at hf ⊢
    refine ⟨?_, by simp⟩
    intro n hn ha
    rw [Flushed.analyzed _ hs.fragments hlen hf n hn] at ha
    cases ha
  | cons p path =>
    have hkids := (hs.path p (by simp [hp])).staged_kids
    simp only [flush, hp] at hf ⊢
    refine ⟨hroot (by simp [hp]), ?_⟩
    intro n hn hb
    rcases List.mem_cons.mp hn with rfl | hn
    · refine Node.sorted_of_analyzed ?_
      rw [Node.kids_setScope]
      exact Flushed.analyzed _ hkids hlen hf
    · exact hpath n (by simp [hp, hn]) hb

theorem Swept.append (h : t.Swept) (hn : n.Stray) : (t.append n).Swept :=
  ⟨forall_fragments_append h.fragments fun _ => hn,
    forall_path_append h.blocks fun _ hm hb => (hm hb).push hn⟩

/-- Leaving the cursor keeps all swept but the place where the closed node is put. -/
theorem Swept.leave (h : t.Swept) (hp : t.path = n :: path) :
    (t.leave.path ≠ [] → ∀ n ∈ t.leave.fragments, n.flags.analyzed = false → n.Stray) ∧
      ∀ n ∈ t.leave.path.tail, n.isBlock = true → n.Sorted := by
  rw [leave_cons hp]
  cases hpath : path with
  | nil => exact ⟨fun hne => (hne rfl).elim, by simp [Tree.append]⟩
  | cons p rest =>
    refine ⟨fun _ => h.fragments, ?_⟩
    intro m hm hb
    have hm : m ∈ rest := hm
    exact h.blocks m (by simp [hp, hpath, hm]) hb

theorem Swept.closing (h : t.Swept) (hs : t.Staged) (hc : t.Closing tok u) : u.Swept := by
  rcases hs.closing_cases hc with ⟨rfl, -⟩ | ⟨-, rfl, hf⟩
  · exact h
  · exact swept_flush hs hf (fun _ => h.fragments) fun n hn => h.blocks n (List.mem_of_mem_tail hn)

/-- A token that is placed without failure leaves the tree swept. -/
theorem Swept.place (h : t.Swept) (hs : t.Staged) (hp : t.Placed tok u f) (hf : f = none) :
    u.Swept := by
  cases hp with
  | refused f _ => cases hf
  | blocked f n path _ _ _ => cases hf
  | awaiting _ => exact ⟨h.fragments, h.blocks⟩
  | leaf k _ _ => exact h.append (Node.stray_sprout tok t.clock k)
  | entered k m _ _ =>
    refine ⟨h.fragments, ?_⟩
    intro n hn hb
    rcases List.mem_cons.mp hn with rfl | hn
    · exact Node.sorted_of_analyzed (by simp [Node.sprout])
    · exact h.blocks n hn hb
  | flushed _ _ =>
    exact swept_flush hs hf (fun _ => h.fragments) fun n hn => h.blocks n (List.mem_of_mem_tail hn)
  | left v hv hscope =>
    -- The closed node is put under a node that is neither the root nor a block.
    have hswept := h.closing hs hv
    obtain ⟨n, path, -, -, hp, -⟩ := hv
    obtain ⟨hroot, htail⟩ := hswept.leave hp
    cases hl : v.leave.path with
    | nil => simp [Tree.atScope, hl] at hscope
    | cons p rest =>
      refine ⟨hroot (by simp [hl]), ?_⟩
      rw [hl] at htail ⊢
      intro m hm hb
      rcases List.mem_cons.mp hm with rfl | hm
      · simp [Tree.atScope, hl, hb] at hscope
      · exact htail m hm hb
  | delivered v hv _ =>
    have hswept := h.closing hs hv
    have hstaged := (hs.closing hv).leave
    obtain ⟨n, path, -, -, hp, -⟩ := hv
    obtain ⟨hroot, htail⟩ := hswept.leave hp
    exact swept_flush hstaged hf hroot htail

theorem swept_reset (h : ∀ n ∈ t.path, n.Opened) : t.reset.tree.Swept := by
  refine ⟨?_, by simp [Tree.reset]⟩
  intro n hn ha
  rw [reset_fragments h] at hn
  rw [Node.analyzed_of_ready (List.mem_filter.mp hn).2] at ha
  cases ha

theorem Swept.insert (h : t.Swept) (ht : t.Reachable) (tok : Token) :
    (t.insert tok).tree.Swept := by
  obtain ⟨hsound, -⟩ := ht.sound_fresh
  obtain ⟨hr, -, hg⟩ := hsound.grown
  have hplaced := placed_place { t with clock := t.clock + 1 } tok
  rcases insert_tree t tok with ⟨hf, ht', -⟩ | ⟨f, -, ht', -⟩
  · rw [ht']
    have htick : ({ t with clock := t.clock + 1 } : Tree).Swept := ⟨h.fragments, h.blocks⟩
    exact htick.place ⟨ht.staged.fragments, ht.staged.path⟩ hplaced hf
  · rw [ht']
    obtain ⟨extra, hgrown, -⟩ := hg.tick.place hr hplaced
    exact swept_reset hgrown.opened

/-! The queue. -/

/-- The fragments in order: evaluated ones, ready ones, and ones that are not analyzed. -/
structure Lined (es rs ps : List Node) : Prop where
  evaluated : ∀ n ∈ es, n.isReady = true ∧ n.flags.evaluated = true
  ready : ∀ n ∈ rs, n.isReady = true ∧ n.flags.evaluated = false
  raw : ∀ n ∈ ps, n.Raw

theorem Lined.all_ready {es ps : List Node} (h : Lined es rs ps) :
    ∀ n ∈ es ++ rs, n.isReady = true := by
  intro n hn
  rcases List.mem_append.mp hn with hn | hn
  · exact (h.evaluated n hn).1
  · exact (h.ready n hn).1

def InLine (t : Tree) : Prop := ∃ es rs ps, t.fragments = es ++ rs ++ ps ∧ Lined es rs ps

theorem InLine.append (h : t.InLine) (hn : n.Raw) : (t.append n).InLine := by
  obtain ⟨es, rs, ps, hf, hl⟩ := h
  unfold Tree.append
  split
  · refine ⟨es, rs, ps ++ [n], by simp [hf], hl.evaluated, hl.ready, ?_⟩
    intro m hm
    rcases List.mem_append.mp hm with hm | hm
    · exact hl.raw m hm
    · obtain rfl := List.mem_singleton.mp hm
      exact hn
  · exact ⟨es, rs, ps, hf, hl⟩

theorem InLine.leave (h : t.InLine) (ho : ∀ n ∈ t.path, n.Opened) : t.leave.InLine := by
  unfold Tree.leave
  split
  · exact h
  · next n path hp =>
    have hpath : ({ t with path } : Tree).InLine := h
    exact hpath.append (Node.raw_shut (ho n (by simp [hp])).raw _)

/-- A flush makes some of the waiting fragments ready, the first ones. -/
theorem InLine.flush (h : t.InLine) (hf : t.Fresh) : t.flush.tree.InLine := by
  obtain ⟨es, rs, ps, hfrag, hl⟩ := h
  cases hp : t.path with
  | nil =>
    obtain ⟨qs, rest, extra, ev, fl, he, hq, hraw, -, -, -, hfrom⟩ :=
      flush_exact hp hfrag hl.all_ready hl.raw
    rw [he]
    refine ⟨es, rs ++ qs, rest, by simp, hl.evaluated, ?_, hraw⟩
    intro n hn
    rcases List.mem_append.mp hn with hn | hn
    · exact hl.ready n hn
    · obtain ⟨m, hm, s, new, hc, -⟩ := hfrom n hn
      have hm' : m.Fresh := hf.fragments m (by simp [hfrag, hm]) (hl.raw m hm).flags.2
      exact ⟨hq n hn, (hm'.passed (Or.inr ⟨s, new, hc⟩)).flags⟩
  | cons p path =>
    obtain ⟨js, scope, ev, fl, he, -, -⟩ := flush_inner hp hp (.refl _)
    rw [he]
    exact ⟨es, rs, ps, hfrag, hl⟩

theorem InLine.closing (h : t.InLine) (hf : t.Fresh) (hc : t.Closing tok u) : u.InLine := by
  obtain ⟨-, -, -, -, -, -, -, ⟨-, rfl⟩ | ⟨-, rfl, -⟩⟩ := hc
  · exact h
  · exact h.flush hf

/-- Whether placing a token fails or not, the fragments stay in line. -/
theorem InLine.place (h : t.InLine) (hf : t.Fresh) (hg : t.Grown rs g [])
    (hr : ∀ r ∈ rs, r.isReady = true) (hp : t.Placed tok u f) : u.InLine := by
  cases hp with
  | refused f _ => exact h
  | awaiting _ => exact h
  | leaf k _ _ => exact h.append (Node.raw_sprout _ _ _ _)
  | entered k m _ _ => exact h
  | flushed _ _ => exact h.flush hf
  | blocked f n path _ _ _ => exact h.flush hf
  | left v hv _ => exact (h.closing hf hv).leave (hg.closing hr hv).opened
  | delivered v hv _ =>
    exact ((h.closing hf hv).leave (hg.closing hr hv).opened).flush (hv.fresh hf hg hr).2

theorem InLine.reset (h : t.InLine) (ho : ∀ n ∈ t.path, n.Opened) : t.reset.tree.InLine := by
  obtain ⟨es, rs, ps, hf, hl⟩ := h
  refine ⟨es, rs, [], ?_, hl.evaluated, hl.ready, by simp⟩
  rw [reset_fragments ho, hf, (filter_ready hl.all_ready hl.raw).1, List.append_nil]

theorem InLine.insert (h : t.InLine) (ht : t.Reachable) (tok : Token) :
    (t.insert tok).tree.InLine := by
  obtain ⟨hsound, hfresh⟩ := ht.sound_fresh
  obtain ⟨hr, -, hg⟩ := hsound.grown
  have hplaced := placed_place { t with clock := t.clock + 1 } tok
  have htick : ({ t with clock := t.clock + 1 } : Tree).InLine := h
  have hline := htick.place ⟨hfresh.fragments, hfresh.path⟩ hg.tick hr hplaced
  rcases insert_tree t tok with ⟨-, ht', -⟩ | ⟨f, -, ht', -⟩
  · rw [ht']
    exact hline
  · rw [ht']
    obtain ⟨extra, hgrown, -⟩ := hg.tick.place hr hplaced
    exact hline.reset hgrown.opened

/-- What is left of a queue when an evaluation stops: nothing; all that was not reached; or that
without the fragment that failed. -/
def Left (left left' : List Node) : Option Stop → Prop
  | none => left = [] ∧ left' = []
  | some .cancelled => left' = left
  | some (.failed _) => ∃ n, left = n :: left'

/-- A pass over a queue evaluates ready fragments from the front of it. -/
theorem Lined.passes {σ : Type} {es ps : List Node} (h : Lined es rs ps)
    (d : Option (Dispatcher σ)) (interrupts : List Bool) (m : Machine σ) :
    ∃ done done' left left' m' m'' stop, rs = done ++ left ∧
      Node.evaluateAll d done m = (.ok done', m') ∧ List.Forall₂ Node.Settles done done' ∧
      Progress.End d m' (left ++ ps) (left' ++ ps) m'' stop ∧
      Progress.of d interrupts m (es ++ rs ++ ps) =
        ⟨es ++ done' ++ left' ++ ps, m'', done'.map Node.result, stop⟩ ∧
      Lined (es ++ done') left' ps ∧ Left left left' stop := by
  have hpending : ∀ n ∈ rs ++ ps, n.flags.evaluated = false := fun n hn =>
    (List.mem_append.mp hn).elim (fun hn => (h.ready n hn).2) (fun hn => (h.raw n hn).flags.2)
  obtain ⟨zs, zs', rest, rest', m', m'', stop, hys, hready, hall, hz, hend, hof⟩ :=
    Progress.of_pending (d := d) interrupts m (fun n hn => (h.evaluated n hn).2) hpending
  have hsettles := Node.settles_evaluateFragments hz
  rw [← List.append_assoc] at hof
  obtain ⟨left, rfl, rfl⟩ := append_split hys h.raw fun k hk => Or.inr (hready k hk)
  have hdone : ∀ n ∈ es ++ zs', n.isReady = true ∧ n.flags.evaluated = true := fun n hn =>
    (List.mem_append.mp hn).elim (h.evaluated n)
      (Node.ready_settles hsettles hready n)
  have hleft : ∀ n ∈ left, n.isReady = true ∧ n.flags.evaluated = false := fun n hn =>
    h.ready n (by simp [hn])
  obtain ⟨left', rfl, hsub, hstop⟩ : ∃ left', rest' = left' ++ ps ∧ (∀ n ∈ left', n ∈ left) ∧
      Left left left' stop := by
    generalize hrest : left ++ ps = rest at hend
    cases hend with
    | finished _ hhead =>
      cases left with
      | nil => exact ⟨[], hrest.symm, by simp, rfl, rfl⟩
      | cons n left =>
        have hno := (hhead n (by simp [← hrest])).2
        rw [(hleft n (by simp)).1] at hno
        cases hno
    | interrupted ns _ _ => exact ⟨left, hrest.symm, fun _ hn => hn, rfl⟩
    | @failed n f m₁ ns _ hr _ _ =>
      cases left with
      | nil =>
        -- A fragment that fails was ready, so that the ready ones cannot have run out.
        have hraw : n.Raw := h.raw n (by simp [show ps = n :: rest' from hrest])
        rw [hraw.not_ready] at hr
        cases hr
      | cons k left =>
        obtain ⟨rfl, hns⟩ := List.cons.inj hrest
        exact ⟨left, hns.symm, fun j hj => by simp [hj], k, rfl⟩
  exact ⟨zs, zs', left, left', m', m'', stop, rfl, hall, hsettles, hend, by simpa using hof,
    ⟨hdone, fun n hn => hleft n (hsub n hn), h.raw⟩, hstop⟩

/-- An evaluation takes ready fragments off the front of the queue. -/
theorem Lined.evaluate {σ : Type} {es ps : List Node} (h : Lined es rs ps)
    (hf : t.fragments = es ++ rs ++ ps) (d : Option (Dispatcher σ)) (w : σ) (cancelled : Bool)
    (interrupts : List Bool) :
    ∃ done done' left left', rs = done ++ left ∧
      (t.evaluate d w cancelled interrupts).tree.fragments = es ++ done' ++ left' ++ ps ∧
      Lined (es ++ done') left' ps ∧
      (t.evaluate d w cancelled interrupts).values.length = done.length ∧
      Left left left' (t.evaluate d w cancelled interrupts).stop := by
  obtain ⟨done, done', left, left', m', m'', stop, hrs, -, hsettles, -, hof, hl, hleft⟩ :=
    h.passes d interrupts ⟨[t.globals], w, cancelled, []⟩
  rw [← hf] at hof
  refine ⟨done, done', left, left', hrs, ?_, hl, ?_, ?_⟩
  · simp [Tree.evaluate, hof]
  · simp [Tree.evaluate, hof, hsettles.length_eq]
  · simpa [Tree.evaluate, hof] using hleft

theorem InLine.evaluate {σ : Type} (h : t.InLine) (d : Option (Dispatcher σ)) (w : σ)
    (cancelled : Bool) (interrupts : List Bool) :
    (t.evaluate d w cancelled interrupts).tree.InLine := by
  obtain ⟨es, rs, ps, hf, hl⟩ := h
  obtain ⟨done, done', left, left', -, he, hl', -, -⟩ := hl.evaluate hf d w cancelled interrupts
  exact ⟨es ++ done', left', ps, he, hl'⟩

theorem Swept.evaluate {σ : Type} (h : t.Swept) (hq : t.InLine) (d : Option (Dispatcher σ)) (w : σ)
    (cancelled : Bool) (interrupts : List Bool) :
    (t.evaluate d w cancelled interrupts).tree.Swept := by
  obtain ⟨es, rs, ps, hf, hl⟩ := hq
  obtain ⟨done, done', left, left', -, he, hl', -, -⟩ := hl.evaluate hf d w cancelled interrupts
  refine ⟨?_, h.blocks⟩
  intro n hn ha
  rw [he] at hn
  rcases List.mem_append.mp hn with hn | hn
  · rw [Node.analyzed_of_ready (hl'.all_ready n hn)] at ha
    cases ha
  · exact h.fragments n (by simp [hf, hn]) ha

theorem Reachable.inLine_swept (h : t.Reachable) : t.InLine ∧ t.Swept := by
  refine h.invariant (P := fun t => t.InLine ∧ t.Swept) ?_ ?_ ?_ ?_
  · exact ⟨⟨[], [], [], rfl, by simp, by simp, by simp⟩, by simp, by simp⟩
  · exact fun t tok ht h => ⟨h.1.insert ht tok, h.2.insert ht tok⟩
  · intro t ht h
    have ho := ht.sound_fresh.1.opened
    exact ⟨h.1.reset ho, swept_reset ho⟩
  · exact fun t d w cancelled interrupts _ h =>
      ⟨h.1.evaluate d w cancelled interrupts, h.2.evaluate h.1 d w cancelled interrupts⟩

/-- The fragments an evaluation would evaluate. -/
def waiting (t : Tree) : List Node := t.roots.filter fun n => n.isReady && !n.flags.evaluated

theorem Lined.waiting {es ps : List Node} (h : Lined es rs ps) (hf : t.fragments = es ++ rs ++ ps)
    (ho : ∀ n ∈ t.path, n.Opened) : t.waiting = rs := by
  have hes : es.filter (fun n => n.isReady && !n.flags.evaluated) = [] :=
    List.filter_eq_nil_iff.mpr fun n hn => by simp [h.evaluated n hn]
  have hrs : rs.filter (fun n => n.isReady && !n.flags.evaluated) = rs :=
    List.filter_eq_self.mpr fun n hn => by simp [h.ready n hn]
  have hraw : ∀ ns : List Node, (∀ n ∈ ns, n.Raw) →
      ns.filter (fun n => n.isReady && !n.flags.evaluated) = [] :=
    fun ns hns => List.filter_eq_nil_iff.mpr fun n hn => by simp [(hns n hn).not_ready]
  have hopen := (openFragment_spec t.path).2 fun n hn => (ho n hn).raw
  rw [Tree.waiting, roots, hf, List.filter_append, List.filter_append, List.filter_append, hes, hrs,
    hraw ps h.raw, hraw _ hopen]
  simp

/-- The children of the root are in order, and so are those of the open blocks. What is not analyzed
is a stray or the last and still open. -/
structure Queued (t : Tree) : Prop where
  roots : ∃ es rs ps, t.roots = es ++ rs ++ (ps ++ (openFragment t.path).toList) ∧
    (∀ n ∈ es, n.isReady = true ∧ n.flags.evaluated = true) ∧
    (∀ n ∈ rs, n.isReady = true ∧ n.flags.evaluated = false) ∧
    (∀ n ∈ ps, n.Stray) ∧ ∀ n ∈ openFragment t.path, n.flags.analyzed = false
  /-- The children of an open node are the closed ones and then the open one. -/
  blocks : ∀ inner n outer, t.path = inner ++ n :: outer → n.isBlock = true →
    ∃ rs ps, n.kids ++ (openFragment inner).toList =
        rs ++ (ps ++ (openFragment inner).toList) ∧
      (∀ k ∈ rs, k.flags.analyzed = true) ∧ (∀ k ∈ ps, k.Stray) ∧
      ∀ k ∈ openFragment inner, k.flags.analyzed = false

theorem Reachable.queued (h : t.Reachable) : t.Queued := by
  obtain ⟨⟨es, rs, ps, hf, hl⟩, hswept⟩ := h.inLine_swept
  have ho := h.sound_fresh.1.opened
  have hopen : ∀ path : List Node, (∀ n ∈ path, n ∈ t.path) →
      ∀ n ∈ openFragment path, n.flags.analyzed = false := by
    intro path hp n hn
    have hraw := (openFragment_spec path).2 (fun k hk => (ho k (hp k hk)).raw) n
      (Option.mem_toList.mpr hn)
    exact hraw.flags.1
  refine ⟨⟨es, rs, ps, ?_, hl.evaluated, hl.ready, ?_, hopen _ fun _ hn => hn⟩, ?_⟩
  · rw [Tree.roots, hf, List.append_assoc]
  · intro n hn
    exact hswept.fragments n (by simp [hf, hn]) (hl.raw n hn).flags.1
  · intro inner n outer hp hb
    obtain ⟨rs, ps, hk, hr, hs⟩ := hswept.blocks n (by simp [hp]) hb
    refine ⟨rs, ps, by rw [hk, List.append_assoc], hr, hs, hopen inner fun k hk => ?_⟩
    simp [hp, hk]

/-- The children of the root are a queue, and so are those of every open block. An evaluation takes
the ready fragments from the front, and leaves none behind unless it is cut short. -/
theorem fragments_form_queue (h : t.Reachable) : t.Queued ∧
    ∀ {σ : Type} (d : Option (Dispatcher σ)) (w : σ) (cancelled : Bool) (interrupts : List Bool),
      let e := t.evaluate d w cancelled interrupts
      ∃ done left, t.waiting = done ++ left ∧ e.values.length = done.length ∧
        Left left e.tree.waiting e.stop := by
  refine ⟨h.queued, ?_⟩
  intro σ d w cancelled interrupts e
  obtain ⟨⟨es, rs, ps, hf, hl⟩, -⟩ := h.inLine_swept
  have ho := h.sound_fresh.1.opened
  obtain ⟨done, done', left, left', rfl, he, hl', hv, hleft⟩ :=
    hl.evaluate hf d w cancelled interrupts
  have hafter : e.tree.waiting = left' := hl'.waiting he ho
  refine ⟨done, left, hl.waiting hf ho, hv, ?_⟩
  rw [hafter]
  exact hleft

/-- An evaluated literal, a ready one, a stray one, and an open block that holds a ready literal, a
stray one and an open sum. -/
def literalsThenBlock : List Call :=
  [.insert ⟨"INT", "1"⟩, .insert ⟨";", []⟩, .evaluate false [], .insert ⟨"INT", "2"⟩,
    .insert ⟨";", []⟩, .insert ⟨"INT", "3"⟩, .insert ⟨"\x7b", []⟩, .insert ⟨"INT", "4"⟩,
    .insert ⟨";", []⟩, .insert ⟨"INT", "5"⟩, .insert ⟨"(", []⟩, .insert ⟨"PLUS", []⟩]

theorem fragments_form_queue_literalsThenBlock :
    let t := (Run.of (none : Option (Dispatcher Unit)) () literalsThenBlock).tree
    t.Reachable ∧ t.Queued ∧
      (t.roots.map fun n => (n.isReady, n.flags.evaluated)) =
        [(true, true), (true, false), (false, false), (false, false)] ∧
      t.waiting.map (·.label.token.value) = ["2"] ∧
      ((t.evaluate (none : Option (Dispatcher Unit)) () false []).stop = none ∧
        (t.evaluate (none : Option (Dispatcher Unit)) () false []).tree.waiting = []) := by
  intro t
  have hreach : t.Reachable := ⟨Unit, none, (), _, rfl⟩
  obtain ⟨hqueued, hserve⟩ := fragments_form_queue hreach
  have hstop : (t.evaluate (none : Option (Dispatcher Unit)) () false []).stop.isNone = true := by
    decide +kernel
  have hstop := Option.isNone_iff_eq_none.mp hstop
  obtain ⟨done, left, -, -, hleft⟩ := hserve (none : Option (Dispatcher Unit)) () false []
  rw [hstop] at hleft
  exact ⟨hreach, hqueued, by decide +kernel, by decide +kernel, hstop, hleft.2⟩

end Tree

end TokenShell
