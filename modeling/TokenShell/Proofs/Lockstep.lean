import TokenShell.Proofs.Discarding

/-! Insertions and resets on two trees that differ in fragments that are ready and in cells only. -/
namespace TokenShell

/-- Fragments and a global scope that a tree grows from. -/
structure Base where
  fragments : List Node
  globals : Scope

namespace Tree

variable {b c : Base} {t u : Tree} {tok : Token} {n : Node} {m : Marker}

/-- Trees that have got the same fragments and declarations since, over bases of their own. -/
structure Twins (b c : Base) (t u : Tree) : Prop where
  added : ∃ ys new, t.fragments = b.fragments ++ ys ∧ u.fragments = c.fragments ++ ys ∧
    t.globals = b.globals.extend new ∧ u.globals = c.globals.extend new
  path : u.path = t.path
  expectHead : u.expectHead = t.expectHead
  clock : u.clock = t.clock

end Tree

/-- Steps to such trees that show the same. -/
structure Step.Twins (b c : Base) (s r : Step) : Prop where
  tree : s.tree.Twins b c r.tree
  events : r.events = s.events
  failure : r.failure = s.failure

theorem Step.Twins.next {b c : Base} {s r : Step} {f : Tree → Step} (h : s.Twins b c r)
    (hf : ∀ t u, t.Twins b c u → (f t).Twins b c (f u)) : (s.next f).Twins b c (r.next f) := by
  unfold Step.next
  rw [h.failure]
  cases hs : s.failure with
  | some e => exact h
  | none =>
    have hfr := hf _ _ h.tree
    exact ⟨hfr.tree, by simp only [h.events, hfr.events], hfr.failure⟩

namespace Tree

/-- Two bases that analysis cannot tell apart. -/
structure Similar (b c : Base) : Prop where
  left : ∀ n ∈ b.fragments, n.isReady = true
  right : ∀ n ∈ c.fragments, n.isReady = true
  globals : b.globals.Alike c.globals

variable {b c : Base} {t u : Tree} {tok : Token} {n : Node} {m : Marker}

theorem Twins.step (h : t.Twins b c u) : Step.Twins b c { tree := t } { tree := u } :=
  ⟨h, rfl, rfl⟩

theorem Twins.innerBlock (h : t.Twins b c u) : u.innerBlock = t.innerBlock := by
  rw [Tree.innerBlock, h.path, Tree.innerBlock]

theorem Twins.atScope (h : t.Twins b c u) : u.atScope = t.atScope := by
  rw [Tree.atScope, h.path, Tree.atScope]

theorem Twins.cursor (h : t.Twins b c u) : u.cursor = t.cursor := by
  rw [Tree.cursor, h.path, Tree.cursor]

theorem Twins.refuse (h : t.Twins b c u) (e : Cause) :
    (t.refuse e).Twins b c (u.refuse e) :=
  ⟨h, rfl, by simp only [Tree.refuse, h.cursor]⟩

theorem Twins.withPath (h : t.Twins b c u) (path : List Node) :
    ({ t with path } : Tree).Twins b c { u with path } :=
  ⟨h.added, rfl, h.expectHead, h.clock⟩

theorem Twins.append (h : t.Twins b c u) (n : Node) : (t.append n).Twins b c (u.append n) := by
  obtain ⟨⟨ys, new, hf, hf', hg, hg'⟩, hp, he, hc⟩ := h
  unfold Tree.append
  rw [hp]
  cases ht : t.path with
  | nil => exact ⟨⟨ys ++ [n], new, by simp [hf], by simp [hf'], hg, hg'⟩, by simp, he, hc⟩
  | cons p path => exact ⟨⟨ys, new, hf, hf', hg, hg'⟩, rfl, he, hc⟩

/-- A flush passes over what the trees differ in. -/
theorem Twins.flush (h : t.Twins b c u) (hbc : Similar b c) : t.flush.Twins b c u.flush := by
  obtain ⟨⟨ys, new, hf, hf', hg, hg'⟩, hp, he, hc⟩ := h
  have hlike : t.globals.Alike u.globals := by
    rw [hg, hg']
    exact hbc.globals.extend new
  cases ht : t.path with
  | nil =>
    obtain ⟨js, new', ev, fl, h1, h2, -⟩ := flush_alike b.fragments c.fragments ht (hp.trans ht) hf
      hf' (fun n hn => Node.analyzed_of_ready (hbc.left n hn))
      (fun n hn => Node.analyzed_of_ready (hbc.right n hn)) hlike
    rw [h1, h2]
    exact ⟨⟨⟨js, new ++ new', rfl, rfl, by simp [hg], by simp [hg']⟩, hp, he, hc⟩, rfl, rfl⟩
  | cons n path =>
    obtain ⟨js, scope, ev, fl, h1, h2, -⟩ := flush_inner ht (hp.trans ht) hlike
    rw [h1, h2]
    exact ⟨⟨⟨ys, new, hf, hf', hg, hg'⟩, rfl, he, hc⟩, rfl, rfl⟩

theorem Twins.closeCursor (h : t.Twins b c u) (hbc : Similar b c) :
    t.closeCursor.Twins b c u.closeCursor := by
  cases ht : t.path with
  | nil =>
    simp only [Tree.closeCursor, ht, h.path]
    exact h.step
  | cons n path =>
    have hl : t.leave.Twins b c u.leave := by
      rw [leave_cons ht, leave_cons (h.path.trans ht)]
      simpa only [h.clock] using (h.withPath path).append (n.shut t.clock)
    rw [closeCursor_cons ht, closeCursor_cons (h.path.trans ht), hl.atScope]
    split
    · exact hl.flush hbc
    · exact hl.step

theorem Twins.close (h : t.Twins b c u) (hbc : Similar b c) (tok : Token) (m : Marker) :
    (t.close tok m).Twins b c (u.close tok m) := by
  unfold Tree.close
  rw [h.expectHead, h.path]
  by_cases he : t.expectHead = true
  · rw [if_pos he, if_pos he]
    exact h.refuse _
  · rw [if_neg he, if_neg he]
    cases ht : t.path with
    | nil => exact h.refuse _
    | cons n path =>
      dsimp only
      split
      · exact h.refuse _
      · split
        · exact (h.flush hbc).next fun _ _ hv => hv.closeCursor hbc
        · exact h.closeCursor hbc

theorem Twins.terminate (h : t.Twins b c u) (hbc : Similar b c) :
    t.terminate.Twins b c u.terminate := by
  unfold Tree.terminate
  rw [h.expectHead, h.atScope, h.cursor]
  split
  · exact h.refuse _
  · split
    · exact h.refuse _
    · exact h.flush hbc

theorem Twins.attach (h : t.Twins b c u) (tok : Token) (opener : Option Marker) :
    (t.attach tok opener).Twins b c (u.attach tok opener) := by
  have hcursor : u.cursorNumber = t.cursorNumber := by rw [cursorNumber, cursorNumber, h.path]
  unfold Tree.attach
  rw [hcursor, h.path, h.clock, h.innerBlock]
  dsimp only
  split
  · exact h.refuse _
  · cases ((Node.ofToken tok t.clock).adopt (some t.cursorNumber)).setUp t.innerBlock with
    | error e => exact ⟨h, rfl, rfl⟩
    | ok n =>
      cases opener with
      | none => exact (h.append n).step
      | some m => exact ⟨⟨h.added, rfl, rfl, rfl⟩, rfl, rfl⟩

theorem Twins.grow (h : t.Twins b c u) (tok : Token) : (t.grow tok).Twins b c (u.grow tok) := by
  unfold Tree.grow
  rw [h.expectHead]
  have ha := fun opener => h.attach tok opener
  exact ⟨(ha _).tree, by simp only [(ha _).events], (ha _).failure⟩

theorem Twins.place (h : t.Twins b c u) (hbc : Similar b c) (tok : Token) :
    (t.place tok).Twins b c (u.place tok) := by
  unfold Tree.place
  rw [h.expectHead]
  cases tok.kind with
  | marker m =>
    cases m
    case openGroup =>
      dsimp only
      split
      · exact h.refuse _
      · exact ⟨⟨h.added, h.path, rfl, h.clock⟩, rfl, rfl⟩
    case terminator => exact h.terminate hbc
    case closeGroup => exact h.close hbc tok _
    case closeBlock => exact h.close hbc tok _
    case closeCommand => exact h.close hbc tok _
    all_goals
      dsimp only
      split
      · exact h.refuse _
      · exact h.grow tok
  | _ => exact h.grow tok

/-- A tree that has grown from a base with all that was ready then. -/
structure Stands (b : Base) (t : Tree) : Prop where
  ready : ∀ r ∈ b.fragments, r.isReady = true
  keys : ∀ k ∈ b.globals.keys, k ∈ b.fragments.flatMap Node.identifiers
  grown : ∃ extra, t.Grown b.fragments b.globals extra
  numbered : t.Numbered
  covered : b.globals.Covered
  distinct : t.globals.Distinct

/-- The fragments that are ready and the global scope. -/
def base (t : Tree) : Base := ⟨t.fragments.filter (·.isReady), t.globals⟩

theorem Sound.stands (h : t.Sound) : t.Stands t.base := by
  obtain ⟨hr, hk, hg⟩ := h.grown
  exact ⟨hr, hk, ⟨[], hg⟩, h.numbered, h.covered, h.distinct⟩

theorem Sound.stands_place (h : t.Sound) (tok : Token) :
    ({ t with clock := t.clock + 1 }.place tok).tree.Stands t.base := by
  obtain ⟨hr, hk, hg⟩ := h.grown
  obtain ⟨extra, hp, -⟩ := hg.tick.place hr (placed_place _ tok)
  exact ⟨hr, hk, ⟨extra, hp⟩, h.numbered.place tok, h.covered,
    distinct_place (placed_place { t with clock := t.clock + 1 } tok) h.distinct⟩

theorem Stands.reset (h : t.Stands b) {ys : List Node} (hy : t.roots = b.fragments ++ ys) :
    t.reset = ⟨{ t with
      fragments := b.fragments ++ ys.filter (·.isReady)
      path := []
      expectHead := false
      globals :=
        b.globals.extend ((ys.filter (·.isReady)).flatMap (Node.declarations false)) },
      if (ys.filter (!·.isReady)).isEmpty then []
      else [.discarded (ys.filter (!·.isReady)).length], none⟩ := by
  obtain ⟨extra, hg⟩ := h.grown
  obtain ⟨qs, ps, hroots, hq, hp, he⟩ := hg.reset h.ready h.keys h.numbered h.covered h.distinct
  obtain rfl : ys = qs ++ ps := List.append_cancel_left (hy.symm.trans hroots)
  obtain ⟨hkept, hdropped⟩ := filter_ready hq hp
  have hnone : b.fragments.filter (!·.isReady) = [] :=
    List.filter_eq_nil_iff.mpr fun r hr => by simp [h.ready r hr]
  have hev : t.roots.filter (!·.isReady) = ps := by
    rw [hroots, List.filter_append, hnone, hdropped, List.nil_append]
  rw [hkept, hdropped, ← he]
  simp only [Tree.reset, hev]

theorem Twins.reset (h : t.Twins b c u) (hb : t.Stands b) (hc : u.Stands c) :
    t.reset.Twins b c u.reset := by
  obtain ⟨⟨ys, new, hf, hf', -, -⟩, hp, -, hclock⟩ := h
  have hr : t.roots = b.fragments ++ (ys ++ (openFragment t.path).toList) := by
    simp [roots, hf]
  have hr' : u.roots = c.fragments ++ (ys ++ (openFragment t.path).toList) := by
    simp [roots, hf', hp]
  rw [hb.reset hr, hc.reset hr']
  exact ⟨⟨⟨_, _, rfl, rfl, rfl, rfl⟩, rfl, rfl, hclock⟩, rfl, rfl⟩

theorem Twins.insert (ht : t.Sound) (hu : u.Sound) (h : t.Twins t.base u.base u)
    (hg : t.globals.Alike u.globals) (tok : Token) :
    (t.insert tok).Twins t.base u.base (u.insert tok) := by
  have hbc : Similar t.base u.base := ⟨ht.stands.ready, hu.stands.ready, hg⟩
  have htick : ({ t with clock := t.clock + 1 } : Tree).Twins t.base u.base
      { u with clock := u.clock + 1 } :=
    ⟨h.added, h.path, h.expectHead, by simp [h.clock]⟩
  have hp := htick.place hbc tok
  unfold Tree.insert
  dsimp only
  rw [hp.failure, hp.events]
  cases ({ t with clock := t.clock + 1 }.place tok).failure with
  | none => exact ⟨hp.tree, rfl, rfl⟩
  | some f =>
    have hr := hp.tree.reset (ht.stands_place tok) (hu.stands_place tok)
    exact ⟨hr.tree, by simp only [hr.events], rfl⟩

end Tree

end TokenShell
