import TokenShell.Proofs.Commands
import TokenShell.Proofs.Settling
import TokenShell.Tree.Inspect

/-! Every node of a tree is at a definite stage, so that no guard is ever needed and every analyzed
operator is in its final form. -/
namespace TokenShell

namespace Node

variable {n m k r : Node} {l : Label} {ks : List Node}

/-- A fragment: through all the phases or still before the first. -/
def Staged (n : Node) : Prop := n.Settled ∨ n.Upper Label.Planted

/-- An open node. -/
structure Budding (n : Node) : Prop where
  upper : n.Upper Label.Planted
  block : n.label.opener = some .openBlock → n.label.isBlock = true

theorem isBlock_label (n : Node) : n.label.isBlock = n.isBlock := rfl

theorem Upper.flags (h : n.Upper Label.Planted) : n.flags = { setup := true } := by
  obtain ⟨l, ks⟩ := n
  exact (upper_mk.mp h).1.flags

theorem Upper.not_ready (h : n.Upper Label.Planted) : n.isReady = false := by
  rw [isReady, h.flags]
  rfl

theorem Staged.settled_of_ready (h : n.Staged) (hr : n.isReady = true) : n.Settled := by
  refine h.resolve_right fun hu => ?_
  rw [hu.not_ready] at hr
  cases hr

theorem Staged.upper_of_not_analyzed (h : n.Staged) (ha : ¬ n.flags.analyzed = true) :
    n.Upper Label.Planted :=
  h.resolve_left fun hs => ha hs.analyzed

theorem upper_sprout (tok : Token) (serial : Nat) (site : Site) (opener : Option Marker) :
    (sprout tok serial site opener).Upper Label.Planted := by
  refine upper_mk.mpr ⟨⟨rfl, rfl, ?_⟩, by simp⟩
  show ((Form.ofToken tok).link serial site.block).part ≠ .declared
  unfold Form.ofToken
  split <;> simp [Form.link, Form.part]

theorem isBlock_sprout (tok : Token) (serial : Nat) (site : Site) (opener : Option Marker) :
    (sprout tok serial site opener).label.isBlock = (Label.ofToken tok serial).isBlock := by
  show ({ Label.ofToken tok serial with
    form := (Form.ofToken tok).link serial site.block } : Label).isBlock = _
  simp only [Label.isBlock, Label.ofToken]
  cases Form.ofToken tok <;> rfl

theorem Budding.push (h : n.Budding) (hk : k.Upper Label.Planted) : (n.push k).Budding := by
  obtain ⟨l, ks⟩ := n
  obtain ⟨hl, hks⟩ := upper_mk.mp h.upper
  refine ⟨upper_mk.mpr ⟨⟨hl.flags, hl.housed, hl.undeclared⟩, ?_⟩, h.block⟩
  intro j hj
  rcases List.mem_append.mp hj with hj | hj
  · exact hks j hj
  · obtain rfl := List.mem_singleton.mp hj
    exact Or.inl hk

theorem Budding.shut (h : n.Budding) (time : Nat) : (n.shut time).Upper Label.Planted := by
  obtain ⟨l, ks⟩ := n
  obtain ⟨hl, hks⟩ := upper_mk.mp h.upper
  exact upper_mk.mpr ⟨⟨hl.flags, hl.housed, hl.undeclared⟩, hks⟩

/-- The children of an open block may be at any stage. -/
theorem Budding.setScope (h : n.Budding) (hb : n.isBlock = true) (hk : ∀ k ∈ ks, k.Staged)
    (s : Scope) : ((Node.mk n.label ks).setScope s).Budding := by
  obtain ⟨l, js⟩ := n
  obtain ⟨hl, -⟩ := upper_mk.mp h.upper
  obtain ⟨kind, scope, hf⟩ : ∃ kind scope, l.form = .block kind scope := by
    rw [← isBlock_label, label_mk, Label.isBlock] at hb
    split at hb
    · next kind scope hf => exact ⟨kind, scope, hf⟩
    · cases hb
  have he : (Node.mk l ks).setScope s = Node.mk { l with form := .block kind s } ks := by
    simp [Node.setScope, hf]
  rw [label_mk, he]
  refine ⟨upper_mk.mpr ⟨⟨hl.flags, hl.housed, by simp [Label.part, Form.part]⟩, ?_⟩, fun _ => rfl⟩
  intro k hm
  rcases hk k hm with hs | hu
  · exact Or.inr ⟨rfl, hs⟩
  · exact Or.inl hu

/-- The open nodes put under one another, from the innermost on. -/
theorem budding_foldl {path : List Node} (h : ∀ k ∈ n :: path, k.Budding) :
    (path.foldl (fun n p => p.push n) n).Budding := by
  induction path generalizing n with
  | nil => exact h n (by simp)
  | cons p path ih =>
    rw [List.foldl_cons]
    apply ih
    intro k hk
    rcases List.mem_cons.mp hk with rfl | hk
    · exact (h p (by simp)).push (h n (by simp)).upper
    · exact h k (by simp [hk])

theorem Budding.staged_kids (h : n.Budding) : ∀ k ∈ n.kids, k.Staged := by
  obtain ⟨l, ks⟩ := n
  intro k hm
  rcases (upper_mk.mp h.upper).2 k hm with hu | ⟨-, hs⟩
  · exact Or.inr hu
  · exact Or.inl hs

end Node

/-- The stages at which a fragment can fail on its way through the phases. -/
def Cause.Stage.checks : List Cause.Stage := [.shape, .precedence, .scope]

/-- The stages at which an insertion can fail. -/
def Cause.Stage.insertion : List Cause.Stage := .nesting :: checks

/-- A flush takes fragments on or fails for their own sake. -/
theorem Flushed.staged (within : Option Nat) {ns : List Node} {ss : Scopes} {depth : Nat}
    (h : ∀ n ∈ ns, n.Staged) (hs : ss.length = depth + 1) :
    (∀ n ∈ (of within ss ns).kids, n.Staged) ∧
      ∀ f ∈ (of within ss ns).failure, f.cause.stage ∈ Cause.Stage.checks := by
  induction ns generalizing ss with
  | nil => simp [of]
  | cons n ns ih =>
    have hns : ∀ m ∈ ns, m.Staged := fun m hm => h m (by simp [hm])
    by_cases ha : n.flags.analyzed = true
    · obtain ⟨hk, hf⟩ := ih hns hs
      rw [of, if_pos ha]
      refine ⟨?_, hf⟩
      intro m hm
      rcases List.mem_cons.mp hm with rfl | hm
      · exact h m (by simp)
      · exact hk m hm
    · have hu := (h n (by simp)).upper_of_not_analyzed ha
      obtain ⟨hlen, hm⟩ := hu.cascade within depth ss hs
      rw [of, if_neg ha]
      rcases hr : n.cascade within ss with ⟨f | q, us⟩
      · rw [hr] at hm
        refine ⟨h, ?_⟩
        intro g hg
        obtain rfl : f = g := by simpa using hg
        exact hm
      · rw [hr] at hlen hm
        obtain ⟨hk, hf⟩ := ih hns hlen
        refine ⟨?_, hf⟩
        intro m hmem
        rcases List.mem_cons.mp hmem with rfl | hmem
        · exact Or.inl hm
        · exact hk m hmem

namespace Tree

variable {t u : Tree} {n : Node} {path : List Node} {tok : Token}

/-- Every node of a tree is at a stage that its place allows. -/
structure Staged (t : Tree) : Prop where
  fragments : ∀ n ∈ t.fragments, n.Staged
  path : ∀ n ∈ t.path, n.Budding

end Tree

/-- A step to a tree that is staged, which fails at a stage of insertion if at all. -/
structure Step.Staged (s : Step) : Prop where
  tree : s.tree.Staged
  stage : ∀ f ∈ s.failure, f.cause.stage ∈ Cause.Stage.insertion

namespace Tree

variable {t u : Tree} {n : Node} {path : List Node} {tok : Token}

theorem Staged.refuse (h : t.Staged) {c : Cause} (hc : c.stage = .nesting) :
    (t.refuse c).Staged := by
  refine ⟨h, ?_⟩
  intro f hf
  obtain rfl : { cause := c, node := some t.cursor } = f := by simpa [Tree.refuse] using hf
  simp [hc, Cause.Stage.insertion]

theorem Staged.append (h : t.Staged) (hn : n.Upper Label.Planted) : (t.append n).Staged :=
  ⟨forall_fragments_append h.fragments (Or.inr hn),
    forall_path_append h.path fun _ hm => hm.push hn⟩

/-- A flush fails by a check of a fragment if at all. -/
theorem Staged.flush_failure (h : t.Staged) :
    ∀ f ∈ t.flush.failure, f.cause.stage ∈ Cause.Stage.checks := by
  have hlen : t.scopes.length = (t.path.filterMap Node.scope?).length + 1 := by simp [scopes]
  unfold Tree.flush
  split
  · exact (Flushed.staged _ h.fragments hlen).2
  · next p path hp => exact (Flushed.staged _ (h.path p (by simp [hp])).staged_kids hlen).2

theorem Staged.flush (h : t.Staged) (hs : t.atScope = true) : t.flush.Staged := by
  have hlen : t.scopes.length = (t.path.filterMap Node.scope?).length + 1 := by simp [scopes]
  refine ⟨?_, fun f hf => List.mem_cons_of_mem _ (h.flush_failure f hf)⟩
  unfold Tree.flush
  split
  · next hp => exact ⟨(Flushed.staged _ h.fragments hlen).1, h.path⟩
  · next p path hp =>
    have hb := h.path p (by simp [hp])
    obtain ⟨hk, -⟩ := Flushed.staged t.innerBlock hb.staged_kids hlen
    refine ⟨h.fragments, ?_⟩
    intro m hm
    rcases List.mem_cons.mp hm with rfl | hm
    · refine hb.setScope ?_ hk _
      simpa [atScope, hp] using hs
    · exact h.path m (by simp [hp, hm])

theorem Staged.leave (h : t.Staged) : t.leave.Staged := by
  cases hp : t.path with
  | nil =>
    simp only [Tree.leave, hp]
    exact h
  | cons n path =>
    rw [leave_cons hp]
    refine Staged.append ⟨h.fragments, ?_⟩ ((h.path n (by simp [hp])).shut _)
    intro m hm
    exact h.path m (by simp [hp, hm])

theorem Staged.closeCursor (h : t.Staged) : t.closeCursor.Staged := by
  cases hp : t.path with
  | nil =>
    simp only [Tree.closeCursor, hp]
    exact ⟨h, by simp⟩
  | cons n path =>
    rw [closeCursor_cons hp]
    split
    · next hs => exact h.leave.flush hs
    · exact ⟨h.leave, by simp⟩

/-- A node that a closing brace matches is a block. -/
theorem Staged.atScope_of_closedBy (h : t.Staged) (hp : t.path = n :: path)
    (hc : n.closedBy .closeBlock = true) : t.atScope = true := by
  rw [Tree.atScope, hp]
  exact (h.path n (by simp [hp])).block (opener_of_closedBy hc)

/-- Before a node is closed, it is flushed if it is a block. -/
theorem Staged.closing_cases (h : t.Staged) (hc : t.Closing tok u) :
    (u = t ∧ ∀ n path, t.path = n :: path → n.label.opener ≠ some .openBlock) ∨
      t.atScope = true ∧ u = t.flush.tree ∧ t.flush.failure = none := by
  obtain ⟨n, path, m, -, hp, hn, -, ⟨hm, rfl⟩ | ⟨rfl, rfl, hf⟩⟩ := hc
  · refine Or.inl ⟨rfl, ?_⟩
    intro n' path' hp' ho
    obtain ⟨rfl, -⟩ := List.cons.inj (hp.symm.trans hp')
    rw [Node.closedBy, ho] at hn
    cases m <;> simp [Marker.closer?] at hn hm
  · refine Or.inr ⟨?_, rfl, hf⟩
    cases ht : t.path with
    | nil => simp [Tree.atScope, ht]
    | cons k rest =>
      obtain ⟨js, scope, hf⟩ := flush_path ht
      obtain ⟨rfl, -⟩ := List.cons.inj (hf.symm.trans hp)
      rw [closedBy_setScope] at hn
      exact h.atScope_of_closedBy ht hn

/-- The tree in which the cursor is about to be left. -/
theorem Staged.closing (h : t.Staged) (hc : t.Closing tok u) : u.Staged := by
  rcases h.closing_cases hc with ⟨rfl, -⟩ | ⟨ha, rfl, -⟩
  · exact h
  · exact (h.flush ha).tree

theorem Staged.close (h : t.Staged) (tok : Token) (m : Marker) : (t.close tok m).Staged := by
  unfold Tree.close
  split
  · exact h.refuse rfl
  · split
    · exact h.refuse rfl
    · next n path hp =>
      split
      · exact h.refuse rfl
      · next hc =>
        have hc : n.closedBy m = true := by simpa using hc
        split
        · next hm =>
          subst hm
          have hf := h.flush (h.atScope_of_closedBy hp hc)
          unfold Step.next
          split
          · exact hf
          · have hn := hf.tree.closeCursor
            exact ⟨hn.tree, hn.stage⟩
        · exact h.closeCursor

theorem Staged.terminate (h : t.Staged) : t.terminate.Staged := by
  unfold Tree.terminate
  split
  · exact h.refuse rfl
  · split
    · exact h.refuse rfl
    · next hs => exact h.flush (by simpa using hs)

/-- A node can be attached wherever the cursor is. -/
theorem Staged.attach_eq (h : t.Staged) (tok : Token) : ∃ site,
    t.attach tok none = { tree := t.append (.sprout tok t.clock site none) } ∧
    ∀ m, t.attach tok (some m) =
      { tree := { t with
          path := .sprout tok t.clock site (some m) :: t.path
          expectHead := false } } := by
  have hopen : t.path.head?.any (·.flags.complete) = false := by
    cases hp : t.path with
    | nil => rfl
    | cons n path => simp [(h.path n (by simp [hp])).upper.flags]
  obtain ⟨b, hb⟩ : ∃ b, t.innerBlock = some b := by
    unfold Tree.innerBlock
    split
    · exact ⟨0, rfl⟩
    · next n path hp =>
      obtain ⟨l, ks⟩ := n
      have hl := (Node.upper_mk.mp (h.path (.mk l ks) (by simp [hp])).upper).1.housed
      obtain ⟨k, hk⟩ := Option.isSome_iff_exists.mp hl
      rw [Node.label_mk, Label.innerBlock, hk]
      split
      · exact ⟨l.serial, rfl⟩
      · exact ⟨k, rfl⟩
  have hset : ((Node.ofToken tok t.clock).adopt (some t.cursorNumber)).setUp t.innerBlock =
      .ok (.sprout tok t.clock ⟨t.cursorNumber, b⟩ none) := by
    rw [hb]
    rfl
  refine ⟨⟨t.cursorNumber, b⟩, ?_, fun m => ?_⟩
  · simp only [Tree.attach, hopen, hset]
    rfl
  · simp only [Tree.attach, hopen, hset]
    rfl

theorem Staged.attach (h : t.Staged) (tok : Token) (opener : Option Marker)
    (hb : opener = some .openBlock → (Label.ofToken tok t.clock).isBlock = true) :
    (t.attach tok opener).Staged := by
  obtain ⟨site, hleaf, hopened⟩ := h.attach_eq tok
  cases opener with
  | none =>
    rw [hleaf]
    exact ⟨h.append (Node.upper_sprout _ _ _ _), by simp⟩
  | some m =>
    rw [hopened]
    refine ⟨⟨h.fragments, ?_⟩, by simp⟩
    intro n hn
    rcases List.mem_cons.mp hn with rfl | hn
    · refine ⟨Node.upper_sprout tok t.clock site (some m), fun ho => ?_⟩
      rw [Node.isBlock_sprout]
      exact hb ho
    · exact h.path n hn

theorem Staged.grow (h : t.Staged) (tok : Token) : (t.grow tok).Staged := by
  unfold Tree.grow
  dsimp only
  refine ⟨(h.attach tok _ ?_).tree, (h.attach tok _ ?_).stage⟩ <;>
  · intro ho
    split at ho
    · cases ho
    · split at ho
      · next m hk =>
        obtain rfl := Option.some.inj ho
        simp [Label.isBlock, Label.ofToken, Form.ofToken, hk]
      · cases ho

theorem Staged.place (h : t.Staged) (tok : Token) : (t.place tok).Staged := by
  unfold Tree.place
  split
  · split
    · exact h.refuse rfl
    · exact ⟨⟨h.fragments, h.path⟩, by simp⟩
  · exact h.terminate
  · exact h.close tok _
  · exact h.close tok _
  · exact h.close tok _
  · split
    · exact h.refuse rfl
    · exact h.grow tok
  · exact h.grow tok

/-- The open fragment is not through any phase. -/
theorem Staged.roots (h : t.Staged) : ∀ n ∈ t.roots, n.Staged := by
  intro n hn
  rcases mem_roots.mp hn with hn | ⟨m, path, hp, rfl⟩
  · exact h.fragments n hn
  · have hb : ∀ k ∈ m :: path, k.Budding := hp ▸ h.path
    exact Or.inr (Node.budding_foldl hb).upper

theorem Staged.reset (h : t.Staged) : t.reset.Staged := by
  refine ⟨⟨?_, by simp [Tree.reset]⟩, by simp [Tree.reset]⟩
  intro n hn
  exact h.roots n (List.mem_filter.mp hn).1

theorem Staged.insert (h : t.Staged) (tok : Token) : (t.insert tok).Staged := by
  have hp := Staged.place (t := { t with clock := t.clock + 1 }) ⟨h.fragments, h.path⟩ tok
  rcases insert_tree t tok with ⟨-, ht, hi⟩ | ⟨f, hf, ht, hi⟩
  · refine ⟨ht ▸ hp.tree, ?_⟩
    rw [hi]
    simp
  · refine ⟨ht ▸ hp.tree.reset.tree, ?_⟩
    rw [hi]
    intro g hg
    obtain rfl : f.withToken tok = g := by simpa using hg
    exact hp.stage f hf

theorem Staged.insertAll (h : t.Staged) (toks : List Token) : (t.insertAll toks).Staged := by
  induction toks generalizing t with
  | nil => exact ⟨h, by simp [Tree.insertAll]⟩
  | cons tok toks ih =>
    have hi := h.insert tok
    rw [Tree.insertAll, Step.next]
    split
    · exact hi
    · exact ⟨(ih hi.tree).tree, (ih hi.tree).stage⟩

end Tree

namespace Progress

variable {σ : Type} {d : Option (Dispatcher σ)} {m m' : Machine σ} {ns ns' : List Node}
  {vs : List Value}

theorem Pass.staged (h : Pass d m ns ns' vs m') (hn : ∀ n ∈ ns, n.Staged) :
    ∀ n ∈ ns', n.Staged := by
  induction h with
  | nil => simp
  | skip he _ ih =>
    intro n hm
    rcases List.mem_cons.mp hm with rfl | hm
    · exact hn n (by simp)
    · exact ih (fun k hk => hn k (by simp [hk])) n hm
  | @step m m' _ n n' ns _ _ he hr _ hv _ ih =>
    intro k hm
    rcases List.mem_cons.mp hm with rfl | hm
    · exact Or.inl (((hn n (by simp)).settled_of_ready hr).of_outline (Node.outline_evaluate hv))
    · exact ih (fun j hj => hn j (by simp [hj])) k hm

/-- A pass ends by a failure of evaluation if by any. -/
theorem End.staged {stop : Option Stop} (h : End d m ns ns' m' stop) (hn : ∀ n ∈ ns, n.Staged) :
    (∀ n ∈ ns', n.Staged) ∧ ∀ f, stop = some (.failed f) → f.cause.stage = .evaluation := by
  cases h with
  | finished _ _ => exact ⟨hn, by simp⟩
  | interrupted _ _ _ => exact ⟨hn, by simp⟩
  | @failed n f m₁ _ _ hr _ hv =>
    refine ⟨fun k hk => hn k (by simp [hk]), ?_⟩
    intro g hg
    obtain rfl : f = g := by simpa using hg
    have hm := (((hn n (by simp)).settled_of_ready hr).computes d m trivial).2
    rw [hv] at hm
    exact List.mem_singleton.mp hm

end Progress

namespace Tree

variable {σ : Type} {t : Tree}

theorem Staged.evaluate (h : t.Staged) (d : Option (Dispatcher σ)) (w : σ) (cancelled : Bool)
    (interrupts : List Bool) : (t.evaluate d w cancelled interrupts).tree.Staged ∧
      ∀ f, (t.evaluate d w cancelled interrupts).stop = some (.failed f) →
        f.cause.stage = .evaluation := by
  obtain ⟨ks, ks', rest, rest', vs, m', m'', stop, hns, hpass, hend, ho⟩ :=
    Progress.of_cases d interrupts ⟨[t.globals], w, cancelled, []⟩ t.fragments
  have hks : ∀ k ∈ ks, k.Staged := fun k hk => h.fragments k (by simp [hns, hk])
  have hrest : ∀ k ∈ rest, k.Staged := fun k hk => h.fragments k (by simp [hns, hk])
  obtain ⟨hend, hstop⟩ := hend.staged hrest
  simp only [Tree.evaluate, ho]
  refine ⟨⟨?_, h.path⟩, hstop⟩
  intro n hn
  rcases List.mem_append.mp hn with hn | hn
  · exact hpass.staged hks n hn
  · exact hend n hn

end Tree

namespace Run

variable {σ : Type}

/-- A run on trees that are staged, with failures of its calls' own stages only. -/
structure Staged (r : Run σ) : Prop where
  tree : r.tree.Staged
  reports : ∀ p ∈ r.reports, ∀ f ∈ p.2, f.cause.stage ∈ Cause.Stage.insertion
  stops : ∀ f, some (.failed f) ∈ r.stops → f.cause.stage = .evaluation

theorem Staged.step {r : Run σ} (h : r.Staged) (d : Option (Dispatcher σ)) (c : Call) :
    (r.step d c).Staged := by
  have hreport : ∀ s : Step, s.Staged → ∀ p ∈ r.reports ++ [(s.events, s.failure)], ∀ f ∈ p.2,
      f.cause.stage ∈ Cause.Stage.insertion := by
    intro s hs p hp
    rcases List.mem_append.mp hp with hp | hp
    · exact h.reports p hp
    · obtain rfl := List.mem_singleton.mp hp
      exact hs.stage
  cases c with
  | insert tok =>
    have hs := h.tree.insert tok
    exact ⟨hs.tree, hreport _ hs, h.stops⟩
  | reset =>
    have hs := h.tree.reset
    exact ⟨hs.tree, hreport _ hs, h.stops⟩
  | evaluate cancelled interrupts =>
    obtain ⟨hs, hstop⟩ := h.tree.evaluate d r.world cancelled interrupts
    refine ⟨hs, h.reports, ?_⟩
    intro f hf
    rcases List.mem_append.mp hf with hf | hf
    · exact h.stops f hf
    · exact hstop f (List.mem_singleton.mp hf).symm

theorem staged (d : Option (Dispatcher σ)) (w : σ) (cs : List Call) : (of d w cs).Staged :=
  invariant ⟨⟨by simp, by simp⟩, by simp, by simp⟩ (fun _ c h => h.step d c) cs

/-- No guard ever fires: insertions fail for nesting, shape, priorities or declarations, evaluations
for the values they meet or the dispatcher, and nothing is looked for where it is absent. -/
theorem guards_never_fire (d : Option (Dispatcher σ)) (w : σ) (cs : List Call) :
    (∀ p ∈ (of d w cs).reports, ∀ f ∈ p.2,
      f.cause.stage ∈ [.nesting, .shape, .precedence, .scope] ∧ f.cause.stage ≠ .guard) ∧
    ∀ f, some (.failed f) ∈ (of d w cs).stops →
      f.cause.stage = .evaluation ∧ f.cause.stage ≠ .guard := by
  have h := staged d w cs
  constructor
  · intro p hp f hf
    have hs := h.reports p hp f hf
    refine ⟨hs, ?_⟩
    rintro hg
    rw [hg] at hs
    simp [Cause.Stage.insertion, Cause.Stage.checks] at hs
  · intro f hf
    have hs := h.stops f hf
    exact ⟨hs, by rw [hs]; simp⟩

end Run

theorem Tree.Reachable.staged {t : Tree} (h : t.Reachable) : t.Staged := by
  obtain ⟨σ, d, w, cs, rfl⟩ := h
  exact (Run.staged d w cs).tree

/-! The operators of a settled tree. -/

namespace Node

variable {n m : Node}

theorem Settled.seated (h : n.Settled) (ho : n.label.isOperator = true) :
    n.label.Seated (n.kids.map label) := by
  obtain ⟨l, ks⟩ := n
  obtain ⟨⟨⟨b, hord⟩, -⟩, -⟩ := settled_mk.mp h
  exact hord.seated ho

theorem Settled.kids (h : n.Settled) : ∀ k ∈ n.kids, k.Settled := by
  obtain ⟨l, ks⟩ := n
  exact (settled_mk.mp h).2

theorem Settled.subtree (h : n.Settled) (hm : m ∈ n.subtrees) : m.Settled := by
  induction n using induct with
  | h l ks ih =>
    rcases mem_subtrees_mk.mp hm with rfl | ⟨k, hk, hm⟩
    · exact h
    · exact ih k hk (h.kids k hk) hm

/-- Only what has been through the phases as a whole is analyzed. -/
theorem Upper.subtree (h : n.Upper Label.Planted) (hm : m ∈ n.subtrees)
    (ha : m.flags.analyzed = true) : m.Settled := by
  induction n using induct with
  | h l ks ih =>
    obtain ⟨hl, hk⟩ := upper_mk.mp h
    rcases mem_subtrees_mk.mp hm with rfl | ⟨k, hmem, hm⟩
    · rw [flags_mk, hl.flags] at ha
      cases ha
    · rcases hk k hmem with hu | ⟨-, hs⟩
      · exact ih k hmem hu hm
      · exact hs.subtree hm

theorem Staged.subtree (h : n.Staged) (hm : m ∈ n.subtrees) (ha : m.flags.analyzed = true) :
    m.Settled := by
  rcases h with hs | hu
  · exact hs.subtree hm
  · exact hu.subtree hm ha

end Node

end TokenShell
