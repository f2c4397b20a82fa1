import TokenShell.Proofs.Nesting
import TokenShell.Proofs.Staging

/-! Inserting tokens accepts the grammar of nesting and builds the derivation of what was inserted.
-/
namespace TokenShell

/-- A tree as it is read: the operators of a chain stand between their operands, and every other
node has its children below it. -/
inductive Layout where
  | operator (label : Label)
  | node (label : Label) (parts : List (List Layout))

def layoutStep (l : Label) (parts : List (List Layout)) : List Layout :=
  if l.isOperator && !l.isGrouping then
    match parts with
    | [x] => .operator l.seed :: x
    | [x, y] => x ++ .operator l.seed :: y
    | _ => [.node l.seed parts]
  else [.node l.seed parts]

namespace Label

theorem seed_seed (l : Label) : l.seed.seed = l.seed := by
  simp only [seed]
  cases l.form <;> rfl

theorem isBlock_seed (l : Label) : l.seed.isBlock = l.isBlock := by
  simp only [isBlock, seed]
  cases l.form <;> rfl

end Label

theorem layoutStep_seed (l : Label) : layoutStep l.seed = layoutStep l := by
  funext parts
  unfold layoutStep
  rw [Label.isOperator_seed, Label.isGrouping_seed, Label.seed_seed]

theorem layout_faithful : Faithful (fun l => [.operator l.seed]) layoutStep where
  seed := layoutStep_seed
  unary l x ho hg := by simp [layoutStep, ho, hg]
  binary l x y ho hg := by simp [layoutStep, ho, hg]

namespace Node

variable {n m b k : Node} {ks : List Node}

def layout (n : Node) : List Layout := n.fold layoutStep

/-- An open node and one of a derivation: made by the same tokens, with the same items below. -/
structure Mirrors (n b : Node) : Prop where
  seed : n.label.seed = b.label.seed
  opener : n.label.opener = b.label.opener
  items : n.kids.map layout = b.kids.map layout

theorem layout_eq (n : Node) : n.layout = layoutStep n.label.seed (n.kids.map layout) := by
  obtain ⟨l, ks⟩ := n
  rw [layoutStep_seed, layout, fold_mk]
  rfl

theorem Mirrors.layout (h : n.Mirrors b) : n.layout = b.layout := by
  rw [layout_eq, layout_eq, h.seed, h.items]

theorem Mirrors.isBlock (h : n.Mirrors b) : n.isBlock = b.isBlock := by
  rw [← isBlock_label, ← isBlock_label, ← Label.isBlock_seed, h.seed, Label.isBlock_seed]

theorem Mirrors.closedBy (h : n.Mirrors b) (m : Marker) : n.closedBy m = b.closedBy m := by
  rw [Node.closedBy, Node.closedBy, h.opener]

theorem Mirrors.push (h : n.Mirrors b) (hk : m.layout = k.layout) :
    (n.push m).Mirrors (b.push k) := by
  refine ⟨h.seed, h.opener, ?_⟩
  simp only [Node.push, kids_mk, List.map_append, h.items]
  simp [hk]

theorem Mirrors.shut (h : n.Mirrors b) (time : Nat) : (n.shut time).Mirrors b :=
  ⟨h.seed, h.opener, h.items⟩

theorem Mirrors.setScope (h : n.Mirrors b) (hk : ks.map Node.layout = n.kids.map Node.layout)
    (s : Scope) : ((Node.mk n.label ks).setScope s).Mirrors b := by
  have ho : ((Node.mk n.label ks).setScope s).label.opener = n.label.opener := by
    unfold Node.setScope
    split <;> rfl
  have hi : ((Node.mk n.label ks).setScope s).kids = ks := by
    unfold Node.setScope
    split <;> rfl
  refine ⟨?_, by rw [ho, h.opener], by rw [hi, hk, h.items]⟩
  rw [seed_setScope]
  exact h.seed

theorem mirrors_sprout (tok : Token) (serial : Nat) (site : Site) (opener : Option Marker) :
    (sprout tok serial site opener).Mirrors (.bare (tok, serial) opener []) :=
  ⟨seed_sprout tok serial site opener, rfl, rfl⟩

end Node

namespace Tree

variable {t : Tree} {s : Nesting} {tok : Token} {n b : Node}

/-- A tree that is the given derivation: it has the same items at the root, and the open nodes of
the derivation are those from the cursor to the root. -/
structure Mirrors (t : Tree) (s : Nesting) : Prop where
  fragments : t.fragments.map Node.layout = s.roots.map Node.layout
  path : List.Forall₂ Node.Mirrors t.path s.path
  expectHead : t.expectHead = s.awaits

/-- Both paths are empty, or both have a first node. -/
theorem Mirrors.path_cases (h : t.Mirrors s) : t.path = [] ∧ s.path = [] ∨
    ∃ n b path path', t.path = n :: path ∧ s.path = b :: path' ∧ n.Mirrors b ∧
      List.Forall₂ Node.Mirrors path path' := by
  have hp := h.path
  cases ht : t.path with
  | nil =>
    rw [ht] at hp
    exact Or.inl ⟨rfl, List.forall₂_nil_left_iff.mp hp⟩
  | cons n path =>
    rw [ht] at hp
    obtain ⟨b, path', hn, hrest, hs⟩ := List.forall₂_cons_left_iff.mp hp
    exact Or.inr ⟨n, b, path, path', rfl, hs, hn, hrest⟩

theorem Mirrors.atScope (h : t.Mirrors s) : t.atScope = s.inScope := by
  rcases h.path_cases with ⟨ht, hs⟩ | ⟨n, b, path, path', ht, hs, hn, -⟩
  · simp only [Tree.atScope, Nesting.inScope, ht, hs]
  · simp only [Tree.atScope, Nesting.inScope, ht, hs]
    exact hn.isBlock

theorem Mirrors.append (h : t.Mirrors s) (hn : n.layout = b.layout) :
    (t.append n).Mirrors (s.push b) := by
  rcases h.path_cases with ⟨ht, hs⟩ | ⟨p, q, path, path', ht, hs, hq, hrest⟩
  · simp only [Tree.append, Nesting.push, ht, hs]
    refine ⟨?_, ?_, h.expectHead⟩
    · simp [h.fragments, hn]
    · simp
  · simp only [Tree.append, Nesting.push, ht, hs]
    exact ⟨h.fragments, .cons (hq.push hn) hrest, h.expectHead⟩

theorem Mirrors.flush (h : t.Mirrors s) : t.flush.tree.Mirrors s := by
  rcases flush_cases t with ⟨-, js, new, he, hj⟩ | ⟨n, path, js, scope, hp, he, hj, -⟩
  · rw [he]
    exact ⟨(Flushed.fold_passed layout_faithful hj).trans h.fragments, h.path, h.expectHead⟩
  · have hpath := h.path
    rw [hp] at hpath
    obtain ⟨b, path', hb, hrest, hs⟩ := List.forall₂_cons_left_iff.mp hpath
    rw [he]
    refine ⟨h.fragments, ?_, h.expectHead⟩
    rw [hs]
    exact .cons (hb.setScope (Flushed.fold_passed layout_faithful hj) scope) hrest

end Tree

/-- A step and one more token of a word: the step goes on as the derivation does, or it fails, for
the nesting only where the word does not go on. -/
structure Step.Agrees (r : Step) (o : Option Nesting) : Prop where
  taken : r.failure = none → ∃ s, o = some s ∧ r.tree.Mirrors s
  refused : ∀ f, r.failure = some f → f.cause.stage = .nesting → o = none

/-- What a step reports does not matter. -/
theorem Step.Agrees.withEvents {r : Step} {o : Option Nesting} (h : r.Agrees o)
    (events : List Event) : Step.Agrees { r with events } o :=
  ⟨h.taken, h.refused⟩

namespace Tree

variable {t : Tree} {s : Nesting} {tok : Token} {n b : Node} {m : Marker}

theorem agrees_ok {r : Step} (hr : r.failure = none) (h : r.tree.Mirrors s) :
    r.Agrees (some s) := by
  refine ⟨fun _ => ⟨s, rfl, h⟩, ?_⟩
  intro f hf
  rw [hr] at hf
  cases hf

theorem agrees_refuse (t : Tree) (c : Cause) : (t.refuse c).Agrees none := by
  refine ⟨?_, fun _ _ _ => rfl⟩
  intro hf
  cases hf

/-- Checks of fragments are no matter of nesting. -/
theorem Mirrors.agrees_flush (h : t.Mirrors s) (hst : t.Staged) : t.flush.Agrees (some s) := by
  refine ⟨fun _ => ⟨s, rfl, h.flush⟩, ?_⟩
  intro f hf hn
  have hc := hst.flush_failure f hf
  rw [hn] at hc
  simp [Cause.Stage.checks] at hc

theorem Mirrors.agrees_closeCursor (h : t.Mirrors s) (hst : t.Staged) {path : List Node}
    (hp : s.path = b :: path) : t.closeCursor.Agrees (some ({ s with path }.push b)) := by
  have hpath := h.path
  rw [hp] at hpath
  obtain ⟨n, path', hn, hrest, ht⟩ := List.forall₂_cons_right_iff.mp hpath
  have hleft : t.leave.Mirrors ({ s with path }.push b) := by
    rw [leave_cons ht]
    exact Mirrors.append ⟨h.fragments, hrest, h.expectHead⟩ (hn.shut _).layout
  rw [closeCursor_cons ht]
  split
  · exact hleft.agrees_flush hst.leave
  · exact agrees_ok rfl hleft

theorem Mirrors.agrees_close (h : t.Mirrors s) (hst : t.Staged) (tok : Token) (m : Marker) :
    (t.close tok m).Agrees (s.close m) := by
  unfold Tree.close Nesting.close
  rw [h.expectHead]
  split
  · exact agrees_refuse t _
  · rcases h.path_cases with ⟨ht, hp⟩ | ⟨n, b, path', path, ht, hp, hn, -⟩
    · simp only [ht, hp]
      exact agrees_refuse t _
    · simp only [ht, hp, hn.closedBy]
      cases hc : b.closedBy m with
      | false => exact agrees_refuse t _
      | true =>
        simp only [Bool.not_true, Bool.false_eq_true, if_false, if_true]
        split
        · next hm =>
          -- A block is flushed before it is closed, and fails there by a check only.
          subst hm
          have hs := hst.flush (hst.atScope_of_closedBy ht (hn.closedBy _ ▸ hc))
          have hf := h.agrees_flush hst
          unfold Step.next
          split
          · next f hfail =>
            refine ⟨fun hnone => ?_, fun g hg hn => ?_⟩
            · cases hfail.symm.trans hnone
            · cases hf.refused g hg hn
          · exact (h.flush.agrees_closeCursor hs.tree hp).withEvents _
        · exact h.agrees_closeCursor hst hp

theorem Mirrors.agrees_leaf (h : t.Mirrors s) (hst : t.Staged) (tok : Token) :
    (t.attach tok none).Agrees (some (s.push (.bare (tok, t.clock) none []))) := by
  obtain ⟨site, hleaf, -⟩ := hst.attach_eq tok
  rw [hleaf]
  exact agrees_ok rfl (h.append (Node.mirrors_sprout tok t.clock site none).layout)

theorem Mirrors.agrees_enter (h : t.Mirrors s) (hst : t.Staged) (tok : Token) (m : Marker) :
    (t.attach tok (some m)).Agrees (some (s.enter (.bare (tok, t.clock) (some m) []))) := by
  obtain ⟨site, -, hopened⟩ := hst.attach_eq tok
  rw [hopened]
  exact agrees_ok rfl
    ⟨h.fragments, .cons (Node.mirrors_sprout tok t.clock site (some m)) h.path, rfl⟩

/-- A token that is no marker is always taken. -/
theorem Mirrors.agrees_plain (h : t.Mirrors s) (hst : t.Staged) (hk : tok.Plain) :
    (t.grow tok).Agrees (s.step (tok, t.clock)) := by
  rw [Nesting.step_plain hk]
  unfold Tree.grow
  rw [h.expectHead]
  cases s.awaits with
  | true => exact (h.agrees_enter hst tok .openGroup).withEvents _
  | false =>
    cases hm : tok.kind with
    | marker m => exact (hk m hm).elim
    | _ => exact (h.agrees_leaf hst tok).withEvents _

/-- A token is refused for its place just where the word does not go on. -/
theorem Mirrors.agrees_place (h : t.Mirrors s) (hst : t.Staged) (tok : Token) :
    (t.place tok).Agrees (s.step (tok, t.clock)) := by
  cases hk : tok.kind with
  | marker m =>
    cases m with
    | openGroup =>
      simp only [Tree.place, Nesting.step, hk, h.expectHead]
      split
      · exact agrees_refuse t _
      · exact agrees_ok rfl ⟨h.fragments, h.path, rfl⟩
    | terminator =>
      simp only [Tree.place, Nesting.step, hk, Tree.terminate, h.expectHead, h.atScope]
      cases s.awaits with
      | true => exact agrees_refuse t _
      | false =>
        cases s.inScope with
        | false => exact agrees_refuse t _
        | true => exact h.agrees_flush hst
    | openBlock | openCommand =>
      simp only [Tree.place, Nesting.step, hk, Tree.grow, h.expectHead]
      split
      · exact agrees_refuse t _
      · exact (h.agrees_enter hst tok _).withEvents _
    | closeGroup | closeBlock | closeCommand =>
      simp only [Tree.place, hk]
      rw [Nesting.step_closer hk rfl]
      exact h.agrees_close hst tok _
  | _ =>
    simp only [Tree.place, hk]
    exact h.agrees_plain hst fun m hm => by cases hk.symm.trans hm

theorem Mirrors.agrees_insert (h : t.Mirrors s) (hst : t.Staged) (tok : Token) :
    (t.insert tok).Agrees (s.step (tok, t.clock + 1)) := by
  have hp := Mirrors.agrees_place (t := { t with clock := t.clock + 1 })
    ⟨h.fragments, h.path, h.expectHead⟩ ⟨hst.fragments, hst.path⟩ tok
  rcases insert_tree t tok with ⟨hf, ht, hi⟩ | ⟨f, hf, -, hi⟩
  · obtain ⟨s', hs, hm⟩ := hp.taken hf
    have hs : s.step (tok, t.clock + 1) = some s' := hs
    rw [hs]
    exact agrees_ok hi (ht ▸ hm)
  · constructor
    · intro hnone
      cases hi.symm.trans hnone
    · intro g hg hn
      obtain rfl : f.withToken tok = g := Option.some.inj (hi.symm.trans hg)
      exact hp.refused f hf hn

/-- The tokens are taken as the machine takes them, up to the first failure. -/
theorem Mirrors.agrees_insertAll (h : t.Mirrors s) (hst : t.Staged) (toks : List Token) :
    (t.insertAll toks).Agrees (s.run (toks.zipIdx (t.clock + 1))) := by
  induction toks generalizing t s with
  | nil => exact agrees_ok rfl h
  | cons tok toks ih =>
    have hi := h.agrees_insert hst tok
    rw [insertAll, Step.next, List.zipIdx_cons]
    cases hf : (t.insert tok).failure with
    | none =>
      obtain ⟨s', hs, hm⟩ := hi.taken hf
      have hrest := ih hm (hst.insert tok).tree
      rw [clock_insert] at hrest
      rw [Nesting.run_cons hs]
      exact hrest.withEvents _
    | some f =>
      constructor
      · intro hnone
        cases hf.symm.trans hnone
      · intro g hg hn
        exact Nesting.run_none (hi.refused g hg hn)

theorem insertAll_failure_append {f : Failure} {pre : List Token}
    (h : (t.insertAll pre).failure = some f) (post : List Token) :
    (t.insertAll (pre ++ post)).failure = some f := by
  induction pre generalizing t with
  | nil => cases h
  | cons tok pre ih =>
    rw [List.cons_append]
    rw [insertAll, Step.next] at h ⊢
    cases hf : (t.insert tok).failure with
    | some g =>
      rw [hf] at h
      exact h
    | none =>
      rw [hf] at h
      exact ih h

/-- No fragment fails a check while the tokens are inserted. -/
def ChecksPass (t : Tree) (toks : List Token) : Prop :=
  ∀ f ∈ (t.insertAll toks).failure, f.cause.stage ∉ Cause.Stage.checks

theorem ChecksPass.of_append {pre post : List Token} (h : t.ChecksPass (pre ++ post)) :
    t.ChecksPass pre :=
  fun f hf => h f (insertAll_failure_append hf post)

theorem mirrors_empty : Mirrors {} {} := ⟨rfl, .nil, rfl⟩

theorem staged_empty : Staged {} := ⟨by simp, by simp⟩

/-- Where fragments pass their checks, the tokens are inserted without failure exactly if they can
be continued to a word. -/
theorem ChecksPass.accepts_iff {toks : List Token} (h : ChecksPass {} toks) :
    (insertAll {} toks).failure = none ↔ Viable toks := by
  have ha : (insertAll {} toks).Agrees (Nesting.run {} (toks.zipIdx 1)) :=
    mirrors_empty.agrees_insertAll staged_empty toks
  rw [viable_iff]
  cases hf : (insertAll {} toks).failure with
  | none =>
    obtain ⟨s, hs, -⟩ := ha.taken hf
    exact ⟨fun _ => ⟨s, hs⟩, fun _ => rfl⟩
  | some f =>
    have hstage := (staged_empty.insertAll toks).stage f hf
    have hn : f.cause.stage = .nesting := (List.mem_cons.mp hstage).resolve_right (h f hf)
    constructor
    · intro hnone
      cases hnone
    · rintro ⟨s, hs⟩
      rw [ha.refused f hf hn] at hs
      cases hs

/-- Where fragments pass their checks, insertion accepts exactly the grammar of nesting, fails at
the first token that no word continues, and builds the derivation, with the cursor at the innermost
open node. -/
theorem insertAll_follows_grammar (toks : List Token) (h : ChecksPass {} toks) :
    (∀ pre tok post, toks = pre ++ tok :: post →
      ((insertAll {} pre).failure = none ∧ (insertAll {} (pre ++ [tok])).failure ≠ none ↔
        Viable pre ∧ ¬ Viable (pre ++ [tok]))) ∧
    ((insertAll {} toks).failure = none →
      ∃ s, Unfinished (toks.zipIdx 1) s ∧ (∀ s', Unfinished (toks.zipIdx 1) s' → s' = s) ∧
        (insertAll {} toks).tree.Mirrors s) := by
  constructor
  · rintro pre tok post rfl
    have hnext : ChecksPass {} (pre ++ [tok]) := by
      apply ChecksPass.of_append
      rwa [List.append_assoc]
    rw [h.of_append.accepts_iff, Ne, hnext.accepts_iff]
  · intro hf
    have ha : (insertAll {} toks).Agrees (Nesting.run {} (toks.zipIdx 1)) :=
      mirrors_empty.agrees_insertAll staged_empty toks
    obtain ⟨s, hs, hm⟩ := ha.taken hf
    refine ⟨s, .of_run hs, ?_, hm⟩
    intro s' h'
    exact Option.some.inj (h'.run.symm.trans hs)

/-- A block with the chain `2 * 3 + 4`, all of it nested to the right, and then an open command. -/
def chainThenCommand : List Token :=
  [⟨"\x7b", []⟩, ⟨"(", []⟩, ⟨"STAR", []⟩, ⟨"INT", "2"⟩, ⟨"(", []⟩, ⟨"PLUS", []⟩, ⟨"INT", "3"⟩,
    ⟨"INT", "4"⟩, ⟨")", []⟩, ⟨")", []⟩, ⟨"[", []⟩]

theorem insertAll_follows_grammar_chainThenCommand :
    (ChecksPass {} (chainThenCommand ++ [⟨")", []⟩]) ∧ Viable chainThenCommand ∧
      ¬ Viable (chainThenCommand ++ [⟨")", []⟩])) ∧
    ChecksPass {} chainThenCommand ∧
      ∃ s, Unfinished (chainThenCommand.zipIdx 1) s ∧
        (insertAll {} chainThenCommand).tree.Mirrors s := by
  have hwrong : ChecksPass {} (chainThenCommand ++ [⟨")", []⟩]) := by
    unfold ChecksPass
    decide +kernel
  have hpass : ChecksPass {} chainThenCommand := hwrong.of_append
  have hfirst : (insertAll {} chainThenCommand).failure = none ∧
      (insertAll {} (chainThenCommand ++ [⟨")", []⟩])).failure ≠ none := by
    decide +kernel
  have hviable := ((insertAll_follows_grammar _ hwrong).1 _ _ [] rfl).mp hfirst
  obtain ⟨s, hs, -, hm⟩ := (insertAll_follows_grammar _ hpass).2 hfirst.1
  exact ⟨⟨hwrong, hviable⟩, hpass, s, hs, hm⟩

end Tree

end TokenShell
