import TokenShell.Proofs.Depth
import TokenShell.Proofs.Derivation

/-! The openers that tokens leave unmatched. They are the openers of the nodes that are open in the
tree, and there are as many of them as the lines leave open by their depth. -/
namespace TokenShell

/-- One more token after some unmatched openers, the innermost first. A closer must match that one.
-/
def matchToken (opens : List Marker) (tok : Token) : Option (List Marker) :=
  match tok.kind with
  | .marker m =>
    if m.isOpener then some (m :: opens)
    else if m.isCloser then
      match opens with
      | [] => none
      | o :: opens => if o.closer? = some m then some opens else none
    else some opens
  | _ => some opens

/-- The openers that tokens leave unmatched, the outermost first; none if a closer has no opener. -/
def unmatched (toks : List Token) : Option (List Marker) :=
  (toks.foldlM matchToken []).map List.reverse

section Matching

variable {tok : Token} {toks more : List Token} {opens opens' : List Marker}

theorem unmatched_eq_some : unmatched toks = some opens ↔
    toks.foldlM matchToken [] = some opens.reverse := by
  rw [unmatched, Option.map_eq_some_iff]
  constructor
  · rintro ⟨a, ha, rfl⟩
    rw [ha, List.reverse_reverse]
  · intro h
    exact ⟨_, h, List.reverse_reverse opens⟩

theorem unmatched_concat (h : unmatched toks = some opens)
    (hm : matchToken opens.reverse tok = some opens'.reverse) :
    unmatched (toks ++ [tok]) = some opens' := by
  rw [unmatched_eq_some] at h ⊢
  rw [List.foldlM_append, h]
  simpa using hm

/-- What is matched does not matter. -/
theorem unmatched_append (h : unmatched toks = some []) (more : List Token) :
    unmatched (toks ++ more) = unmatched more := by
  rw [unmatched_eq_some] at h
  rw [unmatched, unmatched, List.foldlM_append, h]
  rfl

theorem length_matchToken (h : matchToken opens tok = some opens') :
    (opens'.length : Int) = opens.length + tok.nesting := by
  rw [matchToken] at h
  rw [Token.nesting]
  cases hk : tok.kind with
  | marker m =>
    rw [hk] at h
    cases m with
    | openGroup | openBlock | openCommand =>
      obtain rfl := Option.some.inj h
      rfl
    | terminator =>
      obtain rfl := Option.some.inj h
      exact (Int.add_zero _).symm
    | closeGroup | closeBlock | closeCommand =>
      cases opens with
      | nil => cases h
      | cons o opens =>
        change (if o.closer? = _ then some opens else none) = some opens' at h
        split at h
        · obtain rfl := Option.some.inj h
          change (opens.length : Int) = ((opens.length + 1 : Nat) : Int) + -1
          omega
        · cases h
  | _ =>
    rw [hk] at h
    obtain rfl := Option.some.inj h
    exact (Int.add_zero _).symm

/-- The openers are counted. -/
theorem length_unmatched (h : unmatched toks = some opens) :
    (opens.length : Int) = (toks.map Token.nesting).sum := by
  rw [unmatched_eq_some] at h
  have hcount : ∀ start, toks.foldlM matchToken start = some opens.reverse →
      (opens.length : Int) = start.length + (toks.map Token.nesting).sum := by
    clear h
    induction toks with
    | nil =>
      intro start h
      obtain rfl := Option.some.inj h
      simp
    | cons tok toks ih =>
      intro start h
      rw [List.foldlM_cons] at h
      obtain ⟨next, hnext, hrest⟩ := Option.bind_eq_some_iff.mp h
      have hstep := length_matchToken hnext
      rw [ih next hrest, hstep, List.map_cons, List.sum_cons, Int.add_assoc]
  simpa using hcount [] h

end Matching

/-! The open nodes of a tree. -/

namespace Nesting

variable {s s' : Nesting} {o : Token × Nat}

/-- The openers that are unmatched, the innermost first. -/
def opens (s : Nesting) : List Marker :=
  (if s.awaits then [.openGroup] else []) ++ s.path.filterMap (·.label.opener)

theorem opens_push (s : Nesting) (n : Node) : (s.push n).opens = s.opens := by
  unfold push
  split
  · next hp => simp [opens, hp]
  · next p path hp =>
    have hlabel : (p.push n).label = p.label := rfl
    simp [opens, hp, List.filterMap_cons, hlabel]

theorem opens_close {m : Marker} (hm : m.isCloser = true) (hk : o.1.kind = .marker m)
    (h : s.close m = some s') : matchToken s.opens o.1 = some s'.opens := by
  have hopener : m.isOpener = false := by cases m <;> simp_all [Marker.isCloser, Marker.isOpener]
  unfold close at h
  split at h
  · cases h
  · next ha =>
    split at h
    · cases h
    · next p path hp =>
      split at h
      · next hc =>
        obtain rfl := Option.some.inj h
        rw [opens_push]
        obtain ⟨q, hq, hcloser⟩ : ∃ q, p.label.opener = some q ∧ q.closer? = some m := by
          simpa [Node.closedBy, Option.any_eq_true] using hc
        simp [matchToken, hk, hopener, hm, opens, ha, hp, hq, hcloser]
      · cases h

/-- A token matches as it nests. -/
theorem matchToken_opens (h : s.step o = some s') : matchToken s.opens o.1 = some s'.opens := by
  cases hk : o.1.kind with
  | marker m =>
    cases m with
    | openGroup =>
      simp only [step, hk] at h
      split at h
      · cases h
      · next ha =>
        obtain rfl := Option.some.inj h
        simp [matchToken, hk, Marker.isOpener, opens, ha]
    | openBlock | openCommand =>
      simp only [step, hk] at h
      split at h
      · cases h
      · next ha =>
        obtain rfl := Option.some.inj h
        simp [matchToken, hk, Marker.isOpener, opens, ha, enter, Node.bare]
    | terminator =>
      simp only [step, hk] at h
      split at h
      · cases h
      · obtain rfl := Option.some.inj h
        simp [matchToken, hk, Marker.isOpener, Marker.isCloser]
    | closeGroup | closeBlock | closeCommand =>
      rw [step_closer hk rfl] at h
      exact opens_close rfl hk h
  | _ =>
    have hplain : o.1.Plain := fun m hm => by cases hk.symm.trans hm
    have hsame : matchToken s.opens o.1 = some s.opens := by rw [matchToken, hk]
    rw [hsame]
    rw [step_plain hplain] at h
    -- A head takes the place of the parenthesis that waits for it.
    split at h
    · next ha =>
      obtain rfl := Option.some.inj h
      simp [opens, ha, enter, Node.bare]
    · obtain rfl := Option.some.inj h
      rw [opens_push]

end Nesting

namespace Tree

variable {t : Tree} {tok : Token} {toks : List Token}

/-- The openers of the open nodes, the outermost first, and the parenthesis that waits for a head.
-/
def openers (t : Tree) : List Marker :=
  t.path.reverse.filterMap (·.label.opener) ++ if t.expectHead then [.openGroup] else []

theorem Mirrors.openers {s : Nesting} (h : t.Mirrors s) : t.openers.reverse = s.opens := by
  have hpath : t.path.filterMap (·.label.opener) = s.path.filterMap (·.label.opener) := by
    have hforall := h.path
    generalize t.path = ns at hforall
    generalize s.path = bs at hforall
    induction hforall with
    | nil => rfl
    | cons hn _ ih => rw [List.filterMap_cons, List.filterMap_cons, hn.opener, ih]
  rw [Tree.openers, h.expectHead, Nesting.opens, List.reverse_append, List.filterMap_reverse,
    List.reverse_reverse, hpath]
  cases s.awaits <;> rfl

theorem mirrors_self (t : Tree) : t.Mirrors ⟨t.fragments, t.path, t.expectHead⟩ :=
  ⟨rfl, List.forall₂_same.mpr fun _ _ => ⟨rfl, rfl, rfl⟩, rfl⟩

/-- A token that is inserted matches as it is to. -/
theorem unmatched_insert (h : unmatched toks = some t.openers) (hst : t.Staged)
    (hf : (t.insert tok).failure = none) :
    unmatched (toks ++ [tok]) = some (t.insert tok).tree.openers := by
  obtain ⟨s, hs, hm⟩ := (t.mirrors_self.agrees_insert hst tok).taken hf
  refine unmatched_concat h ?_
  rw [t.mirrors_self.openers, hm.openers]
  exact Nesting.matchToken_opens hs

theorem openers_evaluate {σ : Type} (t : Tree) (d : Option (Dispatcher σ)) (w : σ)
    (cancelled : Bool) (interrupts : List Bool) :
    (t.evaluate d w cancelled interrupts).tree.openers = t.openers := rfl

end Tree

end TokenShell
