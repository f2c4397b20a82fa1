import TokenShell.Proofs.Cascade
import TokenShell.Proofs.Stage

/-! How a tree grows: what placing a token can do to it, and what is kept on the way. -/
namespace TokenShell

/-- Where a node is attached: the numbers of its parent and of its block. -/
structure Node.Site where
  parent : Nat
  block : Nat

/-- The node a token makes, attached and set up. -/
def Node.sprout (tok : Token) (serial : Nat) (site : Node.Site) (opener : Option Marker) : Node :=
  .mk
    { Label.ofToken tok serial with
      form := (Form.ofToken tok).link serial site.block
      opener
      flags := { setup := true }
      parent := some site.parent
      block := some site.block }
    []

/-- The node closed at a time. -/
def Node.shut (n : Node) (time : Nat) : Node := n.setLabel { n.label with closedAt := some time }

namespace Tree

variable {t u : Tree} {tok : Token} {n : Node} {path : List Node}

/-- Closes the cursor node and moves to its parent. -/
def leave (t : Tree) : Tree :=
  match t.path with
  | [] => t
  | n :: path => { t with path }.append (n.shut t.clock)

theorem leave_cons (h : t.path = n :: path) :
    t.leave = { t with path }.append (n.shut t.clock) := by
  rw [leave, h]

theorem closeCursor_cons (h : t.path = n :: path) :
    t.closeCursor = if t.leave.atScope then t.leave.flush else { tree := t.leave } := by
  unfold closeCursor leave
  rw [h]
  rfl

/-- The token closes the cursor node of `u`, which is `t` or, if the node is a block, `t` with the
fragments of the block flushed. -/
def Closing (t : Tree) (tok : Token) (u : Tree) : Prop :=
  ∃ n path m, tok.kind = .marker m ∧ u.path = n :: path ∧ n.closedBy m = true ∧
    t.expectHead = false ∧
    (m ≠ .closeBlock ∧ u = t ∨ m = .closeBlock ∧ u = t.flush.tree ∧ t.flush.failure = none)

/-- New nodes are attached at the given place. -/
def At (t : Tree) (site : Node.Site) : Prop :=
  site.parent = t.cursorNumber ∧ t.innerBlock = some site.block

/-- What placing a token can do to a tree. -/
inductive Placed (t : Tree) (tok : Token) : Tree → Option Failure → Prop where
  | refused (f : Failure) (hf : f.cause.stage ≠ .scope) : Placed t tok t (some f)
  | awaiting (hk : tok.kind = .marker .openGroup) : Placed t tok { t with expectHead := true } none
  | leaf (k : Node.Site) (h : ∀ m, tok.kind ≠ .marker m) (hl : t.At k) :
      Placed t tok (t.append (.sprout tok t.clock k none)) none
  | entered (k : Node.Site) (m : Marker)
      (h : tok.kind = .marker m ∧ (m = .openBlock ∨ m = .openCommand) ∨
        m = .openGroup ∧ ∀ m', tok.kind ≠ .marker m') (hl : t.At k) :
      Placed t tok
        { t with path := .sprout tok t.clock k (some m) :: t.path, expectHead := false } none
  | flushed (hk : tok.kind = .marker .terminator) (h : t.atScope = true)
      (he : t.expectHead = false) : Placed t tok t.flush.tree t.flush.failure
  | blocked (f : Failure) (n : Node) (path : List Node) (hp : t.path = n :: path)
      (hc : n.closedBy .closeBlock = true) (hf : t.flush.failure = some f)
      (hk : tok.kind = .marker .closeBlock) (he : t.expectHead = false) :
      Placed t tok t.flush.tree (some f)
  | left (u : Tree) (h : Closing t tok u) (hs : u.leave.atScope = false) : Placed t tok u.leave none
  | delivered (u : Tree) (h : Closing t tok u) (hs : u.leave.atScope = true) :
      Placed t tok u.leave.flush.tree u.leave.flush.failure

theorem flush_path (h : t.path = n :: path) : ∃ js scope,
    t.flush.tree.path = (Node.mk n.label js).setScope scope :: path := by
  simp only [flush, h]
  exact ⟨_, _, rfl⟩

theorem closedBy_setScope (n : Node) (s : Scope) (m : Marker) :
    (n.setScope s).closedBy m = n.closedBy m := by
  unfold Node.setScope
  split <;> rfl

/-- A closing brace matches an opening one only. -/
theorem opener_of_closedBy (h : n.closedBy .closeBlock = true) :
    n.label.opener = some .openBlock := by
  rw [Node.closedBy] at h
  cases hm : n.label.opener with
  | none => simp [hm] at h
  | some m => cases m <;> simp [hm, Marker.closer?] at h ⊢

theorem placed_closeCursor (h : Closing t tok u) :
    t.Placed tok u.closeCursor.tree u.closeCursor.failure := by
  obtain ⟨n, path, m, hk, hp, hrest⟩ := h
  rw [closeCursor_cons hp]
  split
  · next hs => exact .delivered u ⟨n, path, m, hk, hp, hrest⟩ hs
  · next hs => exact .left u ⟨n, path, m, hk, hp, hrest⟩ (by simpa using hs)

theorem placed_close {m : Marker} (hm : tok.kind = .marker m) :
    t.Placed tok (t.close tok m).tree (t.close tok m).failure := by
  unfold close
  split
  · exact .refused _ (by simp [Cause.stage])
  · next he =>
    have he : t.expectHead = false := by simpa using he
    split
    · exact .refused _ (by simp [Cause.stage])
    · next n path hp =>
      split
      · exact .refused _ (by simp [Cause.stage])
      · next hc =>
        have hc : n.closedBy m = true := by simpa using hc
        split
        · next hb =>
          subst hb
          unfold Step.next
          split
          · next f hf =>
            rw [hf]
            exact .blocked f n path hp hc hf hm he
          · next hf =>
            obtain ⟨js, scope, hfp⟩ := flush_path hp
            refine placed_closeCursor ⟨_, _, _, hm, hfp, ?_, he, Or.inr ⟨rfl, rfl, hf⟩⟩
            rw [closedBy_setScope]
            exact hc
        · next hb => exact placed_closeCursor ⟨n, path, m, hm, hp, hc, he, Or.inl ⟨hb, rfl⟩⟩

theorem setUp_ofToken (tok : Token) (serial parent : Nat) (within : Option Nat) :
    (∃ f, ((Node.ofToken tok serial).adopt (some parent)).setUp within = .error f ∧
        f.cause.stage = .guard) ∨
      ∃ b, within = some b ∧ ((Node.ofToken tok serial).adopt (some parent)).setUp within =
        .ok (.sprout tok serial ⟨parent, b⟩ none) := by
  cases within with
  | none => exact Or.inl ⟨_, rfl, rfl⟩
  | some b => exact Or.inr ⟨b, rfl, rfl⟩

theorem placed_grow (h : (∃ m, (tok.kind = .marker m ∧ (m = .openBlock ∨ m = .openCommand)) ∧
      t.expectHead = false) ∨ ∀ m, tok.kind ≠ .marker m) :
    t.Placed tok (t.grow tok).tree (t.grow tok).failure := by
  unfold grow attach
  dsimp only
  split
  · exact .refused _ (by simp [Cause.stage])
  · rcases setUp_ofToken tok t.clock t.cursorNumber t.innerBlock with ⟨f, hf, hg⟩ | ⟨b, hb, hk⟩
    · rw [hf]
      exact .refused f (by simp [hg])
    · have hl : t.At ⟨t.cursorNumber, b⟩ := ⟨rfl, hb⟩
      rw [hk]
      dsimp only
      rcases h with ⟨m, hm, he⟩ | h
      · simp only [he, hm.1]
        exact .entered _ m (Or.inl hm) hl
      · split
        · next ho =>
          split at ho
          · cases ho
          · exact .leaf _ h hl
        · next m ho =>
          split at ho
          · obtain rfl := Option.some.inj ho
            exact .entered _ _ (Or.inr ⟨rfl, h⟩) hl
          · split at ho
            · next m' hm => exact (h m' hm).elim
            · cases ho

theorem placed_place (t : Tree) (tok : Token) :
    t.Placed tok (t.place tok).tree (t.place tok).failure := by
  unfold place
  split
  · next hk =>
    split
    · exact .refused _ (by simp [Cause.stage])
    · exact .awaiting hk
  · next hk =>
    unfold terminate
    split
    · exact .refused _ (by simp [Cause.stage])
    · next he =>
      split
      · exact .refused _ (by simp [Cause.stage])
      · next hs => exact .flushed hk (by simpa using hs) (by simpa using he)
  · next hk => exact placed_close hk
  · next hk => exact placed_close hk
  · next hk => exact placed_close hk
  · next m h1 h2 h3 h4 h5 hk =>
    have hm : m = .openBlock ∨ m = .openCommand := by
      cases m <;> simp at h1 h2 h3 h4 h5 ⊢
    split
    · exact .refused _ (by simp [Cause.stage])
    · next he => exact placed_grow (Or.inl ⟨m, ⟨hk, hm⟩, by simpa using he⟩)
  · next hk => exact placed_grow (Or.inr hk)

/-- A flush at the root passes over the analyzed fragments, and does the same to the others whatever
the cells hold. -/
theorem flush_alike (as bs : List Node) {ps : List Node} (ht : t.path = []) (hu : u.path = [])
    (hft : t.fragments = as ++ ps) (hfu : u.fragments = bs ++ ps)
    (ha : ∀ n ∈ as, n.flags.analyzed = true) (hb : ∀ n ∈ bs, n.flags.analyzed = true)
    (hg : t.globals.Alike u.globals) : ∃ js new events failure,
      t.flush = ⟨{ t with fragments := as ++ js, globals := t.globals.extend new }, events,
        failure⟩ ∧
      u.flush = ⟨{ u with fragments := bs ++ js, globals := u.globals.extend new }, events,
        failure⟩ ∧
      List.Forall₂ (Flushed.Passed (some 0) []) ps js ∧
      (t.globals.Distinct → (t.globals.extend new).Distinct) := by
  obtain ⟨js, new, ev, fl, h1, h2, hj, hd⟩ := Flushed.of_alike (some 0) ps hg .nil
  refine ⟨js, new, ev, fl, ?_, ?_, hj, hd⟩
  · unfold flush
    rw [ht]
    simp only [innerBlock, scopes, ht, hft, Flushed.of_append ha, List.filterMap_nil,
      List.nil_append, h1]
    rfl
  · unfold flush
    rw [hu]
    simp only [innerBlock, scopes, hu, hfu, Flushed.of_append hb, List.filterMap_nil,
      List.nil_append, h2]
    rfl

/-- A flush at an open node changes that node only, and the same way whatever the cells hold. -/
theorem flush_inner (ht : t.path = n :: path) (hu : u.path = n :: path)
    (hg : t.globals.Alike u.globals) : ∃ js scope events failure,
      t.flush = ⟨{ t with path := (Node.mk n.label js).setScope scope :: path }, events, failure⟩ ∧
      u.flush = ⟨{ u with path := (Node.mk n.label js).setScope scope :: path }, events, failure⟩ ∧
      List.Forall₂ (Flushed.Passed n.label.innerBlock t.scopes.tail) n.kids js ∧
      ∀ s, n.scope? = some s → ∃ new, scope = s.extend new := by
  have hl : t.innerBlock = n.label.innerBlock ∧ u.innerBlock = n.label.innerBlock := by
    simp only [innerBlock, ht, hu, and_self]
  unfold flush
  rw [ht, hu]
  simp only [hl.1, hl.2, scopes, ht, hu]
  cases hs : (n :: path).filterMap Node.scope? with
  | nil =>
    -- The node has no scope, so none is put back.
    have hn : ∀ js scope, (Node.mk n.label js).setScope scope = .mk n.label js := by
      intro js scope
      rw [Node.setScope, Node.form_mk]
      split
      · next kind s hf =>
        have hsc : n.scope? = some s := by rw [Node.scope?, Node.form, hf]
        simp [hsc] at hs
      · rfl
    obtain ⟨js, new, ev, fl, h1, h2, hj, -⟩ := Flushed.of_alike n.label.innerBlock n.kids hg .nil
    refine ⟨js, {}, ev, fl, ?_, ?_, hj, fun s hsc => ?_⟩
    · simp only [List.nil_append, h1, hn]
    · simp only [List.nil_append, h2, hn]
    · simp [hsc] at hs
  | cons s os =>
    have hos : List.Forall₂ Scope.Alike (os ++ [t.globals]) (os ++ [u.globals]) :=
      List.rel_append (R := Scope.Alike) (List.forall₂_same.mpr fun _ _ => .refl _) (.cons hg .nil)
    obtain ⟨js, new, ev, fl, h1, h2, hj, -⟩ :=
      Flushed.of_alike n.label.innerBlock n.kids (.refl s) hos
    refine ⟨js, s.extend new, ev, fl, ?_, ?_, hj, fun u hsc => ⟨new, ?_⟩⟩
    · simp only [List.cons_append, h1]
      rfl
    · simp only [List.cons_append, h2]
      rfl
    · rw [List.filterMap_cons, hsc] at hs
      rw [(List.cons.inj hs).1]

/-- What a flush does to the tree. -/
theorem flush_cases (t : Tree) :
    (t.path = [] ∧ ∃ js new,
      t.flush.tree = { t with fragments := js, globals := t.globals.extend new } ∧
      List.Forall₂ (Flushed.Passed (some 0) []) t.fragments js) ∨
    ∃ n path js scope, t.path = n :: path ∧
      t.flush.tree = { t with path := (Node.mk n.label js).setScope scope :: path } ∧
      List.Forall₂ (Flushed.Passed n.label.innerBlock t.scopes.tail) n.kids js ∧
      ∀ s, n.scope? = some s → ∃ new, scope = s.extend new := by
  cases hp : t.path with
  | nil =>
    obtain ⟨js, new, ev, fl, he, -, hj, -⟩ :=
      flush_alike [] [] hp hp rfl rfl (by simp) (by simp) (.refl _)
    exact Or.inl ⟨rfl, js, new, by simp [he, hp], hj⟩
  | cons n path =>
    obtain ⟨js, scope, ev, fl, he, -, hj, hs⟩ := flush_inner hp hp (.refl _)
    exact Or.inr ⟨n, path, js, scope, rfl, by simp [he], hj, hs⟩

end Tree

/-! What the tokens of a tree show, in the order in which they were inserted. -/

/-- Whether a token makes a node. -/
def Token.makesNode (tok : Token) : Bool :=
  match tok.kind with
  | .marker m => m = .openBlock || m = .openCommand
  | _ => true

theorem Token.makesNode_plain {tok : Token} (h : ∀ m, tok.kind ≠ .marker m) :
    tok.makesNode = true := by
  rw [makesNode]
  split
  · next m hm => exact (h m hm).elim
  · rfl

theorem Token.makesNode_opener {tok : Token} {m : Marker}
    (h : tok.kind = .marker m ∧ (m = .openBlock ∨ m = .openCommand) ∨
      m = .openGroup ∧ ∀ m', tok.kind ≠ .marker m') : tok.makesNode = true := by
  rcases h with ⟨hk, rfl | rfl⟩ | ⟨-, hk⟩
  · simp [makesNode, hk]
  · simp [makesNode, hk]
  · exact makesNode_plain hk

namespace Node

variable {β : Type} {own : Label → List β}

theorem gather_push (own : Label → List β) (n k : Node) :
    (n.push k).gather own = n.gather own ++ k.gather own := by
  obtain ⟨l, ks⟩ := n
  simp [push, gather_mk]

theorem gather_setLabel (hs : Label.Lasting own) (n : Node) {l : Label}
    (h : l.seed = n.label.seed) : (n.setLabel l).gather own = n.gather own := by
  obtain ⟨m, ks⟩ := n
  rw [setLabel_mk, gather_mk, gather_mk, ← hs.seed l, h, hs.seed]
  rfl

theorem seed_setScope (n : Node) (s : Scope) : (n.setScope s).label.seed = n.label.seed := by
  obtain ⟨l, ks⟩ := n
  unfold setScope
  split
  · next hf =>
    rw [form_mk] at hf
    simp [Label.seed, hf, Form.origin]
  · rfl

theorem setScope_eq (n : Node) (s : Scope) : n.setScope s = n.setLabel (n.setScope s).label := by
  obtain ⟨l, ks⟩ := n
  unfold setScope
  split <;> rfl

theorem gather_setScope (hs : Label.Lasting own) (n : Node) (s : Scope) :
    (n.setScope s).gather own = n.gather own := by
  rw [setScope_eq]
  exact gather_setLabel hs n (seed_setScope n s)

theorem seed_sprout (tok : Token) (serial : Nat) (k : Site) (m : Option Marker) :
    (sprout tok serial k m).label.seed = (Label.ofToken tok serial).seed := by
  have hform : ∀ f : Form, (f.link serial k.block).origin = f.origin := by
    intro f
    cases f <;> rfl
  simp only [sprout, Label.seed, label_mk, hform]
  rfl

theorem gather_sprout (hs : Label.Lasting own) (tok : Token) (serial : Nat) (k : Site)
    (m : Option Marker) : (sprout tok serial k m).gather own = own (Label.ofToken tok serial) := by
  have hseed := seed_sprout tok serial k m
  rw [sprout, label_mk] at hseed
  rw [sprout, gather_mk, ← hs.seed, hseed, hs.seed]
  exact List.append_nil _

theorem gather_passed (hs : Label.Lasting own) {within : Option Nat} {os : Scopes}
    {ks js : List Node} (h : List.Forall₂ (Flushed.Passed within os) ks js) :
    js.flatMap (gather own) = ks.flatMap (gather own) := by
  rw [List.flatMap_def, List.flatMap_def]
  exact congrArg _ (Flushed.fold_passed hs.faithful h)

end Node

namespace Tree

variable {β : Type} {own : Label → List β} {t u : Tree} {tok : Token} {f : Option Failure}

/-- What the labels of a tree show, the open nodes after the closed fragments. -/
def gather (own : Label → List β) (t : Tree) : List β :=
  t.fragments.flatMap (Node.gather own) ++ t.path.reverse.flatMap (Node.gather own)

theorem gather_append (own : Label → List β) (t : Tree) (n : Node) :
    (t.append n).gather own = t.gather own ++ n.gather own := by
  unfold append
  split
  · next h => simp [gather, h]
  · next p path h => simp [gather, h, Node.gather_push]

theorem gather_leave (hs : Label.Lasting own) (t : Tree) : t.leave.gather own = t.gather own := by
  unfold leave
  split
  · rfl
  · next n path h =>
    have hn : (n.shut t.clock).gather own = n.gather own := Node.gather_setLabel hs n rfl
    rw [gather_append, hn]
    simp [gather, h]

theorem gather_flush (hs : Label.Lasting own) (t : Tree) :
    t.flush.tree.gather own = t.gather own := by
  rcases flush_cases t with ⟨-, js, new, he, hj⟩ | ⟨n, path, js, scope, hp, he, hj, -⟩
  · rw [he]
    simp only [gather, Node.gather_passed hs hj]
  · obtain ⟨l, ks⟩ := n
    rw [he]
    simp only [gather, hp, List.reverse_cons, List.flatMap_append, List.flatMap_singleton,
      Node.gather_setScope hs, Node.gather_mk, Node.label_mk, Node.gather_passed hs hj]
    rfl

/-! A node that is put under the cursor is a new fragment or a new child of the cursor's node. -/

theorem forall_fragments_append {P : Node → Prop} {n : Node} (h : ∀ m ∈ t.fragments, P m)
    (hn : P n) : ∀ m ∈ (t.append n).fragments, P m := by
  unfold append
  split
  · exact List.forall_mem_append.mpr ⟨h, by simpa using hn⟩
  · exact h

theorem forall_path_append {P : Node → Prop} {n : Node} (h : ∀ m ∈ t.path, P m)
    (hpush : ∀ m, P m → P (m.push n)) : ∀ m ∈ (t.append n).path, P m := by
  unfold append
  split
  · exact h
  · next p path hp =>
    obtain ⟨hfirst, hrest⟩ := List.forall_mem_cons.mp (hp ▸ h)
    exact List.forall_mem_cons.mpr ⟨hpush p hfirst, hrest⟩

theorem clock_append (t : Tree) (n : Node) : (t.append n).clock = t.clock := by
  unfold append
  split <;> rfl

theorem clock_leave (t : Tree) : t.leave.clock = t.clock := by
  unfold leave
  split
  · rfl
  · exact clock_append _ _

theorem clock_flush (t : Tree) : t.flush.tree.clock = t.clock := by
  unfold flush
  split <;> rfl

theorem Closing.clock (h : t.Closing tok u) : u.clock = t.clock := by
  obtain ⟨-, -, -, -, -, -, -, ⟨-, rfl⟩ | ⟨-, rfl, -⟩⟩ := h
  · rfl
  · exact clock_flush t

theorem Closing.gather (hs : Label.Lasting own) (h : t.Closing tok u) :
    u.gather own = t.gather own := by
  obtain ⟨-, -, -, -, -, -, -, ⟨-, rfl⟩ | ⟨-, rfl, -⟩⟩ := h
  · rfl
  · exact gather_flush hs t

/-- A closing token makes no node. -/
theorem Closing.makesNode (h : t.Closing tok u) : tok.makesNode = false := by
  obtain ⟨n, path, m, hk, -, hc, -⟩ := h
  rw [Token.makesNode, hk]
  rw [Node.closedBy] at hc
  cases ho : n.label.opener with
  | none => simp [ho] at hc
  | some o =>
    rw [ho] at hc
    cases o <;> simp [Marker.closer?] at hc <;> subst hc <;> rfl

theorem Placed.clock (h : t.Placed tok u f) : u.clock = t.clock := by
  cases h with
  | refused f _ => rfl
  | awaiting _ => rfl
  | leaf k _ => exact clock_append _ _
  | entered k m _ => rfl
  | flushed _ _ => exact clock_flush t
  | blocked f n path _ _ _ => exact clock_flush t
  | left v hv => rw [clock_leave, hv.clock]
  | delivered v hv _ => rw [clock_flush, clock_leave, hv.clock]

/-- A token that makes a node adds what it shows at the end, and any other token nothing. -/
theorem Placed.gather (hs : Label.Lasting own) (h : t.Placed tok u f) :
    (f = none → tok.makesNode = false) ∧ u.gather own = t.gather own ∨
      tok.makesNode = true ∧ u.gather own = t.gather own ++ own (Label.ofToken tok t.clock) := by
  cases h with
  | refused f _ => exact Or.inl ⟨by simp, rfl⟩
  | awaiting hk => exact Or.inl ⟨fun _ => by simp [Token.makesNode, hk], rfl⟩
  | leaf k hk =>
    refine Or.inr ⟨Token.makesNode_plain hk, ?_⟩
    rw [gather_append, Node.gather_sprout hs]
  | entered k m hm =>
    refine Or.inr ⟨Token.makesNode_opener hm, ?_⟩
    rw [← Node.gather_sprout hs tok t.clock k (some m)]
    simp [Tree.gather]
  | flushed hk _ => exact Or.inl ⟨fun _ => by simp [Token.makesNode, hk], gather_flush hs t⟩
  | blocked f n path _ _ _ => exact Or.inl ⟨by simp, gather_flush hs t⟩
  | left v hv =>
    refine Or.inl ⟨fun _ => hv.makesNode, ?_⟩
    rw [gather_leave hs, hv.gather hs]
  | delivered v hv _ =>
    refine Or.inl ⟨fun _ => hv.makesNode, ?_⟩
    rw [gather_flush hs, gather_leave hs, hv.gather hs]

/-! The keys of all variables of a tree, which have distinct numbers. -/

def identifiers (t : Tree) : List Key :=
  t.fragments.flatMap Node.identifiers ++ t.path.reverse.flatMap Node.identifiers

/-- A token adds at most one variable, and its number is the time. -/
theorem Placed.identifiers (h : t.Placed tok u f) : u.clock = t.clock ∧
    (u.identifiers = t.identifiers ∨ u.identifiers = t.identifiers ++ [(tok.value, t.clock)]) := by
  refine ⟨h.clock, ?_⟩
  rcases h.gather Node.identifiers_lasting with ⟨-, hg⟩ | ⟨-, hg⟩
  · exact Or.inl hg
  · have hown : (Label.ofToken tok t.clock).variableKey?.toList = [] ∨
        (Label.ofToken tok t.clock).variableKey?.toList = [(tok.value, t.clock)] := by
      unfold Label.variableKey?
      split
      · exact Or.inr rfl
      · exact Or.inl rfl
    rcases hown with hn | hn
    · rw [hn, List.append_nil] at hg
      exact Or.inl hg
    · rw [hn] at hg
      exact Or.inr hg

/-- No two variables have the same number, and none is ahead of time. -/
structure Numbered (t : Tree) : Prop where
  distinct : (t.identifiers.map Prod.snd).Nodup
  bounded : ∀ k ∈ t.identifiers, k.2 ≤ t.clock

theorem Numbered.place (h : t.Numbered) (tok : Token) :
    ({ t with clock := t.clock + 1 }.place tok).tree.Numbered := by
  obtain ⟨hc, hi | hi⟩ := (placed_place { t with clock := t.clock + 1 } tok).identifiers
  · refine ⟨?_, ?_⟩
    · rw [hi]
      exact h.distinct
    · intro k hk
      rw [hi] at hk
      rw [hc]
      exact Nat.le_succ_of_le (h.bounded k hk)
  · have hb : ∀ k ∈ t.identifiers, k.2 ≤ t.clock := h.bounded
    refine ⟨?_, ?_⟩
    · rw [hi, List.map_append, List.nodup_append]
      refine ⟨h.distinct, by simp, ?_⟩
      intro a ha b hb'
      obtain ⟨k, hk, rfl⟩ := List.mem_map.mp ha
      obtain rfl := List.mem_singleton.mp hb'
      have := hb k hk
      dsimp only
      omega
    · intro k hk
      rw [hi] at hk
      rw [hc]
      rcases List.mem_append.mp hk with hk | hk
      · exact Nat.le_succ_of_le (hb k hk)
      · obtain rfl := List.mem_singleton.mp hk
        exact Nat.le_refl _

end Tree

/-! The analyzed fragments come first, and the global scope has what they declare. -/

namespace Node

variable {n k : Node} {l : Label} {ks js : List Node}

def isCommand (n : Node) : Bool :=
  match n.form with
  | .command _ => true
  | _ => false

/-- What is true of a node while it is open. -/
structure Opened (n : Node) : Prop where
  raw : n.Raw
  block : n.label.opener = some .openBlock → n.isBlock = true
  command : n.isCommand = true → n.label.opener = some .openCommand

theorem raw_push (hn : n.Raw) (hk : k.Raw) : (n.push k).Raw := by
  obtain ⟨l, ks⟩ := n
  obtain ⟨ha, hks⟩ := raw_mk.mp hn
  refine raw_mk.mpr ⟨ha, fun hb j hj => ?_⟩
  rcases List.mem_append.mp hj with hj | hj
  · exact hks hb j hj
  · obtain rfl := List.mem_singleton.mp hj
    exact hk

theorem raw_shut (hn : n.Raw) (time : Nat) : (n.shut time).Raw := by
  obtain ⟨l, ks⟩ := n
  obtain ⟨ha, hk⟩ := raw_mk.mp hn
  exact raw_mk.mpr ⟨ha, hk⟩

theorem raw_sprout (tok : Token) (serial : Nat) (k : Site) (m : Option Marker) :
    (sprout tok serial k m).Raw :=
  raw_mk.mpr ⟨⟨rfl, rfl⟩, by simp⟩

theorem Opened.push (hn : n.Opened) (hk : k.Raw) : (n.push k).Opened :=
  ⟨raw_push hn.raw hk, hn.block, hn.command⟩

theorem opened_setScope (hn : n.Opened) (hb : n.isBlock = true) (js : List Node) (s : Scope) :
    ((mk n.label js).setScope s).Opened := by
  obtain ⟨l, ks⟩ := n
  simp only [isBlock, form_mk] at hb
  split at hb
  · next kind scope hf =>
    have he : (mk l js).setScope s = mk { l with form := .block kind s } js := by
      simp [setScope, hf]
    rw [label_mk, he]
    refine ⟨raw_mk.mpr ⟨(raw_mk.mp hn.raw).1, ?_⟩, fun _ => rfl, ?_⟩
    · intro hb
      simp [Label.isBlock] at hb
    · intro hc
      simp [isCommand] at hc
  · cases hb

theorem kind_of_command {tok : Token} {serial : Nat} {k : Site} {m : Option Marker}
    (h : (sprout tok serial k m).isCommand = true) : tok.kind = .marker .openCommand := by
  simp only [isCommand, sprout, form_mk, Form.ofToken] at h
  cases hk : tok.kind with
  | marker m =>
    rw [hk] at h
    cases m <;> first | rfl | cases h
  | _ =>
    rw [hk] at h
    cases h

theorem opened_sprout {tok : Token} {m : Marker} (serial : Nat) (k : Site)
    (h : tok.kind = .marker m ∧ (m = .openBlock ∨ m = .openCommand) ∨
      m = .openGroup ∧ ∀ m', tok.kind ≠ .marker m') :
    (sprout tok serial k (some m)).Opened := by
  refine ⟨raw_sprout _ _ _ _, ?_, ?_⟩
  · intro ho
    obtain rfl : m = .openBlock := Option.some.inj ho
    rcases h with ⟨h, -⟩ | ⟨h, -⟩
    · simp [isBlock, sprout, Form.ofToken, Form.link, h]
    · cases h
  · intro hc
    have hk := kind_of_command hc
    rcases h with ⟨h, -⟩ | ⟨-, h⟩
    · rw [hk] at h
      cases h
      rfl
    · exact (h _ hk).elim

end Node

namespace Tree

variable {t u : Tree} {tok : Token} {f : Option Failure} {n : Node} {rs path : List Node}
  {g : Scope} {extra : List Key}

/-- A tree grown from the fragments `rs` and the global scope `g`: more fragments are ready, and
they have declared what they declare. Only a fragment that fails leaves `extra` declarations. -/
structure Grown (rs : List Node) (g : Scope) (extra : List Key) (t : Tree) : Prop where
  parts : ∃ qs ps, t.fragments = rs ++ qs ++ ps ∧ (∀ q ∈ qs, q.isReady = true) ∧
    (∀ p ∈ ps, p.Raw) ∧ t.globals = g.extend (qs.flatMap (Node.declarations false) ++ extra) ∧
    ∀ k ∈ extra, k ∈ ps.flatMap Node.identifiers
  opened : ∀ n ∈ t.path, n.Opened

theorem Grown.append (h : t.Grown rs g extra) (hn : n.Raw) : (t.append n).Grown rs g extra := by
  obtain ⟨⟨qs, ps, hf, hq, hr, hg, he⟩, ho⟩ := h
  refine ⟨?_, forall_path_append ho fun m hm => hm.push hn⟩
  unfold Tree.append
  split
  · refine ⟨qs, ps ++ [n], by simp [hf], hq, ?_, hg, ?_⟩
    · exact List.forall_mem_append.mpr ⟨hr, by simpa using hn⟩
    · intro k hk
      rw [List.flatMap_append]
      exact List.mem_append_left _ (he k hk)
  · exact ⟨qs, ps, hf, hq, hr, hg, he⟩

theorem Grown.leave (h : t.Grown rs g extra) : t.leave.Grown rs g extra := by
  unfold Tree.leave
  split
  · exact h
  · next n path hp =>
    have ho := h.opened
    rw [hp] at ho
    have hpath : ({ t with path } : Tree).Grown rs g extra :=
      ⟨h.parts, fun m hm => ho m (by simp [hm])⟩
    exact hpath.append (Node.raw_shut (ho n (by simp)).raw _)

/-- A flush at the root, where the fragments that are not analyzed come last. -/
theorem flush_exact {as ps : List Node} (hp : t.path = []) (hf : t.fragments = as ++ ps)
    (ha : ∀ n ∈ as, n.isReady = true) (hraw : ∀ p ∈ ps, p.Raw) :
    ∃ qs rest extra events failure,
      t.flush = ⟨{ t with
        fragments := as ++ (qs ++ rest)
        globals := t.globals.extend (qs.flatMap (Node.declarations false) ++ extra) }, events,
        failure⟩ ∧
      (∀ q ∈ qs, q.isReady = true) ∧ (∀ n ∈ rest, n.Raw) ∧
      (∀ k ∈ extra, k ∈ rest.flatMap Node.identifiers) ∧ (failure = none → rest = []) ∧
      (∀ n ∈ rest, n ∈ ps) ∧ ∀ q ∈ qs, ∃ n ∈ ps, ∃ u new,
        n.cascade (some 0) [u] = (.ok q, [u.extend new]) ∧
        ∀ k ∈ (u.extend new).keys,
          k ∈ (t.globals.extend (qs.flatMap (Node.declarations false))).keys := by
  obtain ⟨qs, rest, extra, ev, fl, he, hrest⟩ := Flushed.of_exact (some 0) hraw t.globals []
  have ha : ∀ n ∈ as, n.flags.analyzed = true := fun n hn => Node.analyzed_of_ready (ha n hn)
  refine ⟨qs, rest, extra, ev, fl, ?_, hrest⟩
  unfold flush
  rw [hp]
  simp only [innerBlock, scopes, hp, hf, Flushed.of_append ha, List.filterMap_nil, List.nil_append,
    he]
  rfl

/-- A flush makes fragments ready, and fails at most once. -/
theorem Grown.flush (hr : ∀ r ∈ rs, r.isReady = true) (h : t.Grown rs g [])
    (hs : t.atScope = true) :
    ∃ extra, t.flush.tree.Grown rs g extra ∧ (t.flush.failure = none → extra = []) := by
  cases hp : t.path with
  | nil =>
    obtain ⟨⟨qs, ps, hf, hq, hraw, hg, -⟩, -⟩ := h
    have ha : ∀ r ∈ rs ++ qs, r.isReady = true := fun r hm =>
      (List.mem_append.mp hm).elim (hr r) (hq r)
    obtain ⟨qs', ps', extra, ev, fl, he, hq', hraw', hx, hn, -⟩ := flush_exact hp hf ha hraw
    rw [he]
    refine ⟨extra, ⟨⟨qs ++ qs', ps', by simp, ?_, hraw', ?_, hx⟩, by simp [hp]⟩, ?_⟩
    · exact fun q hm => (List.mem_append.mp hm).elim (hq q) (hq' q)
    · simp [hg]
    · intro hnone
      rw [hn hnone] at hx
      exact List.eq_nil_iff_forall_not_mem.mpr fun k hk => by simpa using hx k hk
  | cons n path =>
    rcases flush_cases t with ⟨hnil, -⟩ | ⟨m, path', js, scope, hp', he, -⟩
    · rw [hp] at hnil
      cases hnil
    · obtain ⟨rfl, rfl⟩ := List.cons.inj (hp.symm.trans hp')
      have hb : n.isBlock = true := by simpa [atScope, hp] using hs
      have ho := h.opened
      rw [hp] at ho
      refine ⟨[], ?_, fun _ => rfl⟩
      rw [he]
      refine ⟨h.parts, ?_⟩
      intro m hm
      rcases List.mem_cons.mp hm with rfl | hm
      · exact Node.opened_setScope (ho n (by simp)) hb js scope
      · exact ho m (by simp [hm])

/-- A node that is closed as a block is one. -/
theorem Grown.atScope (h : t.Grown rs g extra) (hp : t.path = n :: path)
    (hc : n.closedBy .closeBlock = true) : t.atScope = true := by
  rw [Tree.atScope, hp]
  exact (h.opened n (by simp [hp])).block (opener_of_closedBy hc)

/-- Before a node is closed, it is flushed if it is a block. -/
theorem Grown.closing_cases (h : t.Grown rs g extra) (hu : t.Closing tok u) :
    u = t ∨ t.atScope = true ∧ u = t.flush.tree ∧ t.flush.failure = none := by
  obtain ⟨n, path, m, -, hp, hc, -, ⟨-, rfl⟩ | ⟨rfl, rfl, hn⟩⟩ := hu
  · exact Or.inl rfl
  · refine Or.inr ⟨?_, rfl, hn⟩
    cases ht : t.path with
    | nil => rw [Tree.atScope, ht]
    | cons k ks =>
      obtain ⟨js, scope, hfp⟩ := flush_path ht
      obtain ⟨rfl, rfl⟩ := List.cons.inj (hp.symm.trans hfp)
      rw [closedBy_setScope] at hc
      exact h.atScope ht hc

theorem Grown.closing (h : t.Grown rs g []) (hr : ∀ r ∈ rs, r.isReady = true)
    (hu : t.Closing tok u) : u.Grown rs g [] := by
  rcases h.closing_cases hu with rfl | ⟨hs, rfl, hn⟩
  · exact h
  · obtain ⟨extra, hg, he⟩ := h.flush hr hs
    rwa [he hn] at hg

theorem Grown.place (h : t.Grown rs g []) (hr : ∀ r ∈ rs, r.isReady = true)
    (hp : t.Placed tok u f) : ∃ extra, u.Grown rs g extra ∧ (f = none → extra = []) := by
  cases hp with
  | refused f _ => exact ⟨[], h, fun _ => rfl⟩
  | awaiting _ => exact ⟨[], ⟨h.parts, h.opened⟩, fun _ => rfl⟩
  | leaf k _ => exact ⟨[], h.append (Node.raw_sprout _ _ _ _), fun _ => rfl⟩
  | entered k m hm =>
    refine ⟨[], ⟨h.parts, ?_⟩, fun _ => rfl⟩
    intro n hn
    rcases List.mem_cons.mp hn with rfl | hn
    · exact Node.opened_sprout _ _ hm
    · exact h.opened n hn
  | flushed _ hs => exact h.flush hr hs
  | blocked f n path hp hc _ =>
    obtain ⟨extra, hg, -⟩ := h.flush hr (h.atScope hp hc)
    exact ⟨extra, hg, fun hn => by cases hn⟩
  | left v hv => exact ⟨[], (h.closing hr hv).leave, fun _ => rfl⟩
  | delivered v hv hs => exact (h.closing hr hv).leave.flush hr hs

theorem distinct_flush (h : t.globals.Distinct) : t.flush.tree.globals.Distinct := by
  cases hp : t.path with
  | nil =>
    obtain ⟨js, new, ev, fl, he, -, -, hd⟩ :=
      flush_alike [] [] hp hp rfl rfl (by simp) (by simp) (.refl _)
    rw [he]
    exact hd h
  | cons n path =>
    obtain ⟨js, scope, ev, fl, he, -, -⟩ := flush_inner hp hp (.refl _)
    rw [he]
    exact h

theorem globals_append (t : Tree) (n : Node) : (t.append n).globals = t.globals := by
  unfold append
  split <;> rfl

theorem globals_leave (t : Tree) : t.leave.globals = t.globals := by
  unfold leave
  split
  · rfl
  · rw [globals_append]

theorem distinct_place (hp : t.Placed tok u f) (h : t.globals.Distinct) : u.globals.Distinct := by
  have hclosing : ∀ v, t.Closing tok v → v.globals.Distinct := by
    rintro v ⟨-, -, -, -, -, -, -, ⟨-, rfl⟩ | ⟨-, rfl, -⟩⟩
    · exact h
    · exact distinct_flush h
  cases hp with
  | refused f _ => exact h
  | awaiting _ => exact h
  | leaf k _ _ =>
    rw [globals_append]
    exact h
  | entered k m _ _ => exact h
  | flushed _ _ => exact distinct_flush h
  | blocked f n path _ _ _ => exact distinct_flush h
  | left v hv _ =>
    rw [globals_leave]
    exact hclosing v hv
  | delivered v hv _ =>
    refine distinct_flush ?_
    rw [globals_leave]
    exact hclosing v hv

theorem Grown.tick (h : t.Grown rs g extra) :
    ({ t with clock := t.clock + 1 } : Tree).Grown rs g extra :=
  ⟨h.parts, h.opened⟩

end Tree

end TokenShell
