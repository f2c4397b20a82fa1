import TokenShell.Proofs.Scoping
import TokenShell.Proofs.Stage

/-! The shape of a tree at every stage: what each phase finds and what it leaves. Only children of
blocks are ahead of the nodes above them, as they are flushed while their block is open. -/
namespace TokenShell

/-- What a node is to its parent. -/
inductive Part where
  | expression
  | fragment
  | block
  | initializer
  | declared
  | other
  deriving DecidableEq

def Form.part : Form → Part
  | .expression => .expression
  | .fragment => .fragment
  | .block .. => .block
  | .initializer => .initializer
  | .variable true _ => .declared
  | _ => .other

def BlockKind.ofParts (ps : List Part) : BlockKind :=
  if ps = [.expression] then .expression else .code

/-- A form that fits the parts below it, as completion finds it. -/
def Form.Shaped (f : Form) (ps : List Part) : Prop :=
  match f with
  | .operator _ a _ => a ≠ .unresolved ∧ ps.length = a.width
  | .block kind _ => kind = .ofParts ps
  | .expression => ps.length = 1
  | .command _ => ps ≠ [] ∧ ∀ p ∈ ps, p = .fragment ∨ p = .block
  | .fragment | .variable .. | .literal .. => ps = []
  | .declaration _ => ps ≠ [] ∧ ∀ p ∈ ps, p = .initializer
  | .initializer => ∃ rest, ps = .declared :: rest ∧ rest.length ≤ 1

/-- A form without what analysis and evaluation change. -/
def Form.shape : Form → Form
  | .block kind _ => .block kind {}
  | .command _ => .command false
  | .variable d _ => .variable d none
  | form => form

theorem Form.part_shape (f : Form) : f.shape.part = f.part := by
  cases f with
  | «variable» d b => cases d <;> rfl
  | _ => rfl

theorem Form.shaped_shape (f : Form) (ps : List Part) : f.shape.Shaped ps ↔ f.Shaped ps := by
  cases f <;> rfl

theorem Form.part_eq_expression {f : Form} : f.part = .expression ↔ f = .expression := by
  cases f with
  | «variable» d b => cases d <;> simp [Form.part]
  | _ => simp [Form.part]

theorem Form.part_eq_fragment {f : Form} : f.part = .fragment ↔ f = .fragment := by
  cases f with
  | «variable» d b => cases d <;> simp [Form.part]
  | _ => simp [Form.part]

theorem BlockKind.ofKids_eq (ks : List Node) :
    BlockKind.ofKids ks = BlockKind.ofParts (ks.map (·.form.part)) := by
  unfold BlockKind.ofKids BlockKind.ofParts
  split
  · next n => simp [Form.part_eq_expression]
  · next h =>
    rw [if_neg]
    intro hp
    obtain ⟨n, rfl, -⟩ := List.map_eq_singleton_iff.mp hp
    exact h n rfl

namespace Label

variable {l m k : Label} {ks js : List Label} {fl : Flags}

def part (l : Label) : Part := l.form.part

/-- An operator may stand above another one, more strictly so if that one would come out of a chain
that associates to the right. -/
def Precedes (l : Label) (strict : Prop) (k : Label) : Prop :=
  k.isOperator = true → k.arity ≠ .nullary →
    l.rank ≤ k.rank ∧ (strict → k.arity = .binary → l.rank < k.rank)

/-- An operator in its final place, with its slots filled. -/
structure Seated (l : Label) (ks : List Label) : Prop where
  bound : ∃ s a, l.form = .operator s a (ks.map serial)
  grouping : l.isGrouping = true → l.arity = .unary
  known : l.arity ≠ .nullary → l.priority = .ok l.rank
  precedes : l.isGrouping = false → ∀ i k, ks[i]? = some k → l.Precedes (l.arity = .unary ∨ i = 1) k

/-- Variables are bound: references by themselves, declared ones below their initializer. -/
def Linked (l : Label) (ks : List Label) : Prop :=
  match l.form with
  | .variable false b => b.isSome = true
  | .initializer => ∀ v ∈ ks.head?, ∃ d k, v.form = .variable d (some k)
  | _ => True

/-- A node that has been set up and nothing else. -/
structure Planted (l : Label) (ks : List Label) : Prop where
  flags : l.flags = { setup := true }
  housed : l.block.isSome = true
  undeclared : l.part ≠ .declared

/-- A node whose children are all there. -/
structure Completed (l : Label) (ks : List Label) : Prop where
  flags : l.flags = { setup := true, complete := true }
  shaped : l.form.Shaped (ks.map part)

/-- A complete node that is in its final place if it is an operator. -/
structure Ordered (fl : Flags) (l : Label) (ks : List Label) : Prop where
  flags : l.flags = fl
  shaped : l.form.Shaped (ks.map part)
  seated : l.isOperator = true → l.Seated ks

/-- A node that has been through all the phases, evaluated or not. -/
structure Done (l : Label) (ks : List Label) : Prop where
  ordered : ∃ b, l.Ordered ⟨true, true, true, true, b⟩ ks
  linked : l.Linked ks

theorem Done.shaped (h : l.Done ks) : l.form.Shaped (ks.map part) := by
  obtain ⟨b, ho⟩ := h.ordered
  exact ho.shaped

/-- Labels that analysis and evaluation make of each other. -/
structure Like (l m : Label) : Prop where
  token : m.token = l.token
  serial : m.serial = l.serial
  shape : m.form.shape = l.form.shape
  complete : m.flags.complete = l.flags.complete

theorem Like.refl (l : Label) : l.Like l := ⟨rfl, rfl, rfl, rfl⟩

theorem Like.trans (h : l.Like m) (h' : m.Like k) : l.Like k :=
  ⟨h'.token.trans h.token, h'.serial.trans h.serial, h'.shape.trans h.shape,
    h'.complete.trans h.complete⟩

theorem Like.part (h : l.Like m) : m.part = l.part := by
  rw [Label.part, ← Form.part_shape, h.shape, Form.part_shape, Label.part]

theorem operator_of_shape {s : Option Symbol} {a : Arity} {b : List Nat} {f g : Form}
    (h : g.shape = f.shape) (hf : f = .operator s a b) : g = .operator s a b := by
  subst hf
  cases g <;> simp_all [Form.shape]

theorem isOperator_iff : l.isOperator = true ↔ ∃ s a b, l.form = .operator s a b := by
  rw [isOperator]
  cases l.form <;> simp

theorem Like.operator (h : l.Like m) {s : Option Symbol} {a : Arity} {b : List Nat} :
    m.form = .operator s a b ↔ l.form = .operator s a b :=
  ⟨operator_of_shape h.shape.symm, operator_of_shape h.shape⟩

theorem Like.isOperator (h : l.Like m) : m.isOperator = l.isOperator := by
  rw [Bool.eq_iff_iff, isOperator_iff, isOperator_iff]
  simp only [h.operator]

/-- Alike operators are alike in all that chains look at. -/
theorem Like.eq_of_operator (h : l.Like m) (hl : l.isOperator = true) :
    m.isGrouping = l.isGrouping ∧ m.arity = l.arity ∧ m.priority = l.priority := by
  obtain ⟨s, a, b, hf⟩ := isOperator_iff.mp hl
  have hm := h.operator.mpr hf
  have ha : m.arity = l.arity := by rw [arity, hm, arity, hf]
  refine ⟨by rw [isGrouping, hm, isGrouping, hf], ha, ?_⟩
  simp only [priority, hm, hf, ha, h.complete, fail, name, h.token]

theorem Like.rank (h : l.Like m) (hl : l.isOperator = true) : m.rank = l.rank := by
  rw [Label.rank, Label.rank, (h.eq_of_operator hl).2.2]

theorem serials_like (h : List.Forall₂ Like ks js) : js.map serial = ks.map serial := by
  induction h with
  | nil => rfl
  | cons h _ ih => rw [List.map_cons, List.map_cons, h.serial, ih]

theorem Seated.like (h : l.Seated ks) (hl : l.Like m) (hk : List.Forall₂ Like ks js) :
    m.Seated js := by
  obtain ⟨s, a, hf⟩ := h.bound
  have ho : l.isOperator = true := isOperator_iff.mpr ⟨s, a, _, hf⟩
  obtain ⟨hgroup, harity, hprio⟩ := hl.eq_of_operator ho
  have hrank := hl.rank ho
  refine ⟨⟨s, a, serials_like hk ▸ hl.operator.mpr hf⟩, ?_, ?_, ?_⟩
  · rw [hgroup, harity]
    exact h.grouping
  · rw [harity, hprio, hrank]
    exact h.known
  · rw [hgroup, harity]
    intro hg i j hj hjo
    have hi := (List.forall₂_iff_get.mp hk)
    obtain ⟨hlen, hget⟩ := hi
    obtain ⟨hij, rfl⟩ := List.getElem?_eq_some_iff.mp hj
    have hik : i < ks.length := by omega
    have hlike : Like ks[i] js[i] := hget i hik hij
    rw [hlike.isOperator] at hjo
    obtain ⟨-, hja, -⟩ := hlike.eq_of_operator hjo
    rw [hja, hrank, hlike.rank hjo]
    exact h.precedes hg i ks[i] (List.getElem?_eq_getElem hik) hjo

theorem parts_like (h : List.Forall₂ Like ks js) : js.map part = ks.map part := by
  induction h with
  | nil => rfl
  | cons hkj _ ih => rw [List.map_cons, List.map_cons, hkj.part, ih]

theorem Ordered.like (h : l.Ordered fl ks) (hl : l.Like m) (hk : List.Forall₂ Like ks js) :
    m.Ordered m.flags js := by
  refine ⟨rfl, ?_, ?_⟩
  · rw [parts_like hk, ← Form.shaped_shape, hl.shape, Form.shaped_shape]
    exact h.shaped
  · intro ho
    rw [hl.isOperator] at ho
    exact (h.seated ho).like hl hk

end Label

namespace Node

variable {n m k : Node} {l : Label} {ks js : List Node} {P Q : Label → List Label → Prop}

/-- A tree that has been through all the phases as a whole. -/
inductive Settled : Node → Prop where
  | mk {l : Label} {ks : List Node} (h : l.Done (ks.map label)) (hk : ∀ k ∈ ks, Settled k) :
      Settled (.mk l ks)

theorem settled_mk : (mk l ks).Settled ↔ l.Done (ks.map label) ∧ ∀ k ∈ ks, k.Settled :=
  ⟨fun ⟨h, hk⟩ => ⟨h, hk⟩, fun ⟨h, hk⟩ => .mk h hk⟩

/-- The upper part of a tree has a property: all nodes but the children of blocks that are settled,
and what is below those. -/
inductive Upper (P : Label → List Label → Prop) : Node → Prop where
  | mk {l : Label} {ks : List Node} (h : P l (ks.map label))
      (hk : ∀ k ∈ ks, ¬ (l.isBlock = true ∧ k.Settled) → Upper P k) : Upper P (.mk l ks)

theorem upper_mk : (mk l ks).Upper P ↔
    P l (ks.map label) ∧ ∀ k ∈ ks, k.Upper P ∨ l.isBlock = true ∧ k.Settled := by
  constructor
  · rintro ⟨h, hk⟩
    refine ⟨h, fun k hm => ?_⟩
    by_cases hs : l.isBlock = true ∧ k.Settled
    · exact Or.inr hs
    · exact Or.inl (hk k hm hs)
  · rintro ⟨h, hk⟩
    exact .mk h fun k hm hs => (hk k hm).resolve_right hs

theorem Settled.flags (h : n.Settled) : ∃ b, n.flags = ⟨true, true, true, true, b⟩ := by
  obtain ⟨⟨⟨b, ho⟩, -⟩, -⟩ := h
  exact ⟨b, ho.flags⟩

theorem Settled.analyzed (h : n.Settled) : n.flags.analyzed = true := by
  obtain ⟨b, hf⟩ := h.flags
  rw [hf]

theorem Settled.isReady (h : n.Settled) : n.isReady = true := by
  obtain ⟨b, hf⟩ := h.flags
  rw [Node.isReady, hf]
  rfl

theorem Settled.done (h : n.Settled) : n.label.Done (n.kids.map Node.label) := by
  cases h with
  | mk h _ => exact h

theorem Upper.label (h : n.Upper P) : P n.label (n.kids.map Node.label) := by
  obtain ⟨h, -⟩ := h
  exact h

theorem Upper.kids (h : (Node.mk l ks).Upper P) (hb : l.isBlock = false) :
    ∀ k ∈ ks, k.Upper P := by
  intro k hk
  rcases (upper_mk.mp h).2 k hk with hu | ⟨hb', -⟩
  · exact hu
  · rw [hb] at hb'
    cases hb'

/-! Setup has nothing left to do, and completion makes complete. -/

theorem setUp_eq (hl : l.flags.setup = true) {within : Option Nat}
    (hk : ∀ k ∈ ks, ∀ w, k.setUp w = .ok k) : (mk l ks).setUp within = .ok (mk l ks) := by
  have hall : ∀ w, setUpAll w ks = .ok ks := by
    intro w
    induction ks with
    | nil => rfl
    | cons k ks ih =>
      rw [setUpAll, hk k (by simp), ih fun j hj => hk j (by simp [hj])]
      rfl
  have hself : l.setUp within = .ok l := by
    unfold Label.setUp
    rw [if_pos hl]
  rw [setUp, hself]
  simp only [bind, Except.bind, hall]
  rfl

theorem Settled.setUp (h : n.Settled) (within : Option Nat) : n.setUp within = .ok n := by
  induction n using induct generalizing within with
  | h l ks ih =>
    obtain ⟨b, hf⟩ := h.flags
    have hs : l.flags.setup = true := by
      rw [flags_mk] at hf
      rw [hf]
    exact setUp_eq hs fun k hk w => ih k hk ((settled_mk.mp h).2 k hk) w

theorem Upper.setUp (h : n.Upper Label.Planted) (within : Option Nat) : n.setUp within = .ok n := by
  induction n using induct generalizing within with
  | h l ks ih =>
    obtain ⟨hl, hk⟩ := upper_mk.mp h
    refine setUp_eq (by rw [hl.flags]) fun k hm w => ?_
    rcases hk k hm with hu | ⟨-, hs⟩
    · exact ih k hm hu w
    · exact hs.setUp w

theorem Settled.complete (h : n.Settled) (inside : Bool) : n.complete inside = .ok n := by
  obtain ⟨l, ks⟩ := n
  obtain ⟨b, hf⟩ := h.flags
  rw [flags_mk] at hf
  rw [Node.complete, hf]
  rfl

theorem fitsCommand_iff (n : Node) :
    n.fitsCommand = true ↔ n.form.part = .fragment ∨ n.form.part = .block := by
  rw [fitsCommand]
  cases n.form with
  | «variable» d b => cases d <;> simp [Form.part]
  | _ => simp [Form.part]

theorem initializer_iff (n : Node) : n.form = .initializer ↔ n.form.part = .initializer := by
  cases n.form with
  | «variable» d b => cases d <;> simp [Form.part]
  | _ => simp [Form.part]

/-- The variable that an initializer declares. -/
theorem declared?_spec (h : n.declared? = some m) : m.form.part = .declared ∧
    (n.Upper Label.Completed → m.Upper Label.Completed) := by
  obtain ⟨l, ks⟩ := n
  rw [declared?] at h
  split at h
  · next d b hf =>
    cases h
    refine ⟨rfl, fun hn => ?_⟩
    obtain ⟨hl, hk⟩ := upper_mk.mp hn
    rw [form_mk] at hf
    have hshape := hl.shaped
    rw [hf] at hshape
    have hnil : ks = [] := by simpa [Form.Shaped] using hshape
    subst hnil
    exact upper_mk.mpr ⟨⟨hl.flags, rfl⟩, by simp⟩
  · cases h

/-- What the shape rule leaves of the children. -/
def Checked (isBlock : Bool) (js : List Node) (p : Form × List Node) : Prop :=
  p.1.Shaped (p.2.map (·.form.part)) ∧
    ((∀ j ∈ js, j.Upper Label.Completed ∨ isBlock = true ∧ j.Settled) →
      ∀ j ∈ p.2, j.Upper Label.Completed ∨ isBlock = true ∧ j.Settled)

theorem completeInitializer_meets (l : Label) (inside : Bool) (js : List Node) :
    Meets [.shape] (l.completeInitializer inside js) fun is =>
      Form.Shaped .initializer (is.map (·.form.part)) ∧
        ((∀ j ∈ js, j.Upper Label.Completed) → ∀ i ∈ is, i.Upper Label.Completed) := by
  have hcons : ∀ first rest, rest.length ≤ 1 → js = first :: rest →
      ∀ v, first.declared? = some v →
        Form.Shaped .initializer ((v :: rest).map (·.form.part)) ∧
          ((∀ j ∈ js, j.Upper Label.Completed) → ∀ i ∈ v :: rest, i.Upper Label.Completed) := by
    intro first rest hlen hjs v hv
    obtain ⟨hp, hu⟩ := declared?_spec hv
    refine ⟨⟨rest.map (·.form.part), by rw [List.map_cons, hp], by simpa using hlen⟩, ?_⟩
    intro hall i hi
    rcases List.mem_cons.mp hi with rfl | hi
    · exact hu (hall first (by simp [hjs]))
    · exact hall i (by simp [hjs, hi])
  unfold Label.completeInitializer
  split
  · exact .fail (by simp [Cause.stage])
  · split
    · next first =>
      split
      · next v hv => exact hcons first [] (by simp) rfl v hv
      · exact .fail (by simp [Cause.stage])
    · next first second =>
      split
      · next v hv => exact hcons first [second] (by simp) rfl v hv
      · exact .fail (by simp [Cause.stage])
    · exact .fail (by simp [Cause.stage])
    · exact .fail (by simp [Cause.stage])

theorem resolveArity_meets (l : Label) (count : Nat) :
    Meets [.shape] (l.resolveArity count) fun a => a ≠ .unresolved ∧ count = a.width := by
  unfold Label.resolveArity
  split
  · exact ⟨by simp, rfl⟩
  · exact ⟨by simp, rfl⟩
  · exact ⟨by simp, rfl⟩
  · exact .fail (by simp [Cause.stage])

theorem literalValue_meets (l : Label) (kind : LiteralKind) :
    Meets [.shape] (l.literalValue kind) fun _ => True := by
  unfold Label.literalValue
  split
  · split
    · trivial
    · exact .fail (by simp [Cause.stage])
  · split
    · trivial
    · exact .fail (by simp [Cause.stage])
  · trivial

theorem forall_part_of_find? {js : List Node} {unfit : Node → Bool} {fits : Part → Prop}
    (h : js.find? unfit = none) (hf : ∀ j, unfit j = false → fits j.form.part) :
    ∀ p ∈ js.map (·.form.part), fits p := by
  intro p hp
  obtain ⟨j, hj, rfl⟩ := List.mem_map.mp hp
  exact hf j (by simpa using List.find?_eq_none.mp h j hj)

theorem checkShape_meets (l : Label) (inside : Bool) (js : List Node) :
    Meets [.shape] (l.checkShape inside js) fun p =>
      p.1.part = l.form.part ∧ Checked l.isBlock js p := by
  unfold Label.checkShape
  split
  · next s a b hf =>
    refine (resolveArity_meets l js.length).bind ?_
    rintro a ⟨ha, hlen⟩
    exact ⟨by rw [hf]; rfl, ⟨ha, by simpa using hlen⟩, fun h => h⟩
  · next kind scope hf =>
    exact ⟨by rw [hf]; rfl, BlockKind.ofKids_eq js, fun h => h⟩
  · next hf =>
    split
    · next hlen => exact ⟨rfl, by rw [hf]; simpa [Form.Shaped] using hlen, fun h => h⟩
    · exact .fail (by simp [Cause.stage])
  · next skipped hf =>
    split
    · exact .fail (by simp [Cause.stage])
    · next hne =>
      split
      · exact .fail (by simp [Cause.stage])
      · next hall =>
        refine ⟨rfl, ?_, fun h => h⟩
        rw [hf]
        refine ⟨by simpa using hne, forall_part_of_find? hall fun j hj => ?_⟩
        exact (fitsCommand_iff j).mp (by simpa using hj)
  · next hf =>
    split
    · next hne => exact ⟨rfl, by rw [hf]; simpa [Form.Shaped] using hne, fun h => h⟩
    · exact .fail (by simp [Cause.stage])
  · next d b hf =>
    split
    · exact .fail (by simp [Cause.stage])
    · next hne =>
      split
      · exact .fail (by simp [Cause.stage])
      · exact ⟨rfl, by rw [hf]; simpa [Form.Shaped] using hne, fun h => h⟩
  · next kind v hf =>
    split
    · exact .fail (by simp [Cause.stage])
    · next hne =>
      refine (literalValue_meets l kind).bind ?_
      intro v _
      exact ⟨by rw [hf]; rfl, by simpa [Form.Shaped] using hne, fun h => h⟩
  · next renew hf =>
    split
    · exact .fail (by simp [Cause.stage])
    · next hne =>
      split
      · exact .fail (by simp [Cause.stage])
      · next hall =>
        refine ⟨rfl, ?_, fun h => h⟩
        rw [hf]
        refine ⟨by simpa using hne, forall_part_of_find? hall fun j hj => ?_⟩
        exact (initializer_iff j).mp (by simpa using hj)
  · next hf =>
    refine (completeInitializer_meets l inside js).bind ?_
    rintro is ⟨hs, hu⟩
    refine ⟨rfl, by rw [hf]; exact hs, ?_⟩
    have hb : l.isBlock = false := by rw [Label.isBlock, hf]
    intro hall i hi
    refine Or.inl (hu ?_ i hi)
    intro j hj
    rcases hall j hj with h | ⟨h, -⟩
    · exact h
    · rw [hb] at h
      cases h

theorem isBlock_iff_part (l : Label) : l.isBlock = true ↔ l.form.part = .block := by
  rw [Label.isBlock]
  cases l.form with
  | «variable» d b => cases d <;> simp [Form.part]
  | _ => simp [Form.part]

/-- Completion of a tree that is set up fails for its shape only. -/
theorem Upper.complete (h : n.Upper Label.Planted) (inside : Bool) :
    Meets [.shape] (n.complete inside) (Upper Label.Completed) := by
  induction n using induct generalizing inside with
  | h l ks ih =>
    obtain ⟨hl, hk⟩ := upper_mk.mp h
    rw [Node.complete, if_neg (by rw [hl.flags]; simp), if_neg (by rw [hl.flags]; simp),
      completeAll_eq_mapM]
    have hkids : ∀ k ∈ ks, Meets [.shape] (k.complete l.isDeclaration) fun j =>
        j.Upper Label.Completed ∨ l.isBlock = true ∧ j.Settled := by
      intro k hm
      rcases hk k hm with hu | ⟨hb, hs⟩
      · exact (ih k hm hu _).imp fun j hj => Or.inl hj
      · rw [hs.complete]
        exact Or.inr ⟨hb, hs⟩
    apply (Meets.mapM hkids).bind
    intro js hjs
    have hjs := forall_of_forall₂ hjs fun _ _ _ hj => hj
    apply (checkShape_meets l inside js).bind
    rintro ⟨form, is⟩ ⟨hpart, hshaped, hall⟩
    have hb : { l with form, flags := { l.flags with complete := true } : Label }.isBlock =
        l.isBlock := by
      rw [Bool.eq_iff_iff, isBlock_iff_part, isBlock_iff_part]
      simp [hpart]
    refine upper_mk.mpr ⟨⟨by simp [hl.flags], ?_⟩, ?_⟩
    · rw [List.map_map]
      exact hshaped
    · rw [hb]
      exact hall hjs

end Node

end TokenShell
