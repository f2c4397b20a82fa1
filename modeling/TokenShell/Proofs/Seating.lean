import TokenShell.Proofs.Shape

/-! Reordering puts every operator of a complete tree into its final place, or fails because of a
priority or of the width of a group. -/
namespace TokenShell

/-- The flags of a node that is complete and nothing more. -/
def Flags.complete₀ : Flags := { setup := true, complete := true }

/-- The flags of a node that is reordered and nothing more. -/
def Flags.reordered₀ : Flags := { setup := true, complete := true, reordered := true }

theorem Symbol.priority?_grouping {s : Symbol} (h : s.isGrouping = true) (a : Arity) :
    s.priority? a = some 15 := by
  cases s <;> first | rfl | cases h

theorem Symbol.priority?_le {s : Symbol} {a : Arity} {p : Nat} (h : s.priority? a = some p) :
    p ≤ 15 := by
  cases s <;> cases a <;> simp [priority?] at h <;> omega

namespace Label

variable {l : Label}

theorem bind_operator {s : Option Symbol} {a : Arity} {b : List Nat}
    (h : l.form = .operator s a b) (ks : List Node) :
    Operand.bind l ks = { l with form := .operator s a (ks.map (·.label.serial)) } := by
  unfold Operand.bind
  rw [h]

theorem bind_of_not_operator (h : l.isOperator = false) (ks : List Node) :
    Operand.bind l ks = l := by
  unfold Operand.bind
  split
  · next hf => simp [isOperator, hf] at h
  · rfl

/-- Labels that differ in their links only, as far as chains look at them. -/
structure Akin (l m : Label) : Prop where
  operator : m.isOperator = l.isOperator
  grouping : m.isGrouping = l.isGrouping
  arity : m.arity = l.arity
  flags : m.flags = l.flags
  part : m.part = l.part
  priority : m.priority = l.priority

theorem Akin.refl (l : Label) : l.Akin l := ⟨rfl, rfl, rfl, rfl, rfl, rfl⟩

theorem akin_bind (l : Label) (ks : List Node) : l.Akin (Operand.bind l ks) := by
  by_cases h : l.isOperator = true
  · obtain ⟨s, a, b, hf⟩ := isOperator_iff.mp h
    rw [bind_operator hf]
    refine ⟨?_, ?_, ?_, rfl, ?_, ?_⟩
    · simp [isOperator, hf]
    · cases s <;> simp [isGrouping, hf]
    · simp [Label.arity, hf]
    · simp [Label.part, hf, Form.part]
    · cases s <;> simp [Label.priority, hf, fail, name, Label.arity]
  · rw [bind_of_not_operator (by simpa using h)]
    exact .refl l

theorem Akin.adopt {m : Label} (h : l.Akin m) (p : Option Nat) : l.Akin { m with parent := p } :=
  ⟨h.operator, h.grouping, h.arity, h.flags, h.part, h.priority⟩

theorem Akin.rank {m : Label} (h : l.Akin m) : m.rank = l.rank := by
  rw [Label.rank, Label.rank, h.priority]

theorem isOperator_of_grouping (h : l.isGrouping = true) : l.isOperator = true := by
  rw [isGrouping] at h
  rw [isOperator]
  split at h
  · next hf => rw [hf]
  · cases h

theorem part_of_operator (h : l.isOperator = true) : l.part = .other := by
  obtain ⟨s, a, b, hf⟩ := isOperator_iff.mp h
  rw [part, hf]
  rfl

theorem not_isBlock_of_operator (h : l.isOperator = true) : l.isBlock = false := by
  obtain ⟨s, a, b, hf⟩ := isOperator_iff.mp h
  rw [isBlock, hf]

/-- A complete group binds most tightly. -/
theorem priority_grouping (h : l.isGrouping = true) (hc : l.flags.complete = true) :
    l.priority = .ok 15 := by
  rw [isGrouping] at h
  split at h
  · next s a b hf =>
    rw [priority, hc, hf]
    simp [Symbol.priority?_grouping h a]
  · cases h

theorem rank_le (l : Label) : l.rank ≤ 15 := by
  unfold rank
  split
  · next p hp =>
    unfold priority at hp
    split at hp
    · cases hp
    · split at hp
      · split at hp
        · next q hq =>
          cases hp
          exact Symbol.priority?_le hq
        · cases hp
      · cases hp
  · omega

/-- The priority of a complete operator is known or is the failure. -/
theorem priority_meets (hc : l.flags.complete = true) :
    Meets [.shape, .precedence] l.priority fun p => l.priority = .ok p := by
  unfold priority
  rw [hc]
  simp only [Bool.not_true, Bool.false_eq_true, if_false]
  split
  · split
    · exact .pure rfl
    · exact .fail (by simp [Cause.stage])
  · exact .fail (by simp [Cause.stage])

theorem arity_of_form {s : Option Symbol} {a : Arity} {b : List Nat}
    (h : l.form = .operator s a b) :
    l.arity = a := by
  rw [arity, h]

/-- The shape of an operator. -/
theorem shaped_operator {ps : List Part} (ho : l.isOperator = true) :
    l.form.Shaped ps ↔ l.arity ≠ .unresolved ∧ ps.length = l.arity.width := by
  obtain ⟨s, a, b, hf⟩ := isOperator_iff.mp ho
  rw [arity_of_form hf, hf]
  rfl

end Label

namespace Operand

variable {a : Operand} {l op : Label} {c t x y : Chain Operand} {n m k : Node} {ks : List Node}

/-- An operator passes the check if it has the operands its arity asks for, a group exactly one, and
a priority unless it has no operands. -/
theorem check_ok {count : Nat} (hw : count = l.arity.width)
    (hg : l.isGrouping = true → l.arity = .unary)
    (hk : l.arity ≠ .nullary → l.priority = .ok l.rank) : ∃ p, check l count none = .ok p := by
  unfold check
  rw [if_neg (by simpa using hw), if_neg (fun h => h.2 (hg h.1))]
  by_cases hn : l.arity = .nullary
  · exact ⟨none, by rw [if_pos hn]⟩
  · refine ⟨some l.rank, ?_⟩
    rw [if_neg hn, hk hn]
    rfl

theorem validate_operand (h : a.label.isOperator = true → ∃ p, check a.label a.width none = .ok p) :
    validate none (.operand a) = .ok () := by
  unfold validate
  split
  · next ho =>
    obtain ⟨p, hp⟩ := h ho
    rw [hp]
    rfl
  · rfl

/-- A group that passes the check has one operand. -/
theorem unary_of_validate (h : validate none (.operand a) = .ok ())
    (hg : a.label.isGrouping = true) : a.label.arity = .unary := by
  by_contra hn
  rw [validate, if_pos (Label.isOperator_of_grouping hg)] at h
  obtain ⟨p, hp, -⟩ := except_bind_ok.mp h
  unfold check at hp
  split at hp
  · cases hp
  · rw [if_pos ⟨hg, hn⟩] at hp
    cases hp

/-- What is known of an operand of a chain in a complete tree. -/
structure Fit (a : Operand) : Prop where
  sealed : a.label.isOperator = true → a.label.isGrouping = true ∨ a.label.arity = .nullary
  flags : a.label.flags = .complete₀
  valid : Meets [.shape, .precedence] (validate none (.operand a)) fun _ => True
  settled : validate none (.operand a) = .ok () → Meets [.shape, .precedence] a.settled fun m =>
    m.Upper (Label.Ordered .complete₀) ∧ a.label.Akin m.label

/-- An item of a chain in a complete tree. -/
def Fits : Chain.Item Operand → Prop
  | .operand a => a.Fit
  | .unary op _ => op.Extends .unary ∧ op.flags = .complete₀
  | .binary op _ => op.Extends .binary ∧ op.flags = .complete₀

/-- The label at the top of a chain. -/
def topLabel : Chain Operand → Label
  | .operand a => a.label
  | .unary op _ | .binary op _ _ => op

theorem fits_unary : (∀ i ∈ (Chain.unary op x).inOrder, Fits i) ↔
    (op.Extends .unary ∧ op.flags = .complete₀) ∧ ∀ i ∈ x.inOrder, Fits i := by
  simp [Chain.inOrder, Fits]

theorem fits_binary : (∀ i ∈ (Chain.binary op x y).inOrder, Fits i) ↔
    (∀ i ∈ x.inOrder, Fits i) ∧ (op.Extends .binary ∧ op.flags = .complete₀) ∧
      ∀ i ∈ y.inOrder, Fits i := by
  simp only [Chain.inOrder, List.mem_append, List.mem_cons, or_imp, forall_and, forall_eq, Fits]

/-- Chains with the same items are the same part of the tree. -/
theorem part_topLabel (h : t.inOrder = c.inOrder) (hf : ∀ i ∈ c.inOrder, Fits i) :
    (topLabel t).part = (topLabel c).part := by
  have hother : ∀ e : Chain Operand, e.inOrder = c.inOrder → (∀ a, e ≠ .operand a) →
      (topLabel e).part = .other := by
    intro e he hn
    rw [← he] at hf
    cases e with
    | operand a => exact (hn a rfl).elim
    | unary op x => exact Label.part_of_operator (fits_unary.mp hf).1.1.operator
    | binary op x y => exact Label.part_of_operator (fits_binary.mp hf).2.1.1.operator
  have hlen : ∀ (e : Chain Operand) (b : Operand), e.inOrder = [.operand b] → e = .operand b := by
    intro e b he
    cases e with
    | operand a =>
      obtain rfl : a = b := by simpa [Chain.inOrder] using he
      rfl
    | unary op x => simp [Chain.inOrder] at he
    | binary op x y =>
      have hl := congrArg List.length he
      have hx := List.length_pos_of_ne_nil (Chain.inOrder_ne_nil x)
      simp [Chain.inOrder] at hl
      omega
  cases hc : c with
  | operand b =>
    have ht : t.inOrder = [.operand b] := by rw [h, hc]; rfl
    rw [hlen t b ht]
  | _ =>
    rw [← hc, hother c rfl (by simp [hc]), hother t h]
    rintro a rfl
    have hb := hlen c a h.symm
    rw [hc] at hb
    cases hb

/-- An operator of a chain may stand above what the chain has below it. -/
theorem precedes_topLabel {strict : Prop} {o k : Label} (hop : op.Akin o) (hk : (topLabel x).Akin k)
    (ht : ∀ p ∈ x.top?, op.rank ≤ p) (hb : strict → ∀ p ∈ x.binaryTop?, op.rank < p)
    (hf : ∀ i ∈ x.inOrder, Fits i)
    (hv : ∀ a, .operand a ∈ x.inOrder → validate none (.operand a) = .ok ()) :
    o.Precedes strict k := by
  intro ho hn
  rw [hk.operator] at ho
  rw [hk.arity] at hn ⊢
  rw [hop.rank, hk.rank]
  cases x with
  | operand a =>
    have hfit : a.Fit := hf (.operand a) (by simp [Chain.inOrder])
    have hg : a.label.isGrouping = true := (hfit.sealed ho).resolve_right hn
    have hu := unary_of_validate (hv a (by simp [Chain.inOrder])) hg
    have hc : a.label.flags.complete = true := by rw [hfit.flags]; rfl
    refine ⟨?_, fun _ hbin => ?_⟩
    · rw [topLabel, Label.rank_of_priority (Label.priority_grouping hg hc)]
      exact op.rank_le
    · rw [topLabel, hu] at hbin
      cases hbin
  | unary o z =>
    refine ⟨ht _ rfl, fun _ hbin => ?_⟩
    rw [topLabel, (fits_unary.mp hf).1.1.arity] at hbin
    cases hbin
  | binary o z w => exact ⟨ht _ rfl, fun hs _ => hb hs _ rfl⟩

/-- A node that an operator of a chain is made into. -/
theorem ordered_bind {a : Arity} {ls : List Label} (h : op.Extends a) (hf : op.flags = .complete₀)
    (ha : a = .unary ∨ a = .binary) (hlen : ks.length = a.width)
    (hs : ls.map Label.serial = ks.map (·.label.serial))
    (hp : ∀ i k, ls[i]? = some k → (bind op ks).Precedes (a = .unary ∨ i = 1) k) :
    (bind op ks).Ordered .complete₀ ls := by
  have hakin := Label.akin_bind op ks
  obtain ⟨s, a', b, hform⟩ := Label.isOperator_iff.mp h.operator
  obtain rfl : a' = a := by rw [← h.arity, Label.arity_of_form hform]
  have hform' : (bind op ks).form = .operator s a' (ls.map Label.serial) := by
    rw [Label.bind_operator hform, hs]
  have hlen' : ls.length = ks.length := by simpa using congrArg List.length hs
  refine ⟨by rw [hakin.flags, hf], ?_, fun _ => ⟨⟨s, a', hform'⟩, ?_, ?_, ?_⟩⟩
  · rw [hform']
    refine ⟨?_, by simpa [hlen'] using hlen⟩
    rcases ha with rfl | rfl <;> simp
  · rw [hakin.grouping, h.plain]
    intro hg
    cases hg
  · intro _
    rw [hakin.priority, hakin.rank]
    exact h.known
  · rw [hakin.arity, h.arity]
    intro _ i k hk
    exact hp i k hk

theorem upper_adopt (h : n.Upper (Label.Ordered .complete₀)) (p : Option Nat) :
    (n.adopt p).Upper (Label.Ordered .complete₀) := by
  obtain ⟨l, ks⟩ := n
  obtain ⟨hl, hk⟩ := Node.upper_mk.mp h
  refine Node.upper_mk.mpr ⟨?_, hk⟩
  have hord := hl.like (m := { l with parent := p }) ⟨rfl, rfl, rfl, rfl⟩
    (List.forall₂_same.mpr fun k _ => .refl k)
  exact ⟨hl.flags, hord.shaped, hord.seated⟩

/-- Settling a built chain puts its operators into their places. -/
theorem settle_meets (ht : t.Ordered) (hf : ∀ i ∈ t.inOrder, Fits i)
    (hv : ∀ a, .operand a ∈ t.inOrder → validate none (.operand a) = .ok ()) :
    Meets [.shape, .precedence] (settle t) fun m =>
      m.Upper (Label.Ordered .complete₀) ∧ (topLabel t).Akin m.label := by
  induction t with
  | operand a =>
    have hfit : a.Fit := hf (.operand a) (by simp [Chain.inOrder])
    exact hfit.settled (hv a (by simp [Chain.inOrder]))
  | unary op x ih =>
    obtain ⟨⟨hop, hfl⟩, hfx⟩ := fits_unary.mp hf
    obtain ⟨hu, hx⟩ := Chain.ordered_unary.mp ht
    have hvx : ∀ a, .operand a ∈ x.inOrder → validate none (.operand a) = .ok () := fun a ha =>
      hv a (by simp [Chain.inOrder, ha])
    apply (ih hx hfx hvx).bind
    rintro k ⟨hk, hkl⟩
    refine ⟨Node.upper_mk.mpr ⟨?_, by simpa using Or.inl (upper_adopt hk _)⟩, Label.akin_bind _ _⟩
    refine ordered_bind hop hfl (Or.inl rfl) rfl rfl ?_
    intro i j hj
    obtain ⟨rfl, rfl⟩ : i = 0 ∧ (k.adopt (some op.serial)).label = j := by
      rcases i with _ | i
      · simpa using hj
      · simp at hj
    exact precedes_topLabel (Label.akin_bind _ _) (hkl.adopt _) hu.1 (fun _ => hu.2) hfx hvx
  | binary op x y ihx ihy =>
    obtain ⟨hfx, ⟨hop, hfl⟩, hfy⟩ := fits_binary.mp hf
    obtain ⟨htop, hu, hx, hy⟩ := Chain.ordered_binary.mp ht
    have hvx : ∀ a, .operand a ∈ x.inOrder → validate none (.operand a) = .ok () := fun a ha =>
      hv a (by simp [Chain.inOrder, ha])
    have hvy : ∀ a, .operand a ∈ y.inOrder → validate none (.operand a) = .ok () := fun a ha =>
      hv a (by simp [Chain.inOrder, ha])
    apply (ihx hx hfx hvx).bind
    rintro k ⟨hk, hkl⟩
    apply (ihy hy hfy hvy).bind
    rintro j ⟨hj, hjl⟩
    refine ⟨Node.upper_mk.mpr ⟨?_, ?_⟩, Label.akin_bind _ _⟩
    · refine ordered_bind hop hfl (Or.inr rfl) rfl rfl ?_
      intro i z hz
      rcases i with _ | _ | i
      · obtain rfl : (k.adopt (some op.serial)).label = z := by simpa using hz
        exact precedes_topLabel (Label.akin_bind _ _) (hkl.adopt _) htop (by simp) hfx hvx
      · obtain rfl : (j.adopt (some op.serial)).label = z := by simpa using hz
        exact precedes_topLabel (Label.akin_bind _ _) (hjl.adopt _) hu.1 (fun _ => hu.2) hfy hvy
      · simp at hz
    · simpa using ⟨Or.inl (upper_adopt hk _), Or.inl (upper_adopt hj _)⟩

theorem hang_meets {p : Option Nat} (ht : t.Ordered) (hf : ∀ i ∈ t.inOrder, Fits i)
    (hv : ∀ a, .operand a ∈ t.inOrder → validate none (.operand a) = .ok ()) :
    Meets [.shape, .precedence] (hang p t) fun m =>
      m.Upper (Label.Ordered .complete₀) ∧ (topLabel t).Akin m.label := by
  have hs := settle_meets ht hf hv
  cases t with
  | operand a => exact hs
  | unary op x =>
    apply hs.bind
    rintro k ⟨hk, hkl⟩
    exact ⟨upper_adopt hk p, hkl.adopt p⟩
  | binary op x y =>
    apply hs.bind
    rintro k ⟨hk, hkl⟩
    exact ⟨upper_adopt hk p, hkl.adopt p⟩

/-- A built chain passes the check but for the width of a group. -/
theorem validate_meets (ht : t.Graded) (hf : ∀ i ∈ t.inOrder, Fits i) (limit : Option Nat)
    (hl : ∀ q ∈ limit, ∀ p ∈ t.top?, q ≤ p) :
    Meets [.shape, .precedence] (validate limit t) fun _ => True := by
  induction t generalizing limit with
  | operand a =>
    have hfit : a.Fit := hf (.operand a) (by simp [Chain.inOrder])
    exact hfit.valid
  | unary op x ih =>
    obtain ⟨⟨hop, -⟩, hfx⟩ := fits_unary.mp hf
    have hk : check op 1 limit = .ok (some op.rank) :=
      Chain.check_extends hop (Or.inl rfl) limit fun q hq => hl q hq _ rfl
    rw [validate, hk]
    refine ih ht.2 hfx (some op.rank) ?_
    intro q hq p hp
    obtain rfl : op.rank = q := by simpa using hq
    exact ht.1 p hp
  | binary op x y ihx ihy =>
    obtain ⟨hfx, ⟨hop, -⟩, hfy⟩ := fits_binary.mp hf
    obtain ⟨htx, hty, hgx, hgy⟩ := ht
    have hk : check op 2 limit = .ok (some op.rank) :=
      Chain.check_extends hop (Or.inr rfl) limit fun q hq => hl q hq _ rfl
    have hlim : ∀ z : Chain Operand, (∀ p ∈ z.top?, op.rank ≤ p) →
        ∀ q ∈ some op.rank, ∀ p ∈ z.top?, q ≤ p := by
      intro z hz q hq p hp
      obtain rfl : op.rank = q := by simpa using hq
      exact hz p hp
    rw [validate, hk]
    apply (ihx hgx hfx (some op.rank) (hlim x htx)).bind
    intro _ _
    exact ihy hgy hfy (some op.rank) (hlim y hty)

/-- The outcome of rebuilding: at once for the chain, and on demand for what is in its operands. -/
def Rebuilds (x : Except Failure (Except Failure Node)) (part : Part) : Prop :=
  Meets [.shape, .precedence] x fun inner => Meets [.shape, .precedence] inner fun m =>
    m.Upper (Label.Ordered .complete₀) ∧ m.label.part = part

theorem rebuild_meets (p : Option Nat) (hf : ∀ i ∈ c.inOrder, Fits i) :
    Rebuilds (rebuild p (.ok c.inOrder)) (topLabel c).part := by
  rcases Chain.build_spec (·.label.token) c with ⟨-, t, hb, ht, hi⟩ | ⟨-, op, r, q, hb⟩
  · have hft : ∀ i ∈ t.inOrder, Fits i := hi ▸ hf
    have hvm := validate_meets ht.1 hft none (by simp)
    cases hv : validate none t with
    | error f =>
      rw [hv] at hvm
      have he : rebuild p (.ok c.inOrder) = .error f := by
        simp [rebuild, hb, hv, Bind.bind, Except.bind]
      rw [he]
      exact hvm
    | ok u =>
      have he : rebuild p (.ok c.inOrder) = .ok (hang p t) := by
        simp [rebuild, hb, hv, Bind.bind, Except.bind, pure, Except.pure]
      rw [he]
      refine (hang_meets ht hft fun a ha => validate_operands hv ha).imp ?_
      rintro m ⟨hm, hlab⟩
      exact ⟨hm, hlab.part.trans (part_topLabel hi hf)⟩
  · have he : rebuild p (.ok c.inOrder) = op.fail (.looseOperand op.name r q) := by
      simp [rebuild, hb, Label.fail, Bind.bind, Except.bind]
    rw [he]
    exact .fail (by simp [Cause.stage])

/-- A child that has been rebuilt is the same part of its parent. -/
def Replaces (b : Bool) (k j : Node) : Prop :=
  (j.Upper (Label.Ordered .complete₀) ∨ b = true ∧ j.Settled) ∧ j.label.part = k.label.part

theorem parts_of_replaces {b : Bool} {js : List Node} (h : List.Forall₂ (Replaces b) ks js) :
    (js.map Node.label).map Label.part = (ks.map Node.label).map Label.part := by
  rw [List.map_map, List.map_map]
  exact Node.map_eq_of_forall₂ h fun _ _ _ hr => hr.2

/-- A node that is no operator is an operand, and its children are rebuilt by themselves. -/
theorem fit_other (ho : l.isOperator = false) (hl : l.Completed (ks.map Node.label))
    (hk : ∀ k ∈ ks, Meets [.shape, .precedence] (k.rebuildAt (some l.serial))
      (Replaces l.isBlock k)) :
    Fit ⟨l, (ks.map (Node.fold items)).length, do
      return .mk l (← (ks.map (Node.fold items)).mapM (rebuildNow (some l.serial)))⟩ := by
  refine ⟨fun h => ?_, hl.flags, ?_, fun _ => ?_⟩
  · rw [ho] at h
    cases h
  · rw [validate_operand fun h => by rw [ho] at h; cases h]
    trivial
  · have hall : Meets [.shape, .precedence] (ks.mapM (Node.rebuildAt (some l.serial)))
        (List.Forall₂ (Replaces l.isBlock) ks) := Meets.mapM hk
    rw [List.mapM_map]
    apply hall.bind
    intro js hjs
    refine ⟨Node.upper_mk.mpr ⟨⟨hl.flags, ?_, fun h => ?_⟩, ?_⟩, ?_⟩
    · rw [parts_of_replaces hjs]
      exact hl.shaped
    · rw [ho] at h
      cases h
    · exact forall_of_forall₂ hjs fun _ _ _ hj => hj.1
    · exact .refl l

/-- A group is an operand, and its children are rebuilt as soon as it is met. -/
theorem fit_group {inner : List (Except Failure Node)} (hg : l.isGrouping = true)
    (hl : l.Completed (ks.map Node.label))
    (hi : List.Forall₂ (fun k i => Meets [.shape, .precedence] i (Replaces l.isBlock k)) ks inner) :
    Fit ⟨l, (ks.map (Node.fold items)).length, do
      let js ← inner.mapM id
      return .mk (bind l js) js⟩ := by
  have ho := Label.isOperator_of_grouping hg
  have hc : l.flags.complete = true := by rw [hl.flags]
  obtain ⟨hu, hlen⟩ := (Label.shaped_operator ho).mp hl.shaped
  have hprio := Label.priority_grouping hg hc
  refine ⟨fun _ => Or.inl hg, hl.flags, ?_, fun hv => ?_⟩
  · by_cases ha : l.arity = .unary
    · rw [validate_operand fun _ => check_ok (by simpa using hlen) (fun _ => ha) fun _ => by
        rw [Label.rank_of_priority hprio, hprio]]
      trivial
    · have hf : validate none (.operand ⟨l, (ks.map (Node.fold items)).length, do
          let js ← inner.mapM id
          return .mk (bind l js) js⟩) = l.fail (.groupWidth l.name) := by
        simp only [validate, ho, if_true, check]
        rw [if_neg (by simpa using hlen), if_pos ⟨hg, ha⟩]
        rfl
      rw [hf]
      exact .fail (by simp [Cause.stage])
  · have ha : l.arity = .unary := unary_of_validate hv hg
    have hall : Meets [.shape, .precedence] (inner.mapM id)
        (List.Forall₂ (Replaces l.isBlock) ks) := by
      clear hlen hl hv
      induction hi with
      | nil => exact List.Forall₂.nil
      | cons hk _ ih =>
        rw [List.mapM_cons]
        apply hk.bind
        intro j hj
        apply ih.bind
        intro js hjs
        exact List.Forall₂.cons hj hjs
    apply hall.bind
    intro js hjs
    have hakin := Label.akin_bind l js
    obtain ⟨s, a, b, hform⟩ := Label.isOperator_iff.mp ho
    have hform' : (bind l js).form = .operator s a ((js.map Node.label).map Label.serial) := by
      rw [Label.bind_operator hform, List.map_map]
      rfl
    refine ⟨Node.upper_mk.mpr ⟨⟨?_, ?_, fun _ => ⟨⟨s, a, hform'⟩, ?_, ?_, ?_⟩⟩, ?_⟩, hakin⟩
    · rw [hakin.flags, hl.flags]
      rfl
    · rw [parts_of_replaces hjs, hform', ← Label.arity_of_form hform]
      exact ⟨hu, hlen⟩
    · rw [hakin.arity]
      exact fun _ => ha
    · intro _
      rw [hakin.priority, hakin.rank, Label.rank_of_priority hprio, hprio]
    · rw [hakin.grouping, hg]
      intro h
      cases h
    · have hb := Label.not_isBlock_of_operator ho
      rw [hb] at hjs
      have hkids := forall_of_forall₂ hjs fun _ _ _ hj => hj.1
      intro j hj
      exact Or.inl ((hkids j hj).resolve_right (by simp))

/-- An operator without operands is one itself. -/
theorem fit_nullary (ho : l.isOperator = true) (hg : l.isGrouping = false)
    (ha : l.arity = .nullary) (hl : l.Completed (ks.map Node.label)) :
    Fit ⟨l, (ks.map (Node.fold items)).length, .ok (.mk (bind l []) [])⟩ := by
  obtain ⟨-, hlen⟩ := (Label.shaped_operator ho).mp hl.shaped
  have hakin := Label.akin_bind l []
  obtain ⟨s, a, b, hform⟩ := Label.isOperator_iff.mp ho
  obtain rfl : a = .nullary := by rw [← ha, Label.arity_of_form hform]
  have hform' : (bind l []).form = .operator s .nullary [] := by rw [Label.bind_operator hform]; rfl
  refine ⟨fun _ => Or.inr ha, hl.flags, ?_, fun _ => ?_⟩
  · rw [validate_operand fun _ => check_ok (by simpa using hlen) (by simp [hg]) (by simp [ha])]
    trivial
  · refine ⟨Node.upper_mk.mpr ⟨⟨?_, ?_, fun _ => ⟨⟨s, _, hform'⟩, ?_, ?_, ?_⟩⟩, by simp⟩, hakin⟩
    · rw [hakin.flags, hl.flags]
      rfl
    · rw [hform']
      exact ⟨by simp, rfl⟩
    · rw [hakin.grouping, hg]
      intro h
      cases h
    · rw [hakin.arity, ha]
      intro h
      exact (h rfl).elim
    · intro _ i k hk
      simp at hk

/-- The items of a chain of operators around operands that can be settled. -/
def Chained (part : Part) (its : List (Chain.Item Operand)) : Prop :=
  ∃ c : Chain Operand, c.inOrder = its ∧ (topLabel c).part = part ∧ ∀ i ∈ its, Fits i

/-- An operator with operands extends the chains of its operands. -/
theorem chained_extension (ho : l.isOperator = true) (hg : l.isGrouping = false)
    (ha : l.arity ≠ .nullary) (hl : l.Completed (ks.map Node.label))
    (hk : ∀ k ∈ ks, Meets [.shape, .precedence] (k.fold items) (Chained k.label.part)) :
    Meets [.shape, .precedence] (items l (ks.map (Node.fold items))) (Chained l.part) := by
  have hc : l.flags.complete = true := by rw [hl.flags]
  rw [items, if_pos ⟨ho, by simp [hl.flags]⟩, if_neg (by simp [hg]), if_neg ha]
  apply (Label.priority_meets hc).bind
  intro p hp
  obtain rfl := Label.rank_of_priority hp
  obtain ⟨hu, hlen⟩ := (Label.shaped_operator ho).mp hl.shaped
  have hfl : l.flags = .complete₀ := hl.flags
  have hext : l.Extends l.arity := ⟨ho, by rw [hfl]; rfl, hg, rfl, hp⟩
  rw [List.length_map, List.length_map] at hlen
  cases harity : l.arity with
  | unresolved => exact (hu harity).elim
  | nullary => exact (ha harity).elim
  | unary =>
    rw [harity] at hlen hext
    obtain ⟨k, rfl⟩ := List.length_eq_one_iff.mp hlen
    apply (hk k (by simp)).bind
    rintro its ⟨c, rfl, -, hf⟩
    exact ⟨.unary l c, rfl, rfl, fits_unary.mpr ⟨⟨hext, hfl⟩, hf⟩⟩
  | binary =>
    rw [harity] at hlen hext
    obtain ⟨j, k, rfl⟩ := List.length_eq_two.mp hlen
    apply (hk j (by simp)).bind
    rintro its ⟨c, rfl, -, hf⟩
    apply (hk k (by simp)).bind
    rintro its ⟨e, rfl, -, he⟩
    exact ⟨.binary l c e, rfl, rfl, fits_binary.mpr ⟨hf, ⟨hext, hfl⟩, he⟩⟩

end Operand

namespace Node

variable {n m k : Node} {l : Label} {ks : List Node}

theorem mapM_eq_self {f : Node → Except Failure Node} (h : ∀ k ∈ ks, f k = .ok k) :
    ks.mapM f = .ok ks := by
  induction ks with
  | nil => rfl
  | cons k ks ih =>
    rw [List.mapM_cons, h k (by simp), ih fun j hj => h j (by simp [hj])]
    rfl

/-- What is settled stays as it is: an operator in it is one operand, and in its place. -/
theorem Settled.rebuildAt (h : n.Settled) (p : Option Nat) : n.rebuildAt p = .ok n := by
  induction n using induct generalizing p with
  | h l ks ih =>
    obtain ⟨⟨⟨b, ho⟩, -⟩, hk⟩ := settled_mk.mp h
    have hitems : (Node.mk l ks).fold Operand.items = .ok [.operand ⟨l, ks.length,
        do return .mk l (← ks.mapM (Node.rebuildAt (some l.serial)))⟩] := by
      rw [fold_mk, Operand.items, if_neg (by simp [ho.flags]), List.mapM_map, List.length_map]
      rfl
    have hv : Operand.validate none (.operand ⟨l, ks.length,
        do return .mk l (← ks.mapM (Node.rebuildAt (some l.serial)))⟩) = .ok () := by
      refine Operand.validate_operand fun hop => ?_
      have hs := ho.seated hop
      have hlen := ((Label.shaped_operator hop).mp ho.shaped).2
      exact Operand.check_ok (by simpa using hlen) hs.grouping hs.known
    rw [rebuild_of_operand hitems, hv, mapM_eq_self fun k hm => ih k hm (hk k hm) _]
    rfl

theorem rebuilds_of_items (p : Option Nat)
    (h : Meets [.shape, .precedence] (n.fold Operand.items) (Operand.Chained n.label.part)) :
    Operand.Rebuilds (Operand.rebuild p (n.fold Operand.items)) n.label.part := by
  cases hi : n.fold Operand.items with
  | error f =>
    rw [hi] at h
    exact h
  | ok its =>
    rw [hi] at h
    obtain ⟨c, rfl, hp, hf⟩ := h
    rw [← hp]
    exact Operand.rebuild_meets p hf

/-- A complete tree taken apart: a chain of operators around operands that can be settled. -/
theorem Upper.items (h : n.Upper Label.Completed) :
    Meets [.shape, .precedence] (n.fold Operand.items) (Operand.Chained n.label.part) := by
  induction n using induct with
  | h l ks ih =>
    obtain ⟨hl, hk⟩ := upper_mk.mp h
    have hkids : ∀ k ∈ ks, k.Upper Label.Completed →
        Operand.Rebuilds (Operand.rebuild (some l.serial) (k.fold Operand.items)) k.label.part :=
      fun k hm hu => rebuilds_of_items _ (ih k hm hu)
    rw [fold_mk]
    by_cases ho : l.isOperator = true
    · have hup := h.kids (Label.not_isBlock_of_operator ho)
      have hfresh : l.isOperator = true ∧ (!l.flags.reordered) = true := ⟨ho, by simp [hl.flags]⟩
      by_cases hg : l.isGrouping = true
      · rw [Operand.items, if_pos hfresh, if_pos hg, List.mapM_map]
        have hinner : ∀ k ∈ ks, Meets [.shape, .precedence]
            (Operand.rebuild (some l.serial) (k.fold Operand.items)) fun i =>
              Meets [.shape, .precedence] i (Operand.Replaces l.isBlock k) := by
          intro k hm
          refine (hkids k hm (hup k hm)).imp fun i hi => hi.imp ?_
          rintro m ⟨hu, hp⟩
          exact ⟨Or.inl hu, hp⟩
        apply (Meets.mapM hinner).bind
        intro inner hin
        refine ⟨.operand _, rfl, rfl, ?_⟩
        simpa [Operand.Fits] using Operand.fit_group hg hl hin
      · have hplain : l.isGrouping = false := by simpa using hg
        by_cases ha : l.arity = .nullary
        · rw [Operand.items, if_pos hfresh, if_neg hg, if_pos ha]
          refine ⟨.operand _, rfl, rfl, ?_⟩
          simpa [Operand.Fits] using Operand.fit_nullary ho hplain ha hl
        · exact Operand.chained_extension ho hplain ha hl fun k hm => ih k hm (hup k hm)
    · have ho : l.isOperator = false := by simpa using ho
      rw [Operand.items, if_neg (by simp [ho])]
      refine ⟨.operand _, rfl, rfl, ?_⟩
      -- the children of a block may be settled, and then rebuilding leaves them alone
      have hrebuild : ∀ k ∈ ks, Meets [.shape, .precedence] (k.rebuildAt (some l.serial))
          (Operand.Replaces l.isBlock k) := by
        intro k hm
        rcases hk k hm with hu | ⟨hb, hs⟩
        · apply (hkids k hm hu).bind
          intro i hi
          apply hi.imp
          rintro m ⟨hu, hp⟩
          exact ⟨Or.inl hu, hp⟩
        · rw [hs.rebuildAt]
          exact ⟨Or.inr ⟨hb, hs⟩, rfl⟩
      simpa [Operand.Fits] using Operand.fit_other ho hl hrebuild

theorem Upper.rebuild (h : n.Upper Label.Completed) :
    Meets [.shape, .precedence] n.rebuild (Upper (Label.Ordered .complete₀)) := by
  apply (rebuilds_of_items _ h.items).bind
  intro i hi
  exact hi.imp fun m hm => hm.1

theorem labels_like {js : List Node} (h : List.Forall₂ (fun k j => k.label.Like j.label) ks js) :
    List.Forall₂ Label.Like (ks.map label) (js.map label) := by
  rw [List.forall₂_map_left_iff, List.forall₂_map_right_iff]
  exact h

theorem Settled.markReordered (h : n.Settled) : n.markReordered = .ok n := by
  induction n using induct with
  | h l ks ih =>
    obtain ⟨⟨⟨b, ho⟩, -⟩, hk⟩ := settled_mk.mp h
    have hall : ks.mapM Node.markReordered = .ok ks := mapM_eq_self fun k hm => ih k hm (hk k hm)
    have hl : { l with flags := { l.flags with reordered := true } : Label } = l := by
      have hf : { l.flags with reordered := true } = l.flags := by rw [ho.flags]
      rw [hf]
    rw [Node.markReordered, if_neg (by simp [ho.flags]), markReorderedAll_eq_mapM, hall]
    simp only [bind, Except.bind, hl]
    rfl

theorem Upper.markReordered {stages : List Cause.Stage}
    (h : n.Upper (Label.Ordered .complete₀)) : Meets stages n.markReordered fun m =>
      m.Upper (Label.Ordered .reordered₀) ∧ n.label.Like m.label := by
  induction n using induct with
  | h l ks ih =>
    obtain ⟨hl, hk⟩ := upper_mk.mp h
    have hkids : ∀ k ∈ ks, Meets stages k.markReordered fun j =>
        (j.Upper (Label.Ordered .reordered₀) ∨ l.isBlock = true ∧ j.Settled) ∧
          k.label.Like j.label := by
      intro k hm
      rcases hk k hm with hu | ⟨hb, hs⟩
      · exact (ih k hm hu).imp fun j hj => ⟨Or.inl hj.1, hj.2⟩
      · rw [hs.markReordered]
        exact ⟨Or.inr ⟨hb, hs⟩, .refl _⟩
    rw [Node.markReordered, if_neg (by simp [hl.flags, Flags.complete₀]), markReorderedAll_eq_mapM]
    apply (Meets.mapM hkids).bind
    intro js hjs
    have hlike : l.Like { l with flags := { l.flags with reordered := true } } :=
      ⟨rfl, rfl, rfl, rfl⟩
    have hlabels := labels_like (hjs.imp fun _ _ hj => hj.2)
    have hord := hl.like hlike hlabels
    refine ⟨upper_mk.mpr ⟨⟨by simp only [hl.flags]; rfl, hord.shaped, hord.seated⟩, ?_⟩, hlike⟩
    exact forall_of_forall₂ hjs fun _ _ _ hj => hj.1

/-- Reordering fails for the width of a group or for a priority. -/
theorem Upper.reorder (h : n.Upper Label.Completed) :
    Meets [.shape, .precedence] n.reorder (Upper (Label.Ordered .reordered₀)) := by
  apply h.rebuild.bind
  intro m hm
  exact hm.markReordered.imp fun k hk => hk.1

end Node

end TokenShell
