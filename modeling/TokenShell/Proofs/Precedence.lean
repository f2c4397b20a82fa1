import Mathlib.Data.List.Chain
import TokenShell.Tree.Chain

/-! Operator chains and the trees that respect their priorities: a flat chain has at most one, the
chain is built into it, and there is none exactly if a prefix operator is too loose. -/
namespace TokenShell

/-- The priority of an operator that has one. -/
def Label.rank (l : Label) : Nat :=
  match l.priority with
  | .ok p => p
  | .error _ => 0

theorem Label.rank_of_priority {l : Label} {p : Nat} (h : l.priority = .ok p) : l.rank = p := by
  simp [rank, h]

namespace Chain

variable {α β : Type} {text : α → Token} {c t x y : Chain α} {op : Label} {p q : Nat}
  {items rest : List (Item α)} {w : Waiting α} {ws : List (Waiting α)}

/-- The items of a chain as they are read: a prefix operator before its operand, an infix operator
between its operands. -/
def inOrder : Chain α → List (Item α)
  | operand a => [.operand a]
  | unary op x => .unary op op.rank :: x.inOrder
  | binary op x y => x.inOrder ++ .binary op op.rank :: y.inOrder

/-- The priority of the operator at the top. -/
def top? : Chain α → Option Nat
  | operand _ => none
  | unary op _ | binary op _ _ => some op.rank

/-- The priority of the operator at the top if it stands between two operands. -/
def binaryTop? : Chain α → Option Nat
  | binary op _ _ => some op.rank
  | _ => none

/-- No operator has a greater priority than an operator right below it. -/
def Graded : Chain α → Prop
  | operand _ => True
  | unary op x => (∀ p ∈ x.top?, op.rank ≤ p) ∧ x.Graded
  | binary op x y =>
    (∀ p ∈ x.top?, op.rank ≤ p) ∧ (∀ p ∈ y.top?, op.rank ≤ p) ∧ x.Graded ∧ y.Graded

/-- An infix operator below a prefix operator, or at the right below an infix operator, binds more
tightly than that one. -/
def LeftAssociative : Chain α → Prop
  | operand _ => True
  | unary op x => (∀ p ∈ x.binaryTop?, op.rank < p) ∧ x.LeftAssociative
  | binary op x y =>
    (∀ p ∈ y.binaryTop?, op.rank < p) ∧ x.LeftAssociative ∧ y.LeftAssociative

/-- Whether a tree respects its priorities. -/
def Ordered (c : Chain α) : Prop := c.Graded ∧ c.LeftAssociative

def Item.priority? : Item α → Option Nat
  | operand _ => none
  | unary _ p | binary _ p => some p

/-- What may stand right after an item: anything but a prefix operator that binds less tightly. -/
def Item.Admits (i : Item α) : Item α → Prop
  | unary _ p => ∀ q ∈ i.priority?, q ≤ p
  | _ => True

/-- No prefix operator stands right after an operator of greater priority. -/
def NoLoose (items : List (Item α)) : Prop := items.IsChain Item.Admits

/-- A chain fit to be the last operand of an operator with a given priority. -/
def Under (q : Nat) (c : Chain α) : Prop := (∀ p ∈ c.top?, q ≤ p) ∧ ∀ p ∈ c.binaryTop?, q < p

theorem top?_of_binaryTop? (h : p ∈ c.binaryTop?) : p ∈ c.top? := by
  cases c <;> simp_all [binaryTop?, top?]

theorem ordered_unary : (unary op x).Ordered ↔ Under op.rank x ∧ x.Ordered := by
  simp only [Ordered, Graded, LeftAssociative, Under]
  tauto

theorem ordered_binary : (binary op x y).Ordered ↔
    (∀ p ∈ x.top?, op.rank ≤ p) ∧ Under op.rank y ∧ x.Ordered ∧ y.Ordered := by
  simp only [Ordered, Graded, LeftAssociative, Under]
  tauto

/-! The operand of a loose prefix operator starts with operators that are no tighter. -/

theorem inOrder_ne_nil (c : Chain α) : c.inOrder ≠ [] := by
  cases c <;> simp [inOrder]

/-- A prefix operator at the left end of a graded tree is at least as tight as the top. -/
theorem Graded.top_le_first (h : t.Graded) (ht : q ∈ t.top?)
    (hf : t.inOrder.head? = some (.unary op p)) : q ≤ p := by
  induction t generalizing q with
  | operand a => simp [top?] at ht
  | unary o x _ =>
    simp only [inOrder, List.head?_cons, Option.some.injEq, Item.unary.injEq] at hf
    simp only [top?, Option.mem_def, Option.some.injEq] at ht
    omega
  | binary o x y ihx _ =>
    simp only [top?, Option.mem_def, Option.some.injEq] at ht
    subst ht
    rw [inOrder, List.head?_append_of_ne_nil _ (inOrder_ne_nil x)] at hf
    cases hx : x.top? with
    | none => cases x <;> simp_all [inOrder, top?]
    | some r => exact (h.1 r hx).trans (ihx h.2.2.1 hx hf)

theorem Graded.admits_first (h : t.Graded) (ht : ∀ q ∈ t.top?, p ≤ q) {i : Item α}
    (hi : i.priority? = some p) : ∀ j ∈ t.inOrder.head?, i.Admits j := by
  intro j hj
  cases j with
  | operand a => trivial
  | binary o r => trivial
  | unary o r =>
    intro q hq
    obtain rfl : p = q := by simpa [hi] using hq
    cases hx : t.top? with
    | none => cases t <;> simp_all [inOrder, top?]
    | some s => exact (ht s hx).trans (h.top_le_first hx hj)

theorem Graded.noLoose (h : t.Graded) : NoLoose t.inOrder := by
  induction t with
  | operand a => exact List.isChain_singleton _
  | unary op x ih =>
    exact List.isChain_cons.mpr ⟨h.2.admits_first h.1 rfl, ih h.2⟩
  | binary op x y ihx ihy =>
    obtain ⟨-, hy, hgx, hgy⟩ := h
    refine List.isChain_append.mpr ⟨ihx hgx, ?_, ?_⟩
    · exact List.isChain_cons.mpr ⟨hgy.admits_first hy rfl, ihy hgy⟩
    · intro i _ j hj
      obtain rfl : Item.binary op op.rank = j := by simpa using hj
      trivial

/-! A tree that respects its priorities is what its own items are built into. -/

@[simp] theorem closeAll_nil (x : Chain α) : closeAll x [] = x := rfl

@[simp] theorem closeAll_cons (x : Chain α) (w : Waiting α) (ws : List (Waiting α)) :
    closeAll x (w :: ws) = closeAll (w.close x) ws := rfl

@[simp] theorem closeAll_append (x : Chain α) (us ws : List (Waiting α)) :
    closeAll x (us ++ ws) = closeAll (closeAll x us) ws := List.foldl_append

theorem closeDownTo_append {us : List (Waiting α)} (h : ∀ u ∈ us, p ≤ u.priority) :
    closeDownTo p x (us ++ ws) = closeDownTo p (closeAll x us) ws := by
  induction us generalizing x with
  | nil => rfl
  | cons u us ih =>
    have hu := h u (by simp)
    have hus := ih (x := u.close x) fun v hv => h v (by simp [hv])
    simpa [closeDownTo, hu] using hus

theorem closeDownTo_looser (h : ∀ w ∈ ws.head?, w.priority < p) :
    closeDownTo p x ws = (x, ws) := by
  cases ws with
  | nil => rfl
  | cons w ws =>
    have hw : ¬ p ≤ w.priority := by simpa using h w
    simp [closeDownTo, hw]

theorem checkLoose_ok (h : ∀ w ∈ ws.head?, w.priority ≤ p) : checkLoose op p ws = .ok () := by
  cases ws with
  | nil => rfl
  | cons w ws =>
    have hw : ¬ p < w.priority := by simpa using h w
    simp [checkLoose, hw]

/-- Reading the items of a tree below the waiting operators leaves just the operators of the tree's
right edge waiting above them, none of them looser than the top of the tree. -/
theorem buildFrom_inOrder (text : α → Token) (ws : List (Waiting α)) (hg : t.Ordered)
    (hw : ∀ w ∈ ws.head?, Under w.priority t) :
    ∃ us x, closeAll x us = t ∧ (∀ u ∈ us, ∃ q ∈ t.top?, q ≤ u.priority) ∧
      ∀ rest, buildFrom text ws none (t.inOrder ++ rest) =
        buildFrom text (us ++ ws) (some x) rest := by
  induction t generalizing ws with
  | operand a => exact ⟨[], .operand a, rfl, by simp, fun rest => rfl⟩
  | unary op x ih =>
    obtain ⟨hx, hgx⟩ := ordered_unary.mp hg
    obtain ⟨us, z, hz, hus, hb⟩ := ih (.unary op op.rank :: ws) hgx (by
      intro w h
      obtain rfl : Waiting.unary op op.rank = w := by simpa using h
      exact hx)
    have hloose : checkLoose op op.rank ws = .ok () :=
      checkLoose_ok fun w h => (hw w h).1 _ rfl
    refine ⟨us ++ [.unary op op.rank], z, by simp [hz, Waiting.close], ?_, ?_⟩
    · intro u hu
      refine ⟨op.rank, rfl, ?_⟩
      rcases List.mem_append.mp hu with hu | hu
      · obtain ⟨q, hq, hle⟩ := hus u hu
        exact (hx.1 q hq).trans hle
      · obtain rfl : u = .unary op op.rank := by simpa using hu
        exact le_rfl
    · intro rest
      have hr := hb rest
      simp only [List.append_assoc, List.singleton_append]
      rw [← hr, inOrder, List.cons_append, buildFrom, hloose]
      rfl
  | binary op x y ihx ihy =>
    obtain ⟨hx, hy, hgx, hgy⟩ := ordered_binary.mp hg
    have htop : ∀ w ∈ ws.head?, w.priority < op.rank := fun w h => (hw w h).2 _ rfl
    obtain ⟨us, z, hz, hus, hb⟩ := ihx ws hgx (by
      intro w h
      refine ⟨fun r hr => ?_, fun r hr => ?_⟩
      · exact (htop w h).le.trans (hx r hr)
      · exact (htop w h).trans_le (hx r (top?_of_binaryTop? hr)))
    obtain ⟨vs, z', hz', hvs, hb'⟩ := ihy (.binary x op op.rank :: ws) hgy (by
      intro w h
      obtain rfl : Waiting.binary x op op.rank = w := by simpa using h
      exact hy)
    -- the infix operator closes the right edge of its left operand and nothing below it
    have hclose : closeDownTo op.rank z (us ++ ws) = (x, ws) := by
      rw [closeDownTo_append, hz, closeDownTo_looser htop]
      intro u hu
      obtain ⟨q, hq, hle⟩ := hus u hu
      exact (hx q hq).trans hle
    refine ⟨vs ++ [.binary x op op.rank], z', by simp [hz', Waiting.close], ?_, ?_⟩
    · intro u hu
      refine ⟨op.rank, rfl, ?_⟩
      rcases List.mem_append.mp hu with hu | hu
      · obtain ⟨q, hq, hle⟩ := hvs u hu
        exact (hy.1 q hq).trans hle
      · obtain rfl : u = .binary x op op.rank := by simpa using hu
        exact le_rfl
    · intro rest
      simp only [List.append_assoc, List.singleton_append]
      rw [← hb' rest, inOrder, List.append_assoc, hb, List.cons_append, buildFrom, hclose]

theorem build_inOrder (text : α → Token) (hg : t.Ordered) : build text t.inOrder = .ok t := by
  obtain ⟨us, x, hx, -, hb⟩ := buildFrom_inOrder text [] hg (by simp)
  have hr := hb []
  simp only [List.append_nil] at hr
  rw [build, hr, buildFrom, hx]

/-- Two trees with the same items that respect the priorities are the same. -/
theorem eq_of_inOrder_eq (hc : c.Ordered) (ht : t.Ordered) (h : c.inOrder = t.inOrder) : c = t := by
  have hb := build_inOrder (fun _ => ⟨[], []⟩) hc
  rw [h, build_inOrder _ ht] at hb
  exact (Except.ok.inj hb).symm

/-! What is built respects the priorities, and building fails at a loose prefix operator only. -/

/-- The items behind a waiting operator. -/
def Waiting.consumed : Waiting α → List (Item α)
  | unary op p => [.unary op p]
  | binary x op p => x.inOrder ++ [.binary op p]

/-- The item of a waiting operator itself. -/
def Waiting.item : Waiting α → Item α
  | unary op p => .unary op p
  | binary _ op p => .binary op p

/-- The items behind all waiting operators. -/
def read : List (Waiting α) → List (Item α)
  | [] => []
  | w :: ws => read ws ++ w.consumed

/-- A waiting operator has its own priority and a left operand that respects it. -/
def Waiting.Sound : Waiting α → Prop
  | unary op p => p = op.rank
  | binary x op p => p = op.rank ∧ x.Ordered ∧ ∀ q ∈ x.top?, p ≤ q

/-- Whether a waiting operator may be below one with a given priority. -/
def Waiting.Above (q : Nat) : Waiting α → Prop
  | unary _ p => q ≤ p
  | binary _ _ p => q < p

/-- The waiting operators bind more and more tightly. -/
def Stacked : List (Waiting α) → Prop
  | [] => True
  | w :: ws => w.Sound ∧ (∀ v ∈ ws.head?, w.Above v.priority) ∧ Stacked ws

theorem Waiting.inOrder_close (h : w.Sound) (x : Chain α) :
    (w.close x).inOrder = w.consumed ++ x.inOrder := by
  cases w with
  | unary op p => simp_all [Sound, close, consumed, inOrder]
  | binary y op p => simp_all [Sound, close, consumed, inOrder]

theorem Waiting.ordered_close (h : w.Sound) (hx : x.Ordered) (hu : Under w.priority x) :
    (w.close x).Ordered := by
  cases w with
  | unary op p =>
    obtain rfl : p = op.rank := h
    exact ordered_unary.mpr ⟨hu, hx⟩
  | binary y op p =>
    obtain ⟨rfl, hy, hp⟩ := h
    exact ordered_binary.mpr ⟨hp, hu, hy, hx⟩

theorem Waiting.under_close (h : w.Sound) (ha : w.Above q) (x : Chain α) : Under q (w.close x) := by
  cases w with
  | unary op p => simp_all [Sound, Above, Under, close, top?, binaryTop?]
  | binary y op p =>
    simp_all only [Sound, Above, Under, close, top?, binaryTop?, Option.mem_def, Option.some.injEq,
      forall_eq', and_true]
    omega

theorem Waiting.top?_close (h : w.Sound) (x : Chain α) : (w.close x).top? = some w.priority := by
  cases w with
  | unary op p => simp_all [Sound, close, top?, priority]
  | binary y op p => simp_all [Sound, close, top?, priority]

theorem closeAll_ordered (hs : Stacked ws) (hx : x.Ordered)
    (hu : ∀ w ∈ ws.head?, Under w.priority x) :
    (closeAll x ws).Ordered ∧ (closeAll x ws).inOrder = read ws ++ x.inOrder := by
  induction ws generalizing x with
  | nil => simpa [read] using hx
  | cons w ws ih =>
    obtain ⟨hw, habove, hs⟩ := hs
    have h := ih hs (w.ordered_close hw hx (hu w rfl))
      fun v hv => w.under_close hw (habove v hv) x
    simpa [read, w.inOrder_close hw] using h

/-- What is left after an infix operator has closed the operators that bind at least as tightly. -/
theorem closeDownTo_ordered (hs : Stacked ws) (hx : x.Ordered)
    (hu : ∀ w ∈ ws.head?, Under w.priority x) (hp : ∀ q ∈ x.top?, p ≤ q) :
    ∃ y vs, closeDownTo p x ws = (y, vs) ∧ Stacked vs ∧ y.Ordered ∧ (∀ q ∈ y.top?, p ≤ q) ∧
      (∀ v ∈ vs.head?, v.priority < p) ∧ read vs ++ y.inOrder = read ws ++ x.inOrder := by
  induction ws generalizing x with
  | nil => exact ⟨x, [], rfl, trivial, hx, hp, by simp, rfl⟩
  | cons w ws ih =>
    by_cases h : p ≤ w.priority
    · obtain ⟨hw, habove, hs⟩ := hs
      obtain ⟨y, vs, hc, hr⟩ := ih (x := w.close x) hs (w.ordered_close hw hx (hu w rfl))
        (fun v hv => w.under_close hw (habove v hv) x) (by simpa [w.top?_close hw] using h)
      refine ⟨y, vs, by simpa [closeDownTo, h] using hc, ?_⟩
      simpa [read, w.inOrder_close hw] using hr
    · refine ⟨x, w :: ws, by simp [closeDownTo, h], hs, hx, hp, ?_, rfl⟩
      intro v hv
      obtain rfl : w = v := by simpa using hv
      omega

/-- Items in which operators and operands follow each other as in a chain; `due` tells whether an
operand has to come. -/
def Alternates : Bool → List (Item α) → Prop
  | true, .operand _ :: items => Alternates false items
  | true, .unary op p :: items => p = op.rank ∧ Alternates true items
  | false, .binary op p :: items => p = op.rank ∧ Alternates true items
  | false, [] => True
  | _, _ => False

theorem alternates_inOrder (c : Chain α) (h : Alternates false rest) :
    Alternates true (c.inOrder ++ rest) := by
  induction c generalizing rest with
  | operand a => exact h
  | unary op x ih => exact ⟨rfl, ih h⟩
  | binary op x y ihx ihy =>
    rw [inOrder, List.append_assoc]
    exact ihx ⟨rfl, ihy h⟩

/-- The item read last: the operand just finished, else the innermost waiting operator. -/
def lastRead (ws : List (Waiting α)) : Option α → List (Item α)
  | some a => [.operand a]
  | none => (ws.head?.map Waiting.item).toList

theorem noLoose_binary {i : Item α} : NoLoose (i :: .binary op p :: rest) ↔
    NoLoose (.binary op p :: rest) :=
  ⟨List.IsChain.tail, fun h => List.isChain_cons.mpr ⟨by simp [Item.Admits], h⟩⟩

theorem noLoose_due {a : α} : NoLoose (lastRead ws none ++ .operand a :: rest) ↔
    NoLoose (.operand a :: rest) := by
  cases ws with
  | nil => rfl
  | cons w ws =>
    exact ⟨List.IsChain.tail, fun h => List.isChain_cons.mpr ⟨by simp [Item.Admits], h⟩⟩

theorem checkLoose_spec (op : Label) (p : Nat) (ws : List (Waiting α)) (rest : List (Item α)) :
    (checkLoose op p ws = .ok () ∧ ∀ w ∈ ws.head?, w.priority ≤ p) ∨
    (∃ q, checkLoose op p ws = op.fail (.looseOperand op.name p q)) ∧
      ¬ NoLoose (lastRead ws none ++ .unary op p :: rest) := by
  cases ws with
  | nil => exact Or.inl ⟨rfl, by simp⟩
  | cons w ws =>
    by_cases h : p < w.priority
    · refine Or.inr ⟨⟨w.priority, by simp [checkLoose, h]⟩, fun hc => ?_⟩
      have ha := (List.isChain_cons_cons.mp hc).1
      cases w <;> simp_all [Waiting.item, Waiting.priority, Item.Admits, Item.priority?] <;> omega
    · exact Or.inl ⟨by simp [checkLoose, h], by simpa using h⟩

theorem noLoose_unary (h : ∀ w ∈ ws.head?, w.priority ≤ p) :
    NoLoose (lastRead ws none ++ .unary op p :: rest) ↔ NoLoose (.unary op p :: rest) := by
  cases ws with
  | nil => rfl
  | cons w ws =>
    refine ⟨List.IsChain.tail, fun hr => List.isChain_cons_cons.mpr ⟨?_, hr⟩⟩
    have hw := h w rfl
    cases w <;> simpa [Waiting.item, Item.Admits, Item.priority?, Waiting.priority] using hw

/-- Building from any state: either a tree of all the items comes out, or the first loose prefix
operator is refused. The induction is on the items, and the waiting operators stay stacked. -/
theorem buildFrom_spec (text : α → Token) (s : Option α) (hs : Stacked ws)
    (ha : Alternates s.isNone items) :
    (NoLoose (lastRead ws s ++ items) ∧ ∃ t, buildFrom text ws (s.map .operand) items = .ok t ∧
      t.Ordered ∧ t.inOrder = read ws ++ (s.map Item.operand).toList ++ items) ∨
    (¬ NoLoose (lastRead ws s ++ items) ∧ ∃ (op : Label) (p q : Nat),
      buildFrom text ws (s.map .operand) items = op.fail (.looseOperand op.name p q)) := by
  induction items generalizing ws s with
  | nil =>
    cases s with
    | none => exact ha.elim
    | some a =>
      have hu : ∀ w ∈ ws.head?, Under w.priority (.operand a : Chain α) := by
        simp [Under, top?, binaryTop?]
      obtain ⟨ho, hi⟩ := closeAll_ordered hs (x := .operand a) ⟨trivial, trivial⟩ hu
      exact Or.inl ⟨List.isChain_singleton _, _, rfl, ho, by simpa [inOrder] using hi⟩
  | cons i items ih =>
    cases s with
    | none =>
      cases i with
      | operand a =>
        have h := ih (some a) hs ha
        rw [noLoose_due]
        simpa [buildFrom, lastRead] using h
      | unary op p =>
        obtain ⟨rfl, ha⟩ := ha
        rcases checkLoose_spec op op.rank ws items with
          ⟨hc, hle⟩ | ⟨⟨q, hc⟩, hn⟩
        · have hst : Stacked (.unary op op.rank :: ws) := ⟨rfl, hle, hs⟩
          have h := ih none hst ha
          rw [noLoose_unary hle]
          have hb : buildFrom text ws none (.unary op op.rank :: items) =
              buildFrom text (.unary op op.rank :: ws) none items := by
            rw [buildFrom, hc]
            rfl
          simpa [hb, lastRead, Waiting.item, read, Waiting.consumed] using h
        · refine Or.inr ⟨hn, op, op.rank, q, ?_⟩
          rw [Option.map_none, buildFrom, hc]
          rfl
      | binary op p => exact ha.elim
    | some a =>
      cases i with
      | operand b => exact ha.elim
      | unary op p => exact ha.elim
      | binary op p =>
        obtain ⟨rfl, ha⟩ := ha
        obtain ⟨y, vs, hc, hst, hy, htop, hlt, hr⟩ := closeDownTo_ordered (p := op.rank) hs
          (x := .operand a) ⟨trivial, trivial⟩ (by simp [Under, top?, binaryTop?])
          (by simp [top?])
        have hst' : Stacked (.binary y op op.rank :: vs) := ⟨⟨rfl, hy, htop⟩, hlt, hst⟩
        have h := ih none hst' ha
        have hb : buildFrom text ws (some (.operand a)) (.binary op op.rank :: items) =
            buildFrom text (.binary y op op.rank :: vs) none items := by
          rw [buildFrom, hc]
        have hi : read vs ++ y.inOrder = read ws ++ [.operand a] := hr
        have hw : read (.binary y op op.rank :: vs) =
            read ws ++ [.operand a] ++ [.binary op op.rank] := by
          rw [← hi]
          simp [read, Waiting.consumed]
        simpa [hb, hw, lastRead, Waiting.item, noLoose_binary] using h

/-- The items of a chain in any shape are built into a tree that respects the priorities, or a loose
prefix operator is refused. -/
theorem build_spec (text : α → Token) (c : Chain α) :
    (NoLoose c.inOrder ∧ ∃ t, build text c.inOrder = .ok t ∧ t.Ordered ∧ t.inOrder = c.inOrder) ∨
    (¬ NoLoose c.inOrder ∧ ∃ (op : Label) (p q : Nat),
      build text c.inOrder = op.fail (.looseOperand op.name p q)) := by
  have ha : Alternates true (c.inOrder ++ []) := alternates_inOrder c trivial
  rw [List.append_nil] at ha
  have hs : Stacked ([] : List (Waiting α)) := trivial
  exact buildFrom_spec text none hs ha

theorem noLoose_iff_graded (c : Chain α) :
    NoLoose c.inOrder ↔ ∃ t : Chain α, t.inOrder = c.inOrder ∧ t.Graded := by
  constructor
  · intro h
    rcases build_spec (fun _ => ⟨[], []⟩) c with ⟨-, t, -, ht, hi⟩ | ⟨hn, -⟩
    · exact ⟨t, hi, ht.1⟩
    · exact (hn h).elim
  · rintro ⟨t, hi, ht⟩
    exact hi ▸ ht.noLoose

end Chain

end TokenShell
