import TokenShell.Proofs.Phases
import TokenShell.Proofs.Precedence

/-! Reordering of a chain of operators in a node tree, whatever shape the chain came in. -/
namespace TokenShell

namespace Chain

variable {α β : Type} {c t : Chain α} {items : List (Item α)} {r : Label → Label} {f : α → β}

/-- Changes the operators and the operands of a chain, each by itself. -/
def map (r : Label → Label) (f : α → β) : Chain α → Chain β
  | operand a => operand (f a)
  | unary op x => unary (r op) (x.map r f)
  | binary op x y => binary (r op) (x.map r f) (y.map r f)

def Item.map (r : Label → Label) (f : α → β) : Item α → Item β
  | operand a => operand (f a)
  | unary op p => unary (r op) p
  | binary op p => binary (r op) p

theorem inOrder_map (hr : ∀ l, (r l).rank = l.rank) (f : α → β) (c : Chain α) :
    (c.map r f).inOrder = c.inOrder.map (Item.map r f) := by
  induction c with
  | operand a => rfl
  | unary op x ih => simp [map, inOrder, ih, Item.map, hr]
  | binary op x y ihx ihy => simp [map, inOrder, ihx, ihy, Item.map, hr]

theorem top?_map (hr : ∀ l, (r l).rank = l.rank) (f : α → β) (c : Chain α) :
    (c.map r f).top? = c.top? := by
  cases c <;> simp [map, top?, hr]

theorem binaryTop?_map (hr : ∀ l, (r l).rank = l.rank) (f : α → β) (c : Chain α) :
    (c.map r f).binaryTop? = c.binaryTop? := by
  cases c <;> simp [map, binaryTop?, hr]

theorem ordered_map (hr : ∀ l, (r l).rank = l.rank) (h : c.Ordered) : (c.map r f).Ordered := by
  induction c with
  | operand a => exact h
  | unary op x ih =>
    obtain ⟨hu, hx⟩ := ordered_unary.mp h
    refine ordered_unary.mpr ⟨?_, ih hx⟩
    simpa [Under, top?_map hr, binaryTop?_map hr, hr] using hu
  | binary op x y ihx ihy =>
    obtain ⟨ht, hu, hx, hy⟩ := ordered_binary.mp h
    refine ordered_binary.mpr ⟨by simpa [top?_map hr, hr] using ht, ?_, ihx hx, ihy hy⟩
    simpa [Under, top?_map hr, binaryTop?_map hr, hr] using hu

theorem noLoose_map (r : Label → Label) (f : α → β) :
    NoLoose (items.map (Item.map r f)) ↔ NoLoose items := by
  refine (List.isChain_map _).trans (List.IsChain.iff fun i j => ?_)
  cases j with
  | unary op p => cases i <;> simp [Item.map, Item.Admits, Item.priority?]
  | _ => simp [Item.map, Item.Admits]

/-! What the operators and operands are does not matter to how a chain is built. -/

section Naturality

variable {text : α → Token} {text' : β → Token} {p : Nat} {x : Chain α} {ws : List (Waiting α)}

def Waiting.map (r : Label → Label) (f : α → β) : Waiting α → Waiting β
  | unary op p => unary (r op) p
  | binary x op p => binary (x.map r f) (r op) p

theorem Waiting.priority_map (w : Waiting α) : (w.map r f).priority = w.priority := by
  cases w <;> rfl

theorem Waiting.close_map (w : Waiting α) (x : Chain α) :
    (w.map r f).close (x.map r f) = (w.close x).map r f := by
  cases w <;> rfl

theorem closeDownTo_map (p : Nat) (x : Chain α) (ws : List (Waiting α)) :
    closeDownTo p (x.map r f) (ws.map (Waiting.map r f)) =
      ((closeDownTo p x ws).1.map r f, (closeDownTo p x ws).2.map (Waiting.map r f)) := by
  induction ws generalizing x with
  | nil => rfl
  | cons w ws ih =>
    rw [List.map_cons, closeDownTo, closeDownTo, Waiting.priority_map]
    split
    · rw [Waiting.close_map, ih]
    · rfl

theorem closeAll_map (x : Chain α) (ws : List (Waiting α)) :
    closeAll (x.map r f) (ws.map (Waiting.map r f)) = (closeAll x ws).map r f := by
  induction ws generalizing x with
  | nil => rfl
  | cons w ws ih =>
    rw [List.map_cons, closeAll, List.foldl_cons, Waiting.close_map]
    exact ih _

theorem checkLoose_map (hr : ∀ l, (r l).token = l.token) (op : Label) (p : Nat)
    (ws : List (Waiting α)) :
    checkLoose (r op) p (ws.map (Waiting.map r f)) = checkLoose op p ws := by
  cases ws with
  | nil => rfl
  | cons w ws =>
    rw [List.map_cons, checkLoose, checkLoose, Waiting.priority_map]
    simp only [Label.fail, Label.name, hr]

theorem leftoverText_map (hr : ∀ l, (r l).token = l.token) (hf : ∀ a, text' (f a) = text a)
    (i : Item α) : leftoverText text' (i.map r f) = leftoverText text i := by
  cases i <;> simp [Item.map, leftoverText, hr, hf]

theorem buildFrom_map (hr : ∀ l, (r l).token = l.token) (hf : ∀ a, text' (f a) = text a)
    (ws : List (Waiting α)) (x : Option (Chain α)) (items : List (Item α)) :
    buildFrom text' (ws.map (Waiting.map r f)) (x.map (map r f)) (items.map (Item.map r f)) =
      (buildFrom text ws x items).map (map r f) := by
  induction items generalizing ws x with
  | nil =>
    cases x with
    | none => rfl
    | some x => exact congrArg Except.ok (closeAll_map x ws)
  | cons i items ih =>
    cases x with
    | none =>
      cases i with
      | operand a => exact ih ws (some (.operand a))
      | unary op p =>
        have hrest := ih (.unary op p :: ws) none
        simp only [List.map_cons, Option.map_none, Item.map, buildFrom, checkLoose_map hr]
        cases checkLoose op p ws with
        | error e => rfl
        | ok _ => exact hrest
      | binary op p => simp [buildFrom, Item.map, Label.fail, Label.name, hr, Except.map]
    | some x =>
      cases i with
      | binary op p =>
        have hrest := ih (.binary (closeDownTo p x ws).1 op p :: (closeDownTo p x ws).2) none
        simp only [List.map_cons, Option.map_some, Item.map, buildFrom, closeDownTo_map]
        exact hrest
      | operand a =>
        have ht := leftoverText_map hr hf (.operand a)
        simp only [List.map_cons, Option.map_some, buildFrom, Item.map] at ht ⊢
        rw [ht]
        rfl
      | unary op p =>
        have ht :
            leftoverText text' ((Item.unary op p).map r f) = leftoverText text (.unary op p) :=
          leftoverText_map hr hf _
        simp only [List.map_cons, Option.map_some, buildFrom, Item.map] at ht ⊢
        rw [ht]
        rfl

theorem build_map (hr : ∀ l, (r l).token = l.token) (hf : ∀ a, text' (f a) = text a)
    (items : List (Item α)) :
    build text' (items.map (Item.map r f)) = (build text items).map (map r f) :=
  buildFrom_map hr hf [] none items

end Naturality

/-- A chain as the node it is a view of. -/
def node : Chain Node → Node
  | operand n => n
  | unary op x => .mk op [x.node]
  | binary op x y => .mk op [x.node, y.node]

/-- The node a chain is built into, with every operand rebuilt in itself. -/
def assemble : Chain Node → Except Failure Node
  | operand n => n.rebuild
  | unary op x => do return Operand.seat op [← x.assemble]
  | binary op x y => do
    let x ← x.assemble
    let y ← y.assemble
    return Operand.seat op [x, y]

end Chain

/-- A complete operator that extends a chain: no group, of a known priority, not yet reordered. -/
structure Label.Extends (l : Label) (a : Arity) : Prop where
  operator : l.isOperator = true
  fresh : l.flags.reordered = false
  plain : l.isGrouping = false
  arity : l.arity = a
  known : l.priority = .ok l.rank

/-- What ends a chain: a node that is no operator, an operator without operands, or a group around a
single operand. -/
def Node.Opaque (n : Node) : Prop :=
  n.label.isOperator = false ∨
    (n.label.isOperator = true ∧ n.label.isGrouping = false ∧ n.label.arity = .nullary) ∨
      n.label.isGrouping = true ∧ n.label.arity = .unary ∧ n.kids.length = 1

def Node.Reorderable (n : Node) : Prop := ∃ m, n.rebuild = .ok m

/-- An item of a chain that is complete but not yet in order. -/
def Chain.Item.Naive : Chain.Item Node → Prop
  | .operand n => n.Opaque ∧ n.Reorderable
  | .unary op _ => op.Extends .unary
  | .binary op _ => op.Extends .binary

def Chain.Naive (c : Chain Node) : Prop := ∀ i ∈ c.inOrder, i.Naive

namespace Operand

/-- How the items of a node come from those of its children. -/
inductive Parted (l : Label) : List Node → List (Chain.Item Operand) → Prop where
  | group {ks : List Node} {inner : List (Except Failure Node)}
      (h : (ks.map (Node.fold items)).mapM (rebuild (some l.serial)) = .ok inner) :
      Parted l ks [.operand ⟨l, ks.length, do
        let js ← inner.mapM id
        return .mk (bind l js) js⟩]
  | nullary {ks : List Node} (ho : l.isOperator = true) (ha : l.arity = .nullary) :
      Parted l ks [.operand ⟨l, ks.length, .ok (.mk (bind l []) [])⟩]
  | unary {k : Node} {is : List (Chain.Item Operand)} (hl : l.Extends .unary)
      (hk : k.fold items = .ok is) : Parted l [k] (.unary l l.rank :: is)
  | binary {j k : Node} {is js : List (Chain.Item Operand)} (hl : l.Extends .binary)
      (hj : j.fold items = .ok is) (hk : k.fold items = .ok js) :
      Parted l [j, k] (is ++ .binary l l.rank :: js)
  | whole {ks : List Node} : Parted l ks [.operand ⟨l, ks.length, do
      return .mk l (← (ks.map (Node.fold items)).mapM (rebuildNow (some l.serial)))⟩]

theorem parted {l : Label} {ks : List Node} {its : List (Chain.Item Operand)}
    (h : (Node.mk l ks).fold items = .ok its) : Parted l ks its := by
  rw [Node.fold_mk, items, List.length_map] at h
  split at h
  · next hl =>
    obtain ⟨ho, hr⟩ : l.isOperator = true ∧ l.flags.reordered = false := by simpa using hl
    split at h
    · obtain ⟨inner, hin, h⟩ := except_bind_ok.mp h
      cases h
      exact .group hin
    · next hg =>
      split at h
      · next ha =>
        cases h
        exact .nullary ho ha
      · obtain ⟨p, hp, hb⟩ := except_bind_ok.mp h
        obtain rfl := Label.rank_of_priority hp
        split at hb
        · next ha hx =>
          obtain ⟨k, rfl, rfl⟩ := List.map_eq_singleton_iff.mp hx
          obtain ⟨is, hk, hb⟩ := except_bind_ok.mp hb
          cases hb
          exact .unary ⟨ho, hr, by simpa using hg, ha, hp⟩ hk
        · next ha hx =>
          obtain ⟨j, _, rfl, rfl, hy⟩ := List.map_eq_cons_iff.mp hx
          obtain ⟨k, rfl, rfl⟩ := List.map_eq_singleton_iff.mp hy
          obtain ⟨is, hj, hb⟩ := except_bind_ok.mp hb
          obtain ⟨js, hk, hb⟩ := except_bind_ok.mp hb
          cases hb
          exact .binary ⟨ho, hr, by simpa using hg, ha, hp⟩ hj hk
        · cases hb
  · cases h
    exact .whole

end Operand

namespace Node

variable {n m : Node} {l : Label} {ks : List Node} {a : Operand}

/-- A node that is one operand is rebuilt by settling that operand. -/
theorem rebuild_of_operand (h : n.fold Operand.items = .ok [.operand a]) (p : Option Nat) :
    n.rebuildAt p = (Operand.validate none (.operand a) >>= fun _ => a.settled) := by
  rw [rebuildAt, h]
  cases hv : Operand.validate none (.operand a) <;>
    simp [Operand.rebuildNow, Operand.rebuild, Chain.build, Chain.buildFrom, Chain.closeAll, hv,
      Operand.hang, bind, Except.bind, pure, Except.pure]

theorem Opaque.not_extends (h : n.Opaque) {a : Arity} (ha : a ≠ .nullary) :
    ¬ n.label.Extends a := by
  intro hl
  rcases h with h | ⟨-, -, h⟩ | ⟨h, -⟩
  · rw [hl.operator] at h
    cases h
  · exact ha (hl.arity.symm.trans h)
  · rw [hl.plain] at h
    cases h

theorem Opaque.operand_of_items (h : n.Opaque) {items : List (Chain.Item Operand)}
    (hi : n.fold Operand.items = .ok items) : ∃ a, items = [.operand a] := by
  obtain ⟨l, ks⟩ := n
  cases Operand.parted hi with
  | group _ => exact ⟨_, rfl⟩
  | nullary _ _ => exact ⟨_, rfl⟩
  | unary hl _ => exact (h.not_extends (by simp) hl).elim
  | binary hl _ _ => exact (h.not_extends (by simp) hl).elim
  | whole => exact ⟨_, rfl⟩

/-- An operand that can be reordered, as the chain around it takes it. -/
theorem Opaque.exists_operand (h : n.Opaque) (hr : n.Reorderable) :
    ∃ a, n.fold Operand.items = .ok [.operand a] ∧
      Operand.validate none (.operand a) = .ok () ∧ a.settled = n.rebuild := by
  obtain ⟨m, hm⟩ := hr
  cases hi : n.fold Operand.items with
  | error f =>
    simp [rebuild, rebuildAt, hi, Operand.rebuildNow, Operand.rebuild, bind, Except.bind] at hm
  | ok items =>
    obtain ⟨a, rfl⟩ := h.operand_of_items hi
    have hn : n.rebuild = _ := rebuild_of_operand hi _
    refine ⟨a, rfl, ?_⟩
    cases hv : Operand.validate none (.operand a) with
    | error f => simp [hn, hv, bind, Except.bind] at hm
    | ok u => exact ⟨rfl, by simp [hn, hv, bind, Except.bind]⟩

/-- The operand that a node is to the chain around it. -/
def asOperand (n : Node) : Operand :=
  match n.fold Operand.items with
  | .ok [.operand a] => a
  | _ => ⟨n.label, n.kids.length, n.rebuild⟩

theorem Opaque.asOperand_spec (h : n.Opaque) (hr : n.Reorderable) :
    n.fold Operand.items = .ok [.operand n.asOperand] ∧
      Operand.validate none (.operand n.asOperand) = .ok () ∧ n.asOperand.settled = n.rebuild := by
  obtain ⟨a, hi, hv, hs⟩ := h.exists_operand hr
  have ha : n.asOperand = a := by simp [asOperand, hi]
  exact ⟨by rw [hi, ha], by rw [ha, hv], by rw [ha, hs]⟩

end Node

/-- A label without its parent link. -/
def Label.unlinked (l : Label) : Label := { l with parent := none }

/-- A node without its parent link. -/
def Node.unlinked (n : Node) : Node := n.adopt none

namespace Operand

variable {a : Operand} {n m : Node} {l : Label}

/-- An item whose operator extends a chain. -/
def Plain : Chain.Item Operand → Prop
  | .operand _ => True
  | .unary op _ | .binary op _ => op.isOperator = true ∧ op.isGrouping = false

/-- A node taken apart is a chain, if only of one operand. -/
theorem exists_chain {its : List (Chain.Item Operand)} (h : n.fold items = .ok its) :
    ∃ c : Chain Operand, c.inOrder = its ∧ ∀ i ∈ its, Plain i := by
  induction n using Node.induct generalizing its with
  | h l ks ih =>
    cases parted h with
    | group _ => exact ⟨.operand _, rfl, by simp [Plain]⟩
    | nullary _ _ => exact ⟨.operand _, rfl, by simp [Plain]⟩
    | unary hl hk =>
      obtain ⟨c, rfl, hc⟩ := ih _ (by simp) hk
      refine ⟨.unary l c, rfl, ?_⟩
      simpa [Plain] using ⟨⟨hl.operator, hl.plain⟩, hc⟩
    | binary hl hj hk =>
      obtain ⟨c, rfl, hc⟩ := ih _ (by simp) hj
      obtain ⟨e, rfl, he⟩ := ih _ (by simp) hk
      refine ⟨.binary l c e, rfl, ?_⟩
      intro i hi
      simp only [List.mem_append, List.mem_cons] at hi
      rcases hi with hi | rfl | hi
      · exact hc i hi
      · exact ⟨hl.operator, hl.plain⟩
      · exact he i hi
    | whole => exact ⟨.operand _, rfl, by simp [Plain]⟩

/-- A rebuilt node is the settled tree of its own items. -/
theorem rebuild_ok {p : Option Nat} (h : n.rebuildAt p = .ok m) :
    ∃ c t : Chain Operand, n.fold items = .ok c.inOrder ∧ t.inOrder = c.inOrder ∧
      (∀ i ∈ c.inOrder, Plain i) ∧ validate none t = .ok () ∧
      hang p t = .ok m := by
  obtain ⟨settled, hs, h⟩ := except_bind_ok.mp h
  obtain ⟨its, hi, hs⟩ := except_bind_ok.mp hs
  obtain ⟨t, ht, hs⟩ := except_bind_ok.mp hs
  obtain ⟨u, hv, hs⟩ := except_bind_ok.mp hs
  cases hs
  obtain ⟨c, rfl, hc⟩ := exists_chain hi
  rcases Chain.build_spec (·.label.token) c with ⟨-, t', ht', -, hio⟩ | ⟨-, op, p, q, hb⟩
  · obtain rfl : t = t' := Except.ok.inj (ht.symm.trans ht')
    exact ⟨c, t, hi, hio, hc, hv, h⟩
  · rw [ht] at hb
    cases hb

theorem parent_of_settled (h : n.fold items = .ok [.operand a]) (hs : a.settled = .ok m) :
    m.label.parent = n.label.parent := by
  have hbind : ∀ l ks, (bind l ks).parent = l.parent := by
    intro l ks
    unfold bind
    split <;> rfl
  obtain ⟨l, ks⟩ := n
  generalize hi : [Chain.Item.operand a] = its at h
  cases parted h with
  | group _ =>
    cases hi
    obtain ⟨js, -, hs⟩ := except_bind_ok.mp hs
    cases hs
    exact hbind l js
  | nullary _ _ =>
    cases hi
    cases hs
    exact hbind l []
  | unary _ _ => cases hi
  | binary _ hj _ =>
    have hmem : Chain.Item.binary l l.rank ∈ [Chain.Item.operand a] := hi ▸ by simp
    simp at hmem
  | whole =>
    cases hi
    obtain ⟨js, -, hs⟩ := except_bind_ok.mp hs
    cases hs
    rfl

/-- What a node is rebuilt into stands below the same parent. -/
theorem adopt_rebuild (n : Node) : Node.adopt n.label.parent <$> n.rebuild = n.rebuild := by
  cases h : n.rebuild with
  | error f => rfl
  | ok m =>
    refine congrArg Except.ok (Node.adopt_self ?_)
    obtain ⟨c, t, hi, hio, -, -, hs⟩ := rebuild_ok h
    cases t with
    | operand a => exact parent_of_settled (hi.trans (congrArg _ hio.symm)) hs
    | unary op x =>
      obtain ⟨k, -, hs⟩ := except_bind_ok.mp hs
      cases hs
      rfl
    | binary op x y =>
      obtain ⟨k, -, hs⟩ := except_bind_ok.mp hs
      cases hs
      rfl

/-- Where the built chain is put does not matter once it is put somewhere else. -/
theorem adopt_rebuildNow (p q : Option Nat) (its : List (Chain.Item Operand)) :
    Node.adopt p <$> rebuildNow q (.ok its) =
      Chain.build (·.label.token) its >>= fun c => validate none c >>= fun _ =>
        Node.adopt p <$> settle c := by
  have hhang : ∀ c, Node.adopt p <$> hang q c = Node.adopt p <$> settle c := by
    intro c
    cases c with
    | operand a => rfl
    | unary op x =>
      simp only [hang]
      cases settle (.unary op x) <;> rfl
    | binary op x y =>
      simp only [hang]
      cases settle (.binary op x y) <;> rfl
  simp only [rebuildNow, rebuild, bind_assoc, pure_bind, map_bind, hhang]
  rfl

/-! What the links inside a chain were does not matter to what it is rebuilt into. -/

/-- An operand without its parent link. -/
def unlinked (a : Operand) : Operand := ⟨a.label.unlinked, a.width, Node.unlinked <$> a.settled⟩

theorem bind_unlinked (l : Label) (ks : List Node) : bind l.unlinked ks = (bind l ks).unlinked := by
  cases hf : l.form <;> simp [bind, Label.unlinked, hf]

/-- A node that is one operand is the same operand when it has lost its parent link. -/
theorem items_unlinked {parts : List Items} (h : items l parts = .ok [.operand a]) :
    items l.unlinked parts = .ok [.operand a.unlinked] := by
  unfold items at h ⊢
  split at h
  · next ho =>
    rw [if_pos (by exact ho)]
    split at h
    · next hg =>
      rw [if_pos (by exact hg)]
      obtain ⟨inner, hin, h⟩ := except_bind_ok.mp h
      cases h
      refine except_bind_ok.mpr ⟨inner, hin, ?_⟩
      simp only [unlinked, map_bind, map_pure, bind_unlinked]
      rfl
    · next hg =>
      rw [if_neg (by exact hg)]
      split at h
      · next ha =>
        rw [if_pos (by exact ha)]
        cases h
        simp only [unlinked, bind_unlinked]
        rfl
      · obtain ⟨q, -, h⟩ := except_bind_ok.mp h
        split at h
        · obtain ⟨is, -, h⟩ := except_bind_ok.mp h
          cases h
        · obtain ⟨is, -, h⟩ := except_bind_ok.mp h
          obtain ⟨js, -, h⟩ := except_bind_ok.mp h
          have hmem : Chain.Item.binary l q ∈ [Chain.Item.operand a] := Except.ok.inj h ▸ by simp
          simp at hmem
        · cases h
  · next ho =>
    rw [if_neg (by exact ho)]
    cases h
    simp only [unlinked, map_bind, map_pure]
    rfl

theorem validate_unlinked (limit : Option Nat) (c : Chain Operand) :
    validate limit (c.map Label.unlinked unlinked) = validate limit c := by
  induction c generalizing limit with
  | operand a => rfl
  | unary op x ih =>
    have hc : check op.unlinked 1 limit = check op 1 limit := rfl
    simp only [Chain.map, validate, hc, ih]
  | binary op x y ihx ihy =>
    have hc : check op.unlinked 2 limit = check op 2 limit := rfl
    simp only [Chain.map, validate, hc, ihx, ihy]

theorem adopt_seat (p : Option Nat) (l : Label) (ks : List Node) : (seat l ks).adopt p =
    (seat l.unlinked (ks.map (Node.adopt (some l.serial)))).adopt p := by
  cases hf : l.form <;> simp [seat, bind, Label.unlinked, hf]

/-- Operands get their links from the operator above them. -/
theorem settle_unlinked (p : Option Nat) (c : Chain Operand) :
    Node.adopt p <$> settle (c.map Label.unlinked unlinked) = Node.adopt p <$> settle c := by
  induction c generalizing p with
  | operand a =>
    simp only [Chain.map, settle, unlinked, Functor.map_map, Node.unlinked, Node.adopt_adopt]
  | unary op x ih =>
    have hx := congrArg (· >>= fun k => pure ((seat op.unlinked [k]).adopt p)) (ih (some op.serial))
    simp only [bind_map_left] at hx
    simp only [Chain.map, settle, map_bind, map_pure, adopt_seat p op, adopt_seat p op.unlinked]
    exact hx
  | binary op x y ihx ihy =>
    have hy : ∀ j, (settle (y.map Label.unlinked unlinked) >>= fun k =>
        pure ((seat op.unlinked [j, k.adopt (some op.serial)]).adopt p) : Except Failure Node) =
        settle y >>= fun k => pure ((seat op.unlinked [j, k.adopt (some op.serial)]).adopt p) := by
      intro j
      have hy := congrArg (· >>= fun k => pure ((seat op.unlinked [j, k]).adopt p))
        (ihy (some op.serial))
      simpa only [bind_map_left] using hy
    have hx := congrArg (· >>= fun j => settle y >>= fun k =>
      pure ((seat op.unlinked [j, k.adopt (some op.serial)]).adopt p)) (ihx (some op.serial))
    simp only [bind_map_left] at hx
    simp only [Chain.map, settle, map_bind, map_pure, adopt_seat p op, adopt_seat p op.unlinked]
    refine Eq.trans ?_ hx
    exact congrArg _ (funext fun j => hy (j.adopt (some op.serial)))

end Operand

namespace Chain

variable {c t x y : Chain Node} {op : Label}

theorem naive_unary : (unary op x).Naive ↔ op.Extends .unary ∧ x.Naive := by
  simp [Naive, inOrder, Item.Naive]

theorem naive_binary : (binary op x y).Naive ↔ x.Naive ∧ op.Extends .binary ∧ y.Naive := by
  simp only [Naive, inOrder, List.mem_append, List.mem_cons, or_imp, forall_and, forall_eq,
    Item.Naive]

/-- Taking a chain apart gives its items in order, whatever its shape. -/
theorem fold_items_node (hc : c.Naive) :
    c.node.fold Operand.items = .ok (c.map id Node.asOperand).inOrder := by
  induction c with
  | operand n =>
    obtain ⟨ho, hr⟩ := hc (.operand n) (by simp [inOrder])
    exact (ho.asOperand_spec hr).1
  | unary op x ih =>
    obtain ⟨ho, hx⟩ := naive_unary.mp hc
    simp [node, Node.fold_mk, Operand.items, ho.operator, ho.fresh, ho.plain, ho.arity, ho.known,
      ih hx, map, inOrder, bind, Except.bind, pure, Except.pure]
  | binary op x y ihx ihy =>
    obtain ⟨hx, ho, hy⟩ := naive_binary.mp hc
    simp [node, Node.fold_mk, Operand.items, ho.operator, ho.fresh, ho.plain, ho.arity, ho.known,
      ihx hx, ihy hy, map, inOrder, bind, Except.bind, pure, Except.pure]

theorem check_extends {a : Arity} (h : op.Extends a) (ha : a = .unary ∨ a = .binary)
    (limit : Option Nat) (hl : ∀ q ∈ limit, q ≤ op.rank) :
    Operand.check op a.width limit = .ok (some op.rank) := by
  have hn : op.arity ≠ .nullary := by
    rcases ha with rfl | rfl <;> simp [h.arity]
  rw [Operand.check, h.arity, h.plain, h.known]
  cases limit with
  | none => simp_all [h.arity, bind, Except.bind, pure, Except.pure]
  | some q =>
    have hq : ¬ op.rank < q := not_lt.mpr (hl q rfl)
    simp_all [h.arity, bind, Except.bind, pure, Except.pure]

/-- The built chain passes the check from the top. -/
theorem validate_graded (hc : t.Naive) (hg : t.Graded) (limit : Option Nat)
    (hl : ∀ q ∈ limit, ∀ p ∈ t.top?, q ≤ p) :
    Operand.validate limit (t.map id Node.asOperand) = .ok () := by
  induction t generalizing limit with
  | operand n =>
    obtain ⟨ho, hr⟩ := hc (.operand n) (by simp [inOrder])
    have hv := (ho.asOperand_spec hr).2.1
    simpa [map, Operand.validate] using hv
  | unary op x ih =>
    obtain ⟨ho, hx⟩ := naive_unary.mp hc
    have hk := check_extends ho (Or.inl rfl) limit fun q hq => hl q hq _ rfl
    have hv := ih hx hg.2 (some op.rank) (by
      intro q hq p hp
      obtain rfl : op.rank = q := by simpa using hq
      exact hg.1 p hp)
    simp only [Arity.width] at hk
    simp [map, Operand.validate, hk, hv, bind, Except.bind]
  | binary op x y ihx ihy =>
    obtain ⟨hx, ho, hy⟩ := naive_binary.mp hc
    obtain ⟨htx, hty, hgx, hgy⟩ := hg
    have hk := check_extends ho (Or.inr rfl) limit fun q hq => hl q hq _ rfl
    have hvx := ihx hx hgx (some op.rank) (by
      intro q hq p hp
      obtain rfl : op.rank = q := by simpa using hq
      exact htx p hp)
    have hvy := ihy hy hgy (some op.rank) (by
      intro q hq p hp
      obtain rfl : op.rank = q := by simpa using hq
      exact hty p hp)
    simp only [Arity.width] at hk
    simp [map, Operand.validate, hk, hvx, hvy, bind, Except.bind]

theorem settle_map (hc : t.Naive) : Operand.settle (t.map id Node.asOperand) = t.assemble := by
  induction t with
  | operand n =>
    obtain ⟨ho, hr⟩ := hc (.operand n) (by simp [inOrder])
    exact (ho.asOperand_spec hr).2.2
  | unary op x ih =>
    obtain ⟨-, hx⟩ := naive_unary.mp hc
    simp only [map, Operand.settle, assemble, ih hx, id]
  | binary op x y ihx ihy =>
    obtain ⟨hx, -, hy⟩ := naive_binary.mp hc
    simp only [map, Operand.settle, assemble, ihx hx, ihy hy, id]

theorem assemble_ok (hc : t.Naive) : ∃ m, t.assemble = .ok m := by
  induction t with
  | operand n => exact (hc (.operand n) (by simp [inOrder])).2
  | unary op x ih =>
    obtain ⟨-, hx⟩ := naive_unary.mp hc
    obtain ⟨m, hm⟩ := ih hx
    exact ⟨_, by rw [assemble, hm]; rfl⟩
  | binary op x y ihx ihy =>
    obtain ⟨hx, -, hy⟩ := naive_binary.mp hc
    obtain ⟨m, hm⟩ := ihx hx
    obtain ⟨k, hk⟩ := ihy hy
    exact ⟨_, by rw [assemble, hm, hk]; rfl⟩

/-- A chain without loose prefix operators is rebuilt into the tree of its items that respects the
priorities, where the chain stood. -/
theorem rebuild_ordered (hc : c.Naive) (ht : t.Ordered) (hi : t.inOrder = c.inOrder) :
    c.node.rebuild = (Node.adopt c.node.label.parent) <$> t.assemble := by
  have hn : t.Naive := by simpa only [Naive, hi] using hc
  have hid : ∀ l : Label, (id l).rank = l.rank := fun _ => rfl
  have hb : build (·.label.token) (c.map id Node.asOperand).inOrder =
      .ok (t.map id Node.asOperand) := by
    rw [inOrder_map hid, ← hi, ← inOrder_map hid]
    exact build_inOrder _ (ordered_map hid ht)
  have hv := validate_graded hn ht.1 none (by simp)
  rw [← Operand.adopt_rebuild, Node.rebuild, Node.rebuildAt, fold_items_node hc,
    Operand.adopt_rebuildNow, hb, ← settle_map hn]
  simp only [bind, Except.bind, hv]

/-- A chain with a loose prefix operator is refused. -/
theorem rebuild_loose (hc : c.Naive) (h : ¬ NoLoose c.inOrder) :
    ∃ (op : Label) (p q : Nat), c.node.rebuild = op.fail (.looseOperand op.name p q) := by
  rcases build_spec (·.label.token) (c.map id Node.asOperand) with ⟨hn, -⟩ | ⟨-, op, p, q, hb⟩
  · rw [inOrder_map (r := id) fun _ => rfl, noLoose_map] at hn
    exact (h hn).elim
  · refine ⟨op, p, q, ?_⟩
    simp [Node.rebuild, Node.rebuildAt, fold_items_node hc, Operand.rebuildNow, Operand.rebuild, hb,
      Label.fail, bind, Except.bind]

/-- A chain whose operators and operands have lost their parent links. -/
def unlinked (c : Chain Node) : Chain Node := c.map Label.unlinked Node.unlinked

theorem asOperand_unlinked {n : Node} (ho : n.Opaque) (hr : n.Reorderable) :
    n.unlinked.asOperand = n.asOperand.unlinked := by
  obtain ⟨hi, -⟩ := ho.asOperand_spec hr
  obtain ⟨l, ks⟩ := n
  have hu : (Node.mk l ks).unlinked.fold Operand.items =
      .ok [.operand (Node.mk l ks).asOperand.unlinked] := by
    rw [Node.fold_mk] at hi
    exact (Node.fold_mk _ _ _).trans (Operand.items_unlinked hi)
  rw [Node.asOperand, hu]

theorem map_asOperand_unlinked (hc : c.Naive) : c.unlinked.map id Node.asOperand =
    (c.map id Node.asOperand).map Label.unlinked Operand.unlinked := by
  induction c with
  | operand n =>
    obtain ⟨ho, hr⟩ := hc (.operand n) (by simp [inOrder])
    exact congrArg operand (asOperand_unlinked ho hr)
  | unary op x ih =>
    obtain ⟨-, hx⟩ := naive_unary.mp hc
    exact congrArg (unary op.unlinked) (ih hx)
  | binary op x y ihx ihy =>
    obtain ⟨hx, -, hy⟩ := naive_binary.mp hc
    exact congrArg₂ (binary op.unlinked) (ihx hx) (ihy hy)

/-- The links inside a chain do not matter to what it is rebuilt into. -/
theorem rebuild_unlinked (hc : c.Naive) : c.node.rebuild =
    (Node.adopt c.node.label.parent) <$>
      Operand.rebuildNow none (.ok (c.unlinked.map id Node.asOperand).inOrder) := by
  have hbuild : build (·.label.token)
      ((c.map id Node.asOperand).inOrder.map (Item.map Label.unlinked Operand.unlinked)) =
        (build (·.label.token) (c.map id Node.asOperand).inOrder).map
          (map Label.unlinked Operand.unlinked) := by
    refine build_map ?_ ?_ _
    · exact fun _ => rfl
    · exact fun _ => rfl
  rw [map_asOperand_unlinked hc, inOrder_map (r := Label.unlinked) fun _ => rfl,
    ← Operand.adopt_rebuild, Node.rebuild, Node.rebuildAt, fold_items_node hc,
    Operand.adopt_rebuildNow, Operand.adopt_rebuildNow, hbuild]
  cases build (·.label.token) (c.map id Node.asOperand).inOrder with
  | error f => rfl
  | ok t =>
    simp only [Except.map, bind, Except.bind]
    rw [Operand.validate_unlinked, Operand.settle_unlinked]

/-- Reordering is exact precedence parsing: a chain of any shape is rebuilt into its one graded,
left-associative tree, unless a prefix operator stands right after one of greater priority. -/
theorem rebuild_exact (c : Chain Node) (hc : c.Naive) :
    ((∃ m, c.node.rebuild = .ok m) ↔ NoLoose c.inOrder) ∧
    (NoLoose c.inOrder ↔ ∃ t : Chain Node, t.inOrder = c.inOrder ∧ t.Graded) ∧
    (∀ m, c.node.rebuild = .ok m →
      ∃ t : Chain Node, (∃ k, t.assemble = .ok k ∧ m = k.adopt c.node.label.parent) ∧
        (t.inOrder = c.inOrder ∧ t.Graded ∧ t.LeftAssociative) ∧
        ∀ u : Chain Node, u.inOrder = c.inOrder ∧ u.Graded ∧ u.LeftAssociative → u = t) ∧
    (∀ f, c.node.rebuild = .error f → f.cause.kind = .precedence) ∧
    -- nothing but the items and the place decides the result
    (∀ c' : Chain Node, c'.Naive → c'.unlinked.inOrder = c.unlinked.inOrder →
      c'.node.label.parent = c.node.label.parent → c'.node.rebuild = c.node.rebuild) := by
  have hokay : NoLoose c.inOrder → ∃ t : Chain Node, t.inOrder = c.inOrder ∧ t.Ordered := by
    intro h
    rcases build_spec (fun _ => ⟨[], []⟩) c with ⟨-, t, -, ht, hi⟩ | ⟨hn, -⟩
    · exact ⟨t, hi, ht⟩
    · exact (hn h).elim
  have hfail : ∀ m, c.node.rebuild = .ok m → NoLoose c.inOrder := by
    intro m hm
    by_contra hn
    obtain ⟨op, p, q, hf⟩ := rebuild_loose hc hn
    rw [hf] at hm
    cases hm
  refine ⟨⟨fun ⟨m, hm⟩ => hfail m hm, fun h => ?_⟩, noLoose_iff_graded c, ?_, ?_, ?_⟩
  · obtain ⟨t, hi, ht⟩ := hokay h
    obtain ⟨m, hm⟩ := assemble_ok (t := t) (by simpa only [Naive, hi] using hc)
    exact ⟨_, (rebuild_ordered hc ht hi).trans (by rw [hm]; rfl)⟩
  · intro m hm
    obtain ⟨t, hi, ht⟩ := hokay (hfail m hm)
    obtain ⟨k, hk⟩ := assemble_ok (t := t) (by simpa only [Naive, hi] using hc)
    rw [rebuild_ordered hc ht hi, hk] at hm
    cases hm
    refine ⟨t, ⟨k, hk, rfl⟩, ⟨hi, ht⟩, ?_⟩
    rintro u ⟨hu, ho⟩
    exact eq_of_inOrder_eq ho ht (hu.trans hi.symm)
  · intro f hf
    by_cases h : NoLoose c.inOrder
    · obtain ⟨t, hi, ht⟩ := hokay h
      obtain ⟨m, hm⟩ := assemble_ok (t := t) (by simpa only [Naive, hi] using hc)
      rw [rebuild_ordered hc ht hi, hm] at hf
      cases hf
    · obtain ⟨op, p, q, hb⟩ := rebuild_loose hc h
      rw [hb] at hf
      cases hf
      rfl
  · intro c' hc' hi hp
    rw [rebuild_unlinked hc', rebuild_unlinked hc, hp, inOrder_map (r := id) fun _ => rfl, hi,
      ← inOrder_map (r := id) fun _ => rfl]

/-- The label of a complete node. -/
def completeLabel (name value : Bytes) (form : Form) : Label :=
  { token := ⟨name, value⟩, serial := 0, form, flags := { setup := true, complete := true } }

def completeInt (text : Bytes) (n : Int64) : Node :=
  .mk (completeLabel "INT" text (.literal .int (.int n))) []

/-- The chain `1 * 2 + -3` as it is inserted, with all operators nested to the right. -/
def rightLeaning : Chain Node :=
  .binary (completeLabel "STAR" [] (.operator (some .star) .binary []))
    (.operand (completeInt "1" 1))
    (.binary (completeLabel "PLUS" [] (.operator (some .plus) .binary []))
      (.operand (completeInt "2" 2))
      (.unary (completeLabel "MINUS" [] (.operator (some .minus) .unary []))
        (.operand (completeInt "3" 3))))

theorem rightLeaning_naive : rightLeaning.Naive := by
  have hint : ∀ text n, (completeInt text n).Opaque ∧ (completeInt text n).Reorderable :=
    fun _ _ => ⟨Or.inl rfl, _, rfl⟩
  refine naive_binary.mpr ⟨?_, ⟨rfl, rfl, rfl, rfl, rfl⟩,
    naive_binary.mpr ⟨?_, ⟨rfl, rfl, rfl, rfl, rfl⟩,
      naive_unary.mpr ⟨⟨rfl, rfl, rfl, rfl, rfl⟩, ?_⟩⟩⟩ <;>
  · intro i hi
    obtain rfl := List.mem_singleton.mp hi
    exact hint _ _

theorem rebuild_exact_rightLeaning :
    rightLeaning.Naive ∧ ¬ rightLeaning.Graded ∧ NoLoose rightLeaning.inOrder ∧
      ∃ m, rightLeaning.node.rebuild = .ok m := by
  have hn : NoLoose rightLeaning.inOrder := by
    simp [rightLeaning, inOrder, NoLoose, Item.Admits, Item.priority?]
    decide
  refine ⟨rightLeaning_naive, ?_, hn, (rebuild_exact _ rightLeaning_naive).1.mpr hn⟩
  intro h
  exact absurd (h.2.1 8 rfl) (by decide)

end Chain

/-! Reordering seen through a fold that reads chains in order. -/

/-- A fold to lists that reads the operators of a chain in order and does not look at what
reordering changes. -/
structure InOrder {β : Type} (w : Label → List β) (g : Label → List (List β) → List β) :
    Prop where
  bind : ∀ l ks, g (Operand.bind l ks) = g l
  adopt : ∀ (l : Label) p, g { l with parent := p } = g l
  mark : ∀ l : Label, g { l with flags := { l.flags with reordered := true } } = g l
  unary : ∀ l x, l.isOperator = true → l.isGrouping = false → g l [x] = w l ++ x
  binary : ∀ l x y, l.isOperator = true → l.isGrouping = false → g l [x, y] = x ++ w l ++ y

theorem InOrder.of_sketch {β : Type} {w : Label → List β} {g : Label → List (List β) → List β}
    (hs : ∀ l, g l.sketch = g l) (ha : ∀ (l : Label) p, g { l with parent := p } = g l)
    (hu : ∀ l x, l.isOperator = true → l.isGrouping = false → g l [x] = w l ++ x)
    (hb : ∀ l x y, l.isOperator = true → l.isGrouping = false → g l [x, y] = x ++ w l ++ y) :
    InOrder w g where
  bind l ks := by rw [← hs, Label.sketch_bind, hs]
  adopt := ha
  mark l := by
    rw [← hs, ← hs l]
    rfl
  unary := hu
  binary := hb

/-- A fold to lists that reads the operators of a chain in order and does not look at what setup,
completion and reordering change. -/
structure Sequential {β : Type} (w : Label → List β) (g : Label → List (List β) → List β) :
    Prop where
  draft : ∀ l, g l.draft = g l
  unary : ∀ l x, l.isOperator = true → l.isGrouping = false → g l [x] = w l ++ x
  binary : ∀ l x y, l.isOperator = true → l.isGrouping = false → g l [x, y] = x ++ w l ++ y

theorem Sequential.inOrder {β : Type} {w : Label → List β} {g : Label → List (List β) → List β}
    (hg : Sequential w g) : InOrder w g := by
  refine .of_sketch (Label.sketch_of_draft hg.draft) (fun l p => ?_) hg.unary hg.binary
  rw [← hg.draft, ← hg.draft l]
  rfl

/-- Labels may be counted, wherever the operators of a chain stand. -/
theorem Sequential.count {p : Label → Bool} (hp : ∀ l, p l.draft = p l) :
    Sequential (fun l => if p l then [()] else [])
      (fun l parts => (if p l then [()] else []) ++ parts.flatten) where
  draft l := by
    funext parts
    rw [hp]
  unary l x _ _ := by simp
  binary l x y _ _ := by
    refine List.ext_getElem ?_ fun _ _ _ => rfl
    simp only [List.flatten_cons, List.flatten_nil, List.length_append, List.length_nil]
    omega

namespace Chain

variable {α β : Type} {a : α}

/-- What an item stands for. -/
def Item.yield (w : Label → List β) (y : α → List β) : Item α → List β
  | operand a => y a
  | unary op _ | binary op _ => w op

end Chain

namespace Operand

variable {β : Type} {w : Label → List β} {g : Label → List (List β) → List β}
  {a : Operand} {c : Chain Operand} {n m : Node}

/-- What a settled operand stands for. -/
def yield (g : Label → List (List β) → List β) (a : Operand) : List β :=
  match a.settled with
  | .ok m => m.fold g
  | .error _ => []

theorem yield_of_settled (h : a.settled = .ok m) : yield g a = m.fold g := by
  simp [yield, h]

/-- An operand that passes the check and can be settled. -/
def Fine (a : Operand) : Prop := validate none (.operand a) = .ok () ∧ ∃ m, a.settled = .ok m

theorem validate_operands {limit : Option Nat} (h : validate limit c = .ok ())
    (ha : .operand a ∈ c.inOrder) : validate none (.operand a) = .ok () := by
  induction c generalizing limit with
  | operand b =>
    obtain rfl : a = b := by simpa [Chain.inOrder] using ha
    exact h
  | unary op x ih =>
    obtain ⟨p, -, h⟩ := except_bind_ok.mp h
    exact ih h (by simpa [Chain.inOrder] using ha)
  | binary op x y ihx ihy =>
    obtain ⟨p, -, h⟩ := except_bind_ok.mp h
    obtain ⟨u, hx, hy⟩ := except_bind_ok.mp h
    simp only [Chain.inOrder, List.mem_append, List.mem_cons, reduceCtorEq, false_or] at ha
    rcases ha with ha | ha
    · exact ihx hx ha
    · exact ihy hy ha

theorem settle_operands (h : settle c = .ok m) (ha : .operand a ∈ c.inOrder) :
    ∃ m, a.settled = .ok m := by
  induction c generalizing m with
  | operand b =>
    obtain rfl : a = b := by simpa [Chain.inOrder] using ha
    exact ⟨m, h⟩
  | unary op x ih =>
    obtain ⟨k, hk, -⟩ := except_bind_ok.mp h
    exact ih hk (by simpa [Chain.inOrder] using ha)
  | binary op x y ihx ihy =>
    obtain ⟨k, hk, h⟩ := except_bind_ok.mp h
    obtain ⟨j, hj, -⟩ := except_bind_ok.mp h
    simp only [Chain.inOrder, List.mem_append, List.mem_cons, reduceCtorEq, false_or] at ha
    rcases ha with ha | ha
    · exact ihx hk ha
    · exact ihy hj ha

theorem fold_adopt (hg : InOrder w g) (p : Option Nat) (n : Node) :
    (n.adopt p).fold g = n.fold g := by
  obtain ⟨l, ks⟩ := n
  rw [Node.adopt_mk, Node.fold_mk, Node.fold_mk, hg.adopt]

theorem fold_seat (hg : InOrder w g) (l : Label) (ks : List Node) :
    (seat l ks).fold g = g l (ks.map (Node.fold g)) := by
  rw [seat, Node.fold_mk, hg.bind, List.map_map]
  exact congrArg _ (List.map_congr_left fun k _ => fold_adopt hg _ k)

theorem fold_settle (hg : InOrder w g) (hp : ∀ i ∈ c.inOrder, Plain i)
    (h : settle c = .ok m) : m.fold g = c.inOrder.flatMap (Chain.Item.yield w (yield g)) := by
  induction c generalizing m with
  | operand a =>
    rw [settle] at h
    simp [Chain.inOrder, Chain.Item.yield, yield, h]
  | unary op x ih =>
    obtain ⟨k, hk, h⟩ := except_bind_ok.mp h
    cases h
    have ho : op.isOperator = true ∧ op.isGrouping = false :=
      hp (.unary op op.rank) (by simp [Chain.inOrder])
    have hx := ih (fun i hi => hp i (by simp [Chain.inOrder, hi])) hk
    rw [fold_seat hg, List.map_singleton, hg.unary op _ ho.1 ho.2, hx]
    simp [Chain.inOrder, Chain.Item.yield]
  | binary op x y ihx ihy =>
    obtain ⟨k, hk, h⟩ := except_bind_ok.mp h
    obtain ⟨j, hj, h⟩ := except_bind_ok.mp h
    cases h
    have ho : op.isOperator = true ∧ op.isGrouping = false :=
      hp (.binary op op.rank) (by simp [Chain.inOrder])
    have hx := ihx (fun i hi => hp i (by simp [Chain.inOrder, hi])) hk
    have hy := ihy (fun i hi => hp i (by simp [Chain.inOrder, hi])) hj
    rw [fold_seat hg, List.map_cons, List.map_singleton, hg.binary op _ _ ho.1 ho.2, hx, hy]
    simp [Chain.inOrder, Chain.Item.yield]

theorem settle_of_hang {p : Option Nat} (h : hang p c = .ok m) :
    ∃ k, settle c = .ok k ∧ (m = k ∨ m = k.adopt p) := by
  cases c with
  | operand a => exact ⟨m, h, Or.inl rfl⟩
  | unary op x =>
    obtain ⟨k, hk, h⟩ := except_bind_ok.mp h
    cases h
    exact ⟨k, hk, Or.inr rfl⟩
  | binary op x y =>
    obtain ⟨k, hk, h⟩ := except_bind_ok.mp h
    cases h
    exact ⟨k, hk, Or.inr rfl⟩

/-- If the items of a node stand for the node, then so does the node it is rebuilt into. -/
theorem fold_rebuild_of_items (hg : InOrder w g)
    (hn : ∀ its, n.fold items = .ok its → (∀ a, .operand a ∈ its → Fine a) →
      its.flatMap (Chain.Item.yield w (yield g)) = n.fold g)
    {p : Option Nat} (h : n.rebuildAt p = .ok m) : m.fold g = n.fold g := by
  obtain ⟨c, t, hi, hio, hp, hv, hh⟩ := rebuild_ok h
  obtain ⟨k, hs, hm⟩ := settle_of_hang hh
  have hfold : m.fold g = k.fold g := by
    rcases hm with rfl | rfl
    · rfl
    · exact fold_adopt hg _ k
  rw [hfold, fold_settle hg (hio ▸ hp) hs, hio]
  refine hn _ hi fun a ha => ⟨?_, ?_⟩
  · exact validate_operands hv (hio ▸ ha)
  · exact settle_operands hs (hio ▸ ha)

theorem rebuild_kids {ks js : List Node} {inner : List (Except Failure Node)} {p : Option Nat}
    (hi : List.Forall₂ (fun k i => rebuild p (k.fold items) = .ok i) ks inner)
    (hj : List.Forall₂ (fun i j => id i = .ok j) inner js) :
    List.Forall₂ (fun k j => k.rebuildAt p = .ok j) ks js := by
  induction hi generalizing js with
  | nil =>
    cases hj
    exact .nil
  | cons hk _ ih =>
    cases hj with
    | cons hj hjs => exact .cons (except_bind_ok.mpr ⟨_, hk, hj⟩) (ih hjs)

theorem count_of_validate {l : Label} {k : Nat} {s : Except Failure Node}
    (hl : l.isOperator = true) (hw : l.arity.width = 0)
    (h : validate none (.operand ⟨l, k, s⟩) = .ok ()) : k = 0 := by
  simp only [validate, hl, if_true, check, hw] at h
  split at h
  · cases h
  · omega

/-- The items of a node stand for the node. -/
theorem yield_items (hg : InOrder w g) {its : List (Chain.Item Operand)}
    (h : n.fold items = .ok its) (hf : ∀ a, .operand a ∈ its → Fine a) :
    its.flatMap (Chain.Item.yield w (yield g)) = n.fold g := by
  induction n using Node.induct generalizing its with
  | h l ks ih =>
    have hkids : ∀ k ∈ ks, ∀ j, k.rebuildAt (some l.serial) = .ok j → j.fold g = k.fold g :=
      fun k hk j hj => fold_rebuild_of_items hg (fun is hi ha => ih k hk hi ha) hj
    cases parted h with
    | group hin =>
      obtain ⟨-, m, hm⟩ := hf _ (List.mem_singleton.mpr rfl)
      rw [List.flatMap_singleton, Chain.Item.yield, yield_of_settled hm]
      obtain ⟨js, hjs, hm⟩ := except_bind_ok.mp hm
      cases hm
      have hr := rebuild_kids (List.forall₂_map_left_iff.mp (mapM_ok hin)) (mapM_ok hjs)
      rw [Node.fold_mk, Node.fold_mk, hg.bind, Node.map_eq_of_forall₂ hr hkids]
    | nullary ho ha =>
      obtain ⟨hv, -⟩ := hf _ (List.mem_singleton.mpr rfl)
      obtain rfl : ks = [] := by
        simpa using count_of_validate ho (ha ▸ rfl : l.arity.width = 0) hv
      simp [Chain.Item.yield, yield, Node.fold_mk, hg.bind]
    | unary hl hk =>
      have hx := ih _ (by simp) hk fun a ha => hf a (by simp [ha])
      rw [Node.fold_mk, List.map_singleton, hg.unary l _ hl.operator hl.plain, ← hx]
      simp [Chain.Item.yield]
    | binary hl hj hk =>
      have hx := ih _ (by simp) hj fun a ha => hf a (by simp [ha])
      have hy := ih _ (by simp) hk fun a ha => hf a (by simp [ha])
      rw [Node.fold_mk, List.map_cons, List.map_singleton, hg.binary l _ _ hl.operator hl.plain,
        ← hx, ← hy]
      simp [Chain.Item.yield]
    | whole =>
      obtain ⟨-, m, hm⟩ := hf _ (List.mem_singleton.mpr rfl)
      rw [List.flatMap_singleton, Chain.Item.yield, yield_of_settled hm]
      obtain ⟨js, hjs, hm⟩ := except_bind_ok.mp hm
      cases hm
      have hr : List.Forall₂ (fun k j => k.rebuildAt (some l.serial) = .ok j) ks js :=
        List.forall₂_map_left_iff.mp (mapM_ok hjs)
      rw [Node.fold_mk, Node.fold_mk, Node.map_eq_of_forall₂ hr hkids]

end Operand

namespace Node

variable {β : Type} {w : Label → List β} {g : Label → List (List β) → List β} {n m : Node}

theorem fold_rebuild (hg : InOrder w g) {p : Option Nat} (h : n.rebuildAt p = .ok m) :
    m.fold g = n.fold g :=
  Operand.fold_rebuild_of_items hg (fun _ hi hf => Operand.yield_items hg hi hf) h

/-- Reordering moves operators among the operands of their own chain only. -/
theorem fold_reorder (hg : InOrder w g) (h : n.reorder = .ok m) : m.fold g = n.fold g := by
  obtain ⟨k, hk, hm⟩ := except_bind_ok.mp h
  exact (fold_markReordered hg.mark hm).trans (fold_rebuild hg hk)

/-! The labels of a tree in order, which reordering keeps as well. -/

def sequenceStep (hides : Label → Bool) (l : Label) (parts : List (List Label)) : List Label :=
  if hides l then [l.draft]
  else if l.isOperator then
    match parts with
    | [x, y] => x ++ [l.draft] ++ y
    | _ => l.draft :: parts.flatten
  else l.draft :: parts.flatten

/-- The labels of a tree in order, as the phases up to reordering leave them; a label may hide its
children. -/
def sequence (hides : Label → Bool) (n : Node) : List Label := n.fold (sequenceStep hides)

variable {hides : Label → Bool} {l x : Label} {ks : List Node}

theorem mem_sequence_mk : x ∈ (mk l ks).sequence hides ↔
    x = l.draft ∨ hides l = false ∧ ∃ k ∈ ks, x ∈ k.sequence hides := by
  rw [sequence, fold_mk, sequenceStep.eq_def]
  split
  · next h => simp [h]
  · next h =>
    have hkids : x ∈ (ks.map (fold (sequenceStep hides))).flatten ↔
        ∃ k ∈ ks, x ∈ k.sequence hides := by
      rw [← List.flatMap_def, List.mem_flatMap]
      rfl
    split
    · split
      · next a b hx =>
        rw [hx] at hkids
        simp only [List.flatten_cons, List.flatten_nil, List.append_nil, List.mem_append] at hkids
        simp only [List.mem_append, List.mem_singleton, h, true_and, ← hkids]
        tauto
      · rw [List.mem_cons, hkids]
        simp [h]
    · rw [List.mem_cons, hkids]
      simp [h]

theorem sequential_sequence (hd : ∀ l, hides l.draft = hides l)
    (ho : ∀ l, l.isOperator = true → hides l = false) :
    Sequential (fun l => [l.draft]) (sequenceStep hides) where
  draft l := by
    have h1 : l.draft.draft = l.draft := by
      simp only [Label.draft]
      cases l.form <;> rfl
    have h2 : l.draft.isOperator = l.isOperator := by
      simp only [Label.isOperator, Label.draft]
      cases l.form <;> rfl
    funext parts
    simp only [sequenceStep, hd, h1, h2]
  unary l x hl _ := by simp [sequenceStep, ho l hl, hl]
  binary l x y hl _ := by simp [sequenceStep, ho l hl, hl]

end Node

end TokenShell
