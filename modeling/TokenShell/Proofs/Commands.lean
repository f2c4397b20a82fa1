import Mathlib.Data.List.Nodup
import TokenShell.Proofs.Discarding

/-! Commands are handed over at most once and in the order in which they were closed. -/
namespace TokenShell

/-- The number of a command's label. -/
def Label.command (l : Label) : List Nat :=
  match l.form with
  | .command _ => [l.serial]
  | _ => []

theorem Label.command_seed (l : Label) : l.seed.command = l.command := by
  simp only [command, seed]
  cases l.form <;> rfl

namespace Node

variable {n m k c : Node} {l : Label} {ks js : List Node} {within : Option Nat} {os : Scopes}

/-- The commands of a tree in the order in which they are closed. -/
def commands (n : Node) : List Nat := n.fold fun l parts => parts.flatten ++ l.command

theorem commands_mk (l : Label) (ks : List Node) :
    (mk l ks).commands = ks.flatMap commands ++ l.command := by
  rw [commands, fold_mk, List.flatMap_def]
  rfl

/-- The commands below a node. -/
def inner (n : Node) : List Nat := n.kids.flatMap commands

theorem commands_eq (n : Node) : n.commands = n.inner ++ n.label.command := by
  obtain ⟨l, ks⟩ := n
  exact commands_mk l ks

theorem inner_push (n k : Node) : (n.push k).inner = n.inner ++ k.commands := by
  simp [push, inner]

theorem inner_setScope (n : Node) (s : Scope) : (n.setScope s).inner = n.inner := by
  unfold setScope
  split <;> rfl

theorem commands_shut (n : Node) (time : Nat) : (n.shut time).commands = n.commands := by
  rw [commands_eq, commands_eq]
  rfl

theorem commands_faithful :
    Faithful (fun _ => []) (fun l parts => parts.flatten ++ l.command) where
  seed l := by
    rw [Label.command_seed]
  unary l x hl _ := by
    cases hf : l.form <;> simp_all [Label.isOperator, Label.command]
  binary l x y hl _ := by
    cases hf : l.form <;> simp_all [Label.isOperator, Label.command]

theorem commands_passed (h : List.Forall₂ (Flushed.Passed within os) ks js) :
    js.map commands = ks.map commands :=
  Flushed.fold_passed commands_faithful h

theorem commands_congr (h : m.outline = n.outline) : m.commands = n.commands :=
  fold_outline commands_faithful h

/-! Trees of which nothing is evaluated. -/

/-- One mark for every evaluated node of a tree. -/
def marks (n : Node) : List Unit :=
  n.fold fun l parts => (if l.flags.evaluated then [()] else []) ++ parts.flatten

/-- Nothing of the tree is evaluated. -/
def Fresh (n : Node) : Prop := n.marks = []

theorem fresh_mk : (mk l ks).Fresh ↔ l.flags.evaluated = false ∧ ∀ k ∈ ks, k.Fresh := by
  simp only [Fresh, marks, fold_mk, List.append_eq_nil_iff, List.flatten_eq_nil_iff, List.mem_map]
  refine and_congr ?_ ?_
  · cases l.flags.evaluated <;> simp
  · exact ⟨fun h k hk => h _ ⟨k, hk, rfl⟩, by rintro h _ ⟨k, hk, rfl⟩; exact h k hk⟩

theorem Fresh.flags (h : n.Fresh) : n.flags.evaluated = false := by
  obtain ⟨l, ks⟩ := n
  exact (fresh_mk.mp h).1

theorem marks_sequential : Sequential (fun l => if l.flags.evaluated then [()] else [])
    (fun l parts => (if l.flags.evaluated then [()] else []) ++ parts.flatten) :=
  .count fun _ => rfl

theorem Fresh.passed (hk : k.Fresh) (h : Flushed.Passed within os k m) : m.Fresh := by
  rcases h with rfl | ⟨s, t, hc⟩
  · exact hk
  · have hm : m.marks = k.marks := fold_cascade marks_sequential (fun l => rfl) hc
    rw [Fresh, hm]
    exact hk

theorem fresh_passed (h : List.Forall₂ (Flushed.Passed within os) ks js) (hk : ∀ k ∈ ks, k.Fresh) :
    ∀ j ∈ js, j.Fresh := by
  induction h with
  | nil => simp
  | cons hp _ ih =>
    intro j hj
    rcases List.mem_cons.mp hj with rfl | hj
    · exact (hk _ (by simp)).passed hp
    · exact ih (fun k hm => hk k (by simp [hm])) j hj

theorem Fresh.push (hn : n.Fresh) (hk : k.Fresh) : (n.push k).Fresh := by
  obtain ⟨l, ks⟩ := n
  obtain ⟨hl, hks⟩ := fresh_mk.mp hn
  refine fresh_mk.mpr ⟨hl, fun j hj => ?_⟩
  rcases List.mem_append.mp hj with hj | hj
  · exact hks j hj
  · obtain rfl := List.mem_singleton.mp hj
    exact hk

theorem Fresh.shut (hn : n.Fresh) (time : Nat) : (n.shut time).Fresh := by
  obtain ⟨l, ks⟩ := n
  obtain ⟨hl, hks⟩ := fresh_mk.mp hn
  exact fresh_mk.mpr ⟨hl, hks⟩

theorem fresh_sprout (tok : Token) (serial : Nat) (k : Site) (m : Option Marker) :
    (sprout tok serial k m).Fresh :=
  fresh_mk.mpr ⟨rfl, by simp⟩

theorem fresh_setScope (hl : l.flags.evaluated = false) (hj : ∀ j ∈ js, j.Fresh) (s : Scope) :
    ((mk l js).setScope s).Fresh := by
  unfold setScope
  split
  · exact fresh_mk.mpr ⟨hl, hj⟩
  · exact fresh_mk.mpr ⟨hl, hj⟩

/-! The commands that are due. -/

mutual

/-- The commands of a tree that are handed over: those that hold no code block. -/
def orders : Node → List Nat
  | mk l ks => ordersAll ks ++ l.due ks

def ordersAll : List Node → List Nat
  | [] => []
  | n :: ns => n.orders ++ ordersAll ns

end

theorem ordersAll_eq (ks : List Node) : ordersAll ks = ks.flatMap orders := by
  induction ks with
  | nil => rfl
  | cons k ks ih => rw [ordersAll, ih, List.flatMap_cons]

theorem orders_mk (l : Label) (ks : List Node) :
    (mk l ks).orders = ks.flatMap orders ++ l.due ks := by
  rw [orders, ordersAll_eq]

theorem due_of_fresh (h : n.Fresh) : n.due = n.orders := by
  induction n using induct with
  | h l ks ih =>
    obtain ⟨hl, hks⟩ := fresh_mk.mp h
    rw [due, orders_mk, hl, dueAll_eq, List.flatMap_congr fun k hk => ih k hk (hks k hk)]
    rfl

theorem orders_outline (n : Node) : n.outline.orders = n.orders := by
  induction n using induct with
  | h l ks ih =>
    have hk : (ks.map outline).any isCodeBlock = ks.any isCodeBlock := by
      rw [List.any_map]
      exact congrArg ks.any (funext isCodeBlock_outline)
    have hd : l.outline.due (ks.map outline) = l.due ks := by
      simp only [Label.due, hk, Label.outline]
      cases l.form <;> rfl
    rw [outline_mk, orders_mk, orders_mk, hd, List.flatMap_map, List.flatMap_congr ih]

theorem due_sublist (l : Label) (ks : List Node) : (l.due ks).Sublist l.command := by
  cases hf : l.form with
  | command b =>
    simp only [Label.due, Label.command, hf]
    split
    · exact List.nil_sublist _
    · exact .refl _
  | _ => simp [Label.due, hf]

theorem orders_sublist (n : Node) : n.orders.Sublist n.commands := by
  induction n using induct with
  | h l ks ih =>
    rw [orders_mk, commands_mk]
    exact (List.Sublist.flatMap_right ks ih).append (due_sublist l ks)

mutual

/-- A tree and all trees below it. -/
def subtrees : Node → List Node
  | mk l ks => mk l ks :: subtreesAll ks

def subtreesAll : List Node → List Node
  | [] => []
  | n :: ns => n.subtrees ++ subtreesAll ns

end

theorem mem_subtrees_mk : c ∈ (mk l ks).subtrees ↔ c = mk l ks ∨ ∃ k ∈ ks, c ∈ k.subtrees := by
  have hall : ∀ ks : List Node, subtreesAll ks = ks.flatMap subtrees := by
    intro ks
    induction ks with
    | nil => rfl
    | cons k ks ih => rw [subtreesAll, ih, List.flatMap_cons]
  rw [subtrees, hall, List.mem_cons, List.mem_flatMap]

theorem command_of_isCommand (h : n.isCommand = true) : n.label.command = [n.label.serial] := by
  unfold isCommand at h
  split at h
  · next b hf =>
    rw [form] at hf
    rw [Label.command, hf]
  · cases h

theorem serial_mem_commands (hc : c ∈ n.subtrees) (h : c.isCommand = true) :
    c.label.serial ∈ n.commands := by
  induction n using induct with
  | h l ks ih =>
    rw [commands_mk]
    rcases mem_subtrees_mk.mp hc with rfl | ⟨k, hk, hc⟩
    · rw [← label_mk l ks, command_of_isCommand h]
      simp
    · exact List.mem_append_left _ (List.mem_flatMap.mpr ⟨k, hk, ih k hk hc⟩)

/-- Where numbers are not shared, a command is handed over just if it holds no code block. -/
theorem mem_orders_iff (hn : n.commands.Nodup) (hc : c ∈ n.subtrees) (h : c.isCommand = true) :
    c.label.serial ∈ n.orders ↔ c.kids.any isCodeBlock = false := by
  induction n using induct with
  | h l ks ih =>
    rw [commands_mk, List.nodup_append] at hn
    obtain ⟨hks, -, hdisj⟩ := hn
    rw [orders_mk, List.mem_append]
    rcases mem_subtrees_mk.mp hc with rfl | ⟨k, hk, hc⟩
    · have hl : l.command = [l.serial] := command_of_isCommand h
      have hnot : l.serial ∉ ks.flatMap orders := by
        intro hm
        obtain ⟨k, hk, hm⟩ := List.mem_flatMap.mp hm
        exact hdisj _ (List.mem_flatMap.mpr ⟨k, hk, (orders_sublist k).mem hm⟩) _
          (by rw [hl]; simp) rfl
      have hdue : l.due ks = if ks.any isCodeBlock then [] else [l.serial] := by
        unfold isCommand at h
        split at h
        · next b hf =>
          rw [form_mk] at hf
          rw [Label.due, hf]
        · cases h
      rw [label_mk, kids_mk, hdue]
      simp only [hnot, false_or]
      split <;> simp_all
    · have hs := serial_mem_commands hc h
      have hnot : c.label.serial ∉ l.due ks := by
        intro hm
        exact hdisj _ (List.mem_flatMap.mpr ⟨k, hk, hs⟩) _ ((due_sublist l ks).mem hm) rfl
      obtain ⟨hnd, hpair⟩ := List.nodup_flatMap.mp hks
      rw [← ih k hk (hnd k hk) hc]
      simp only [hnot, or_false, List.mem_flatMap]
      refine ⟨?_, fun hm => ⟨k, hk, hm⟩⟩
      rintro ⟨j, hj, hm⟩
      by_cases hjk : j = k
      · exact hjk ▸ hm
      · have : Std.Symm (Function.onFun List.Disjoint commands) := ⟨fun _ _ h _ hx hy => h hy hx⟩
        exact (hpair.forall hj hk hjk ((orders_sublist j).mem hm) hs).elim

end Node

namespace Tree

variable {t u v : Tree} {tok : Token} {f : Option Failure} {n : Node} {path rs : List Node}
  {g : Scope} {a b : List Nat}

/-- The commands that may still be handed over. -/
def outstanding (t : Tree) : List Nat :=
  (t.fragments.filter (!·.flags.evaluated)).flatMap Node.commands ++
    t.path.reverse.flatMap Node.inner

/-- A fragment is evaluated as a whole or not at all, and what is open is not evaluated. -/
structure Fresh (t : Tree) : Prop where
  fragments : ∀ n ∈ t.fragments, n.flags.evaluated = false → n.Fresh
  path : ∀ n ∈ t.path, n.Fresh

/-- The outstanding commands of `t`, some others after them, and no others, may be outstanding in
`u`; no fragment has been evaluated in between. -/
structure Carries (t u : Tree) (more : List Nat) : Prop where
  fresh : u.Fresh
  outstanding : u.outstanding.Sublist (t.outstanding ++ more)
  evaluated : ∀ n ∈ u.fragments, n.flags.evaluated = true → n ∈ t.fragments

theorem Carries.refl (h : t.Fresh) : t.Carries t [] :=
  ⟨h, by simp, fun _ hn _ => hn⟩

theorem Carries.trans (h : t.Carries u a) (h' : u.Carries v b) : t.Carries v (a ++ b) := by
  refine ⟨h'.fresh, ?_, fun n hn he => h.evaluated n (h'.evaluated n hn he) he⟩
  rw [← List.append_assoc]
  exact h'.outstanding.trans (h.outstanding.append (.refl _))

theorem Carries.weaken (h : t.Carries u a) (hs : a.Sublist b) : t.Carries u b :=
  ⟨h.fresh, h.outstanding.trans ((List.Sublist.refl _).append hs), h.evaluated⟩

theorem carries_append (h : t.Fresh) (hn : n.Fresh) : t.Carries (t.append n) n.commands := by
  have hfresh : (t.append n).Fresh :=
    ⟨forall_fragments_append h.fragments fun _ => hn,
      forall_path_append h.path fun _ hm => hm.push hn⟩
  refine ⟨hfresh, ?_, forall_fragments_append (fun m hm _ => hm) ?_⟩
  · unfold append
    split
    · next hp => simp [outstanding, hp, hn.flags]
    · next p path hp => simp [outstanding, hp, Node.inner_push]
  · intro he
    rw [hn.flags] at he
    cases he

theorem carries_leave (h : t.Fresh) (hp : t.path = n :: path) :
    t.Carries t.leave n.label.command := by
  have hpath := h.path
  rw [hp] at hpath
  have hrest : ({ t with path } : Tree).Fresh := ⟨h.fragments, fun m hm => hpath m (by simp [hm])⟩
  rw [leave_cons hp]
  obtain ⟨hf, ho, he⟩ := carries_append hrest ((hpath n (by simp)).shut t.clock)
  refine ⟨hf, ho.trans ?_, he⟩
  rw [Node.commands_shut, Node.commands_eq]
  simp [outstanding, hp]

/-- A flush moves no command and evaluates nothing. -/
theorem carries_flush (h : t.Fresh) (hg : t.Grown rs g []) (hr : ∀ r ∈ rs, r.isReady = true) :
    t.Carries t.flush.tree [] := by
  cases hp : t.path with
  | nil =>
    obtain ⟨qs, ps, hf, hq, hraw, -, -⟩ := hg.parts
    have ha : ∀ n ∈ rs ++ qs, n.flags.analyzed = true := fun n hm =>
      Node.analyzed_of_ready ((List.mem_append.mp hm).elim (hr n) (hq n))
    obtain ⟨js, new, ev, fl, he, -, hj, -⟩ := flush_alike _ _ hp hp hf hf ha ha (.refl _)
    have hps : ∀ p ∈ ps, p.Fresh := fun p hm =>
      h.fragments p (by rw [hf]; exact List.mem_append_right _ hm) (hraw p hm).flags.2
    have hjs := Node.fresh_passed hj hps
    have hall : ∀ is : List Node, (∀ i ∈ is, i.Fresh) → is.filter (!·.flags.evaluated) = is :=
      fun is his => List.filter_eq_self.mpr fun i hi => by simp [(his i hi).flags]
    rw [he]
    refine ⟨⟨?_, h.path⟩, ?_, ?_⟩
    · intro n hm hn
      rcases List.mem_append.mp hm with hm | hm
      · exact h.fragments n (by rw [hf]; exact List.mem_append_left _ hm) hn
      · exact hjs n hm
    · have hc : js.flatMap Node.commands = ps.flatMap Node.commands := by
        rw [List.flatMap_def, List.flatMap_def, Node.commands_passed hj]
      simp only [outstanding, hf, List.filter_append, hall js hjs, hall ps hps,
        List.flatMap_append, hc, List.append_nil]
      exact .refl _
    · intro n hm hn
      rcases List.mem_append.mp hm with hm | hm
      · rw [hf]
        exact List.mem_append_left _ hm
      · rw [(hjs n hm).flags] at hn
        cases hn
  | cons n path =>
    obtain ⟨js, scope, ev, fl, he, -, hj, -⟩ := flush_inner hp hp (.refl _)
    have hpath := h.path
    rw [hp] at hpath
    obtain ⟨l, ks⟩ := n
    obtain ⟨hl, hks⟩ := Node.fresh_mk.mp (hpath (.mk l ks) (by simp))
    have hjs := Node.fresh_passed hj hks
    rw [he]
    refine ⟨⟨h.fragments, ?_⟩, ?_, fun m hm _ => hm⟩
    · intro m hm
      rcases List.mem_cons.mp hm with rfl | hm
      · exact Node.fresh_setScope hl hjs scope
      · exact hpath m (by simp [hm])
    · have hc : (Node.mk l js).inner = (Node.mk l ks).inner := by
        rw [Node.inner, Node.inner, List.flatMap_def, List.flatMap_def]
        exact congrArg _ (Node.commands_passed hj)
      simp only [outstanding, hp, List.reverse_cons, List.flatMap_append, List.flatMap_singleton,
        Node.inner_setScope, Node.label_mk, hc, List.append_nil]
      exact .refl _

theorem commands_sprout (serial : Nat) (k : Node.Site) (m : Option Marker)
    (h : tok.kind ≠ .marker .openCommand) : (Node.sprout tok serial k m).commands = [] := by
  have hc : (Node.sprout tok serial k m).isCommand = false := by
    by_contra hc
    exact h (Node.kind_of_command (by simpa using hc))
  rw [Node.commands_eq, Label.command]
  split
  · next b hf => simp [Node.isCommand, Node.form, hf] at hc
  · rfl

/-- A command is closed by its own marker. -/
theorem Closing.command (h : t.Closing tok u) (hu : u.path = n :: path) (ho : n.Opened) :
    n.label.command.Sublist (t.closes tok) := by
  obtain ⟨n', path', m, hk, hp, hc, he, hcase⟩ := h
  obtain ⟨rfl, rfl⟩ := List.cons.inj (hp.symm.trans hu)
  cases hcmd : n'.isCommand with
  | false =>
    rw [Label.command]
    split
    · next b hf => simp [Node.isCommand, Node.form, hf] at hcmd
    · exact List.nil_sublist _
  | true =>
    have hm : m = .closeCommand := by
      have := ho.command hcmd
      simp only [Node.closedBy, this, Marker.closer?, Option.any_some, beq_iff_eq,
        Option.some.injEq] at hc
      exact hc.symm
    subst hm
    rcases hcase with ⟨-, rfl⟩ | ⟨hb, -⟩
    · rw [Node.command_of_isCommand hcmd, closes, hp]
      simp only [hk, he, hc, and_self, if_true]
      exact .refl _
    · cases hb

theorem Placed.carries (h : t.Placed tok u f) (hf : t.Fresh) (hg : t.Grown rs g [])
    (hr : ∀ r ∈ rs, r.isReady = true) : t.Carries u (t.closes tok) := by
  have hclosing : ∀ v, t.Closing tok v → t.Carries v.leave (t.closes tok) := by
    intro v hv
    have hgv := hg.closing hr hv
    have hv' := hv
    obtain ⟨n, path, m, -, hp, -, -, hcase⟩ := hv
    have htv : t.Carries v [] := by
      rcases hcase with ⟨-, rfl⟩ | ⟨-, rfl, -⟩
      · exact .refl hf
      · exact carries_flush hf hg hr
    have hc := hv'.command hp (hgv.opened n (by simp [hp]))
    exact (htv.trans (carries_leave htv.fresh hp)).weaken hc
  cases h with
  | refused f _ => exact (Carries.refl hf).weaken (List.nil_sublist _)
  | awaiting _ => exact ⟨⟨hf.fragments, hf.path⟩, List.sublist_append_left _ _, fun _ hn _ => hn⟩
  | leaf k hk =>
    have hc := carries_append hf (Node.fresh_sprout tok t.clock k none)
    rw [commands_sprout _ _ _ (hk _)] at hc
    exact hc.weaken (List.nil_sublist _)
  | entered k m _ =>
    refine ⟨⟨hf.fragments, ?_⟩, ?_, fun _ hn _ => hn⟩
    · intro n hn
      rcases List.mem_cons.mp hn with rfl | hn
      · exact Node.fresh_sprout _ _ _ _
      · exact hf.path n hn
    · have hi : (Node.sprout tok t.clock k (some m)).inner = [] := rfl
      simp only [outstanding, List.reverse_cons, List.flatMap_append, List.flatMap_singleton, hi,
        List.append_nil]
      exact List.sublist_append_left _ _
  | flushed _ _ => exact (carries_flush hf hg hr).weaken (List.nil_sublist _)
  | blocked f n path _ _ _ => exact (carries_flush hf hg hr).weaken (List.nil_sublist _)
  | left v hv => exact hclosing v hv
  | delivered v hv _ =>
    have hc := hclosing v hv
    rw [← List.append_nil (t.closes tok)]
    exact hc.trans (carries_flush hc.fresh (hg.closing hr hv).leave hr)

theorem reset_fragments (h : ∀ n ∈ t.path, n.Opened) :
    t.reset.tree.fragments = t.fragments.filter (·.isReady) := by
  have hopen : (openFragment t.path).toList.filter (·.isReady) = [] := by
    refine List.filter_eq_nil_iff.mpr fun m hm => ?_
    simp [((openFragment_spec t.path).2 (fun n hn => (h n hn).raw) m hm).not_ready]
  simp only [reset, roots, List.filter_append, hopen, List.append_nil]

theorem carries_reset (hf : t.Fresh) (h : ∀ n ∈ t.path, n.Opened) : t.Carries t.reset.tree [] := by
  have hr := reset_fragments h
  have hsub : t.reset.tree.fragments.Sublist t.fragments := by
    rw [hr]
    exact List.filter_sublist
  refine ⟨⟨fun n hn he => hf.fragments n (hsub.mem hn) he, by simp [reset]⟩, ?_,
    fun n hn _ => hsub.mem hn⟩
  have hp : t.reset.tree.path = [] := rfl
  rw [outstanding, hp, outstanding, List.append_nil]
  exact ((hsub.filter _).flatMap _).append (List.nil_sublist _)

theorem carries_insert (hf : t.Fresh) (hs : t.Sound) (tok : Token) :
    t.Carries (t.insert tok).tree (t.closes tok) := by
  obtain ⟨hr, -, hg⟩ := hs.grown
  have hplaced := placed_place { t with clock := t.clock + 1 } tok
  have hc := hplaced.carries ⟨hf.fragments, hf.path⟩ hg.tick hr
  have hc' : t.Carries ({ t with clock := t.clock + 1 }.place tok).tree (t.closes tok) :=
    ⟨hc.fresh, hc.outstanding, hc.evaluated⟩
  rcases insert_tree t tok with ⟨-, ht, -⟩ | ⟨f, -, ht, -⟩
  · rw [ht]
    exact hc'
  · obtain ⟨extra, hgrown, -⟩ := hg.tick.place hr hplaced
    rw [ht, ← List.append_nil (t.closes tok)]
    exact hc'.trans (carries_reset hc.fresh hgrown.opened)

/-! The numbers of the open nodes. -/

/-- The numbers of the open nodes, innermost first. -/
def openSerials (t : Tree) : List Nat := t.path.map (·.label.serial)

theorem openSerials_append (t : Tree) (n : Node) : (t.append n).openSerials = t.openSerials := by
  unfold append
  split
  · rfl
  · next p path hp => simp [openSerials, hp, Node.push]

theorem openSerials_leave (t : Tree) : t.leave.openSerials = t.openSerials.tail := by
  unfold leave
  split
  · next hp => simp [openSerials, hp]
  · next n path hp =>
    rw [openSerials_append]
    simp [openSerials, hp]

theorem openSerials_flush (t : Tree) : t.flush.tree.openSerials = t.openSerials := by
  rcases flush_cases t with ⟨-, js, new, he, -⟩ | ⟨n, path, js, scope, hp, he, -⟩
  · rw [he]
    rfl
  · have hs : ((Node.mk n.label js).setScope scope).label.serial = n.label.serial := by
      unfold Node.setScope
      split <;> rfl
    simp [he, openSerials, hp, hs]

/-- At most the time of the token is new among the numbers of the open nodes. -/
theorem Placed.openSerials (h : t.Placed tok u f) :
    u.openSerials.Sublist (t.clock :: t.openSerials) := by
  have hself : t.openSerials.Sublist (t.clock :: t.openSerials) := List.sublist_cons_self _ _
  have hclosing : ∀ v, t.Closing tok v → v.openSerials = t.openSerials := by
    rintro v ⟨-, -, -, -, -, -, -, ⟨-, rfl⟩ | ⟨-, rfl, -⟩⟩
    · rfl
    · exact openSerials_flush t
  cases h with
  | refused f _ => exact hself
  | awaiting _ => exact hself
  | leaf k _ =>
    rw [openSerials_append]
    exact hself
  | entered k m _ => exact .refl _
  | flushed _ _ =>
    rw [openSerials_flush]
    exact hself
  | blocked f n path _ _ _ =>
    rw [openSerials_flush]
    exact hself
  | left v hv =>
    rw [openSerials_leave, hclosing v hv]
    exact (List.tail_sublist _).trans hself
  | delivered v hv _ =>
    rw [openSerials_flush, openSerials_leave, hclosing v hv]
    exact (List.tail_sublist _).trans hself

/-- A command that is closed is the innermost open node, and is open no more. -/
theorem place_closes {s : Nat} (h : t.closes tok = [s]) :
    t.openSerials = s :: (t.place tok).tree.openSerials := by
  unfold closes at h
  split at h
  · cases h
  · next n path hp =>
    split at h
    · next hc =>
      obtain ⟨hk, he, hn⟩ := hc
      obtain rfl : n.label.serial = s := by simpa using h
      have hpl : t.place tok = t.closeCursor := by
        unfold place close
        rw [hk]
        simp only [he, hp, hn]
        rfl
      have ho : t.closeCursor.tree.openSerials = t.leave.openSerials := by
        rw [closeCursor_cons hp]
        split
        · exact openSerials_flush _
        · rfl
      rw [hpl, ho, openSerials_leave]
      simp [openSerials, hp]
    · cases h

/-- What an insertion closes was open, and only its own time is new. -/
theorem insert_openSerials (t : Tree) (tok : Token) :
    t.closes tok = [] ∧
        (t.insert tok).tree.openSerials.Sublist ((t.clock + 1) :: t.openSerials) ∨
      ∃ s rest, t.closes tok = [s] ∧ t.openSerials = s :: rest ∧
        (t.insert tok).tree.openSerials.Sublist rest := by
  have hins : (t.insert tok).tree.openSerials.Sublist
      ({ t with clock := t.clock + 1 }.place tok).tree.openSerials := by
    rcases insert_tree t tok with ⟨-, ht, -⟩ | ⟨f, -, ht, -⟩
    · rw [ht]
    · rw [ht]
      exact List.nil_sublist _
  have hone : t.closes tok = [] ∨ ∃ s, t.closes tok = [s] := by
    unfold closes
    split
    · exact Or.inl rfl
    · split
      · exact Or.inr ⟨_, rfl⟩
      · exact Or.inl rfl
  rcases hone with hc | ⟨s, hc⟩
  · exact Or.inl ⟨hc, hins.trans (placed_place { t with clock := t.clock + 1 } tok).openSerials⟩
  · exact Or.inr ⟨s, _, hc, place_closes (t := { t with clock := t.clock + 1 }) hc, hins⟩

end Tree

/-! The commands over a whole run. -/

/-- Commands handed over, `gone`, have had their turn, `past`; these and those to come are in the
order of closing. Of an evaluated fragment only commands with a code block are not among them. -/
structure Ledger (closed gone past : List Nat) (E : Node → Prop) (coming : List Nat) : Prop where
  spent : gone.Sublist past
  order : (past ++ coming).Sublist closed
  evaluated : ∀ f, E f → f.commands.Nodup ∧
    ∀ s ∈ f.commands, s ∈ past ∧ (s ∈ gone ↔ s ∈ f.orders)

namespace Ledger

variable {closed gone past coming cs ds : List Nat} {E : Node → Prop} {n : Node}

/-- The turn of some commands has come, and some of them are handed over. -/
theorem spend (h : Ledger closed gone past E (cs ++ coming)) (hc : closed.Nodup)
    (hd : ds.Sublist cs) : Ledger closed (gone ++ ds) (past ++ cs) E coming := by
  refine ⟨h.spent.append hd, ?_, fun f hf => ?_⟩
  · rw [List.append_assoc]
    exact h.order
  · obtain ⟨hn, hs⟩ := h.evaluated f hf
    refine ⟨hn, fun s hm => ⟨List.mem_append_left _ (hs s hm).1, ?_⟩⟩
    have hnd := hc.sublist h.order
    rw [List.nodup_append] at hnd
    have hnot : s ∉ ds := fun hsd =>
      hnd.2.2 s (hs s hm).1 s (List.mem_append_left _ (hd.mem hsd)) rfl
    rw [List.mem_append, ← (hs s hm).2]
    simp [hnot]

/-- The turn of a fragment that is evaluated. -/
theorem settle (h : Ledger closed gone past E (n.commands ++ coming)) (hc : closed.Nodup)
    {m : Node} (hm : n.Settles m) :
    Ledger closed (gone ++ n.orders) (past ++ n.commands) (fun f => E f ∨ f = m) coming := by
  have hspent := h.spend hc n.orders_sublist
  have hcom : m.commands = n.commands := Node.commands_congr hm.1
  have hord : m.orders = n.orders := by rw [← Node.orders_outline, hm.1, Node.orders_outline]
  refine ⟨hspent.spent, hspent.order, ?_⟩
  rintro f (hf | rfl)
  · exact hspent.evaluated f hf
  · have hnd := hc.sublist h.order
    rw [List.nodup_append, List.nodup_append] at hnd
    obtain ⟨-, ⟨hn, -⟩, hdisj⟩ := hnd
    rw [hcom, hord]
    refine ⟨hn, fun s hs => ⟨List.mem_append_right _ hs, ?_⟩⟩
    have hnot : s ∉ gone := fun hh =>
      hdisj s (h.spent.mem hh) s (List.mem_append_left _ hs) rfl
    simp [hnot]

theorem mono (h : Ledger closed gone past E coming) {closed' coming' : List Nat} {E' : Node → Prop}
    (ho : (past ++ coming').Sublist closed') (he : ∀ f, E' f → E f) :
    Ledger closed' gone past E' coming' :=
  ⟨h.spent, ho, fun f hf => h.evaluated f (he f hf)⟩

end Ledger

namespace Progress

variable {σ : Type} {d : Option (Dispatcher σ)} {m m' : Machine σ} {ks ks' : List Node}
  {vs : List Value} {closed gone past coming : List Nat} {E : Node → Prop}

/-- What a pass hands over. -/
theorem Pass.ledger (h : Pass d m ks ks' vs m') (hc : closed.Nodup)
    (hf : ∀ k ∈ ks, k.flags.evaluated = false → k.Fresh)
    (hl : Ledger closed gone past E
      ((ks.filter (!·.flags.evaluated)).flatMap Node.commands ++ coming))
    (he : ∀ k ∈ ks, k.flags.evaluated = true → E k) :
    ∃ out past', m'.outputs = m.outputs ++ out ∧
      Sent d m.world ((handed out).map Prod.snd) m'.world ∧
      Ledger closed (gone ++ dispatched out) past' (fun f => E f ∨ f ∈ ks') coming ∧
      ∀ k ∈ ks', k.flags.evaluated = true := by
  induction h generalizing gone past E with
  | nil m =>
    refine ⟨[], past, by simp, .nil _, ?_, by simp⟩
    simpa [dispatched, handed] using hl
  | @skip _ _ n ns ns' _ hn _ ih =>
    have hl' : Ledger closed gone past E
        ((ns.filter (!·.flags.evaluated)).flatMap Node.commands ++ coming) := by
      simpa [hn] using hl
    obtain ⟨out, past', ho, hw, hlast, hall⟩ :=
      ih (fun k hk => hf k (by simp [hk])) hl' fun k hk => he k (by simp [hk])
    refine ⟨out, past', ho, hw, hlast.mono hlast.order ?_, ?_⟩
    · rintro f (hE | hm)
      · exact Or.inl hE
      · rcases List.mem_cons.mp hm with rfl | hm
        · exact Or.inl (he f (by simp) hn)
        · exact Or.inr hm
    · intro k hk
      rcases List.mem_cons.mp hk with rfl | hk
      · exact hn
      · exact hall k hk
  | @step m m₁ _ n n' ns ns' _ hn hr _ heval _ ih =>
    obtain ⟨-, out, ho, hw, -, hok⟩ := Node.dispatches_evaluate d n m
    rw [heval] at ho hw hok
    obtain ⟨hout, hset⟩ := hok n' rfl
    rw [Node.due_of_fresh (hf n (by simp) hn)] at hout
    have hl' : Ledger closed gone past E
        (n.commands ++ ((ns.filter (!·.flags.evaluated)).flatMap Node.commands ++ coming)) := by
      simpa [hn] using hl
    have hstep := hl'.settle hc hset
    rw [← hout] at hstep
    obtain ⟨out', past', ho', hw', hlast, hall⟩ :=
      ih (fun k hk => hf k (by simp [hk])) hstep fun k hk hk' => Or.inl (he k (by simp [hk]) hk')
    refine ⟨out ++ out', past', ?_, ?_, ?_, ?_⟩
    · rw [ho', ho, List.append_assoc]
    · rw [handed_append, List.map_append]
      exact hw.append hw'
    · rw [dispatched_append, ← List.append_assoc]
      refine hlast.mono hlast.order ?_
      rintro f (hE | hm)
      · exact Or.inl (Or.inl hE)
      · rcases List.mem_cons.mp hm with rfl | hm
        · exact Or.inl (Or.inr rfl)
        · exact Or.inr hm
    · intro k hk
      rcases List.mem_cons.mp hk with rfl | hk
      · rw [hset.2]
      · exact hall k hk

/-- What the end of a pass hands over. -/
theorem End.ledger {rest rest' : List Node} {stop : Option Stop} (h : End d m rest rest' m' stop)
    (hc : closed.Nodup) (hf : ∀ k ∈ rest, k.flags.evaluated = false → k.Fresh)
    (hl : Ledger closed gone past E
      ((rest.filter (!·.flags.evaluated)).flatMap Node.commands ++ coming)) :
    ∃ out past', m'.outputs = m.outputs ++ out ∧
      Sent d m.world ((handed out).map Prod.snd) m'.world ∧
      Ledger closed (gone ++ dispatched out) past' E
        ((rest'.filter (!·.flags.evaluated)).flatMap Node.commands ++ coming) := by
  have hnone : Ledger closed (gone ++ dispatched []) past E
      ((rest.filter (!·.flags.evaluated)).flatMap Node.commands ++ coming) := by
    simpa [dispatched, handed] using hl
  cases h with
  | finished _ _ => exact ⟨[], past, by simp, .nil _, hnone⟩
  | interrupted _ _ _ => exact ⟨[], past, by simp, .nil _, hnone⟩
  | @failed n f m₁ _ hn _ _ heval =>
    obtain ⟨-, out, ho, hw, hsub, -⟩ := Node.dispatches_evaluate d n m
    rw [heval] at ho hw
    rw [Node.due_of_fresh (hf n (by simp) hn)] at hsub
    have hl' : Ledger closed gone past E
        (n.commands ++ ((rest'.filter (!·.flags.evaluated)).flatMap Node.commands ++ coming)) := by
      simpa [hn] using hl
    have hlog : handed (out ++ [.log (.evaluationFailed n.text f)]) = handed out := by
      simp [handed, Output.handed?]
    refine ⟨out ++ [.log (.evaluationFailed n.text f)], past ++ n.commands, ?_, ?_, ?_⟩
    · rw [← List.append_assoc, ← ho]
    · rw [hlog]
      exact hw
    · rw [dispatched, hlog, ← dispatched]
      exact hl'.spend hc (hsub.trans n.orders_sublist)

end Progress

namespace Run

variable {σ : Type} {d : Option (Dispatcher σ)} {w : σ} {r : Run σ}

/-- What is true of every run. -/
structure Orderly (d : Option (Dispatcher σ)) (w : σ) (r : Run σ) : Prop where
  sound : r.tree.Sound
  fresh : r.tree.Fresh
  distinct : (r.closed ++ r.tree.openSerials).Nodup
  bounded : ∀ s ∈ r.closed ++ r.tree.openSerials, s ≤ r.tree.clock
  sent : Sent d w ((handed r.outputs).map Prod.snd) r.world
  ledger : ∃ past, Ledger r.closed (dispatched r.outputs) past
    (fun f => f ∈ r.tree.fragments ∧ f.flags.evaluated = true) r.tree.outstanding

/-- An edit of the tree keeps the ledger, if what it adds to the commands is closed. -/
theorem Orderly.carry {t : Tree} {more : List Nat} (h : r.Orderly d w)
    (hc : r.tree.Carries t more) : ∃ past, Ledger (r.closed ++ more) (dispatched r.outputs) past
      (fun f => f ∈ t.fragments ∧ f.flags.evaluated = true) t.outstanding := by
  obtain ⟨past, hl⟩ := h.ledger
  refine ⟨past, hl.mono ?_ fun f hf => ⟨hc.evaluated f hf.1 hf.2, hf.2⟩⟩
  have hsub : (past ++ t.outstanding).Sublist (past ++ (r.tree.outstanding ++ more)) :=
    (List.Sublist.refl _).append hc.outstanding
  rw [← List.append_assoc] at hsub
  exact hsub.trans (hl.order.append (.refl _))

theorem Orderly.insert (h : r.Orderly d w) (tok : Token) :
    (r.step d (.insert tok)).Orderly d w := by
  have hc := Tree.carries_insert h.fresh h.sound tok
  have hclock := Tree.clock_insert r.tree tok
  obtain ⟨hd, hb⟩ :
      ((r.closed ++ r.tree.closes tok) ++ (r.tree.insert tok).tree.openSerials).Nodup ∧
      ∀ s ∈ (r.closed ++ r.tree.closes tok) ++ (r.tree.insert tok).tree.openSerials,
        s ≤ r.tree.clock + 1 := by
    have hsub : ∃ big : List Nat, big.Nodup ∧ (∀ s ∈ big, s ≤ r.tree.clock + 1) ∧
        ((r.closed ++ r.tree.closes tok) ++ (r.tree.insert tok).tree.openSerials).Sublist big := by
      rcases Tree.insert_openSerials r.tree tok with ⟨hn, hs⟩ | ⟨s, rest, hn, ho, hs⟩
      · refine ⟨r.closed ++ (r.tree.clock + 1) :: r.tree.openSerials, ?_, ?_, ?_⟩
        · refine (List.perm_middle.nodup_iff).mpr (List.nodup_cons.mpr ⟨fun hm => ?_, h.distinct⟩)
          have := h.bounded _ hm
          omega
        · intro s hm
          rcases List.mem_cons.mp (List.perm_middle.mem_iff.mp hm) with rfl | hm
          · exact Nat.le_refl _
          · exact Nat.le_succ_of_le (h.bounded s hm)
        · rw [hn, List.append_nil]
          exact (List.Sublist.refl _).append hs
      · refine ⟨r.closed ++ r.tree.openSerials, h.distinct,
          fun s hm => Nat.le_succ_of_le (h.bounded s hm), ?_⟩
        rw [hn, ho, List.append_assoc]
        exact (List.Sublist.refl _).append (hs.cons_cons s)
    obtain ⟨big, hnd, hle, hs⟩ := hsub
    exact ⟨hnd.sublist hs, fun s hm => hle s (hs.mem hm)⟩
  exact ⟨h.sound.insert tok, hc.fresh, hd, fun s hm => hclock ▸ hb s hm, h.sent, h.carry hc⟩

theorem Orderly.reset (h : r.Orderly d w) : (r.step d .reset).Orderly d w := by
  have hc := Tree.carries_reset h.fresh h.sound.opened
  have hl := h.carry hc
  rw [List.append_nil] at hl
  have hsub : (r.closed ++ r.tree.reset.tree.openSerials).Sublist
      (r.closed ++ r.tree.openSerials) :=
    (List.Sublist.refl _).append (List.nil_sublist _)
  exact ⟨h.sound.reset, hc.fresh, h.distinct.sublist hsub,
    fun s hm => h.bounded s (hsub.mem hm), h.sent, hl⟩

theorem Orderly.evaluate (h : r.Orderly d w) (cancelled : Bool) (interrupts : List Bool) :
    (r.step d (.evaluate cancelled interrupts)).Orderly d w := by
  obtain ⟨past, hl⟩ := h.ledger
  obtain ⟨ks, ks', rest, rest', vs, m', m'', stop, hns, hpass, hend, ho⟩ :=
    Progress.of_cases d interrupts ⟨[r.tree.globals], r.world, cancelled, []⟩ r.tree.fragments
  have hmem : ∀ k, k ∈ ks ∨ k ∈ rest → k ∈ r.tree.fragments := by
    intro k hk
    rw [hns]
    exact List.mem_append.mpr hk
  have hclosed : r.closed.Nodup := h.distinct.sublist (List.sublist_append_left _ _)
  rw [Tree.outstanding, hns, List.filter_append, List.flatMap_append, List.append_assoc] at hl
  obtain ⟨out, past', ho₁, hw₁, hl₁, hall⟩ := hpass.ledger hclosed
    (fun k hk => h.fresh.fragments k (hmem k (Or.inl hk))) hl
    (fun k hk he => ⟨List.mem_append_left _ hk, he⟩)
  obtain ⟨out', past'', ho₂, hw₂, hl₂⟩ := hend.ledger hclosed
    (fun k hk => h.fresh.fragments k (hmem k (Or.inr hk))) hl₁
  have hstep : r.step d (.evaluate cancelled interrupts) = { r with
      tree := { r.tree with
        fragments := ks' ++ rest', globals := m''.scopes.head?.getD r.tree.globals }
      world := m''.world
      stops := r.stops ++ [stop]
      values := r.values ++ vs
      outputs := r.outputs ++ m''.outputs } := by
    simp only [step, Tree.evaluate, ho]
  have hm'' : m''.outputs = out ++ out' := by
    rw [ho₂, ho₁]
    rfl
  have hsound := h.sound.evaluate d r.world cancelled interrupts
  rw [Tree.evaluate, ho] at hsound
  rw [hstep]
  refine ⟨hsound, ⟨?_, h.fresh.path⟩, h.distinct, h.bounded, ?_, past'', ?_⟩
  · intro n hn he
    rcases List.mem_append.mp hn with hn | hn
    · rw [hall n hn] at he
      cases he
    · exact h.fresh.fragments n (hmem n (Or.inr (hend.sublist.mem hn))) he
  · rw [hm'', handed_append, handed_append, List.map_append, List.map_append]
    exact h.sent.append (hw₁.append hw₂)
  · have hnil : ks'.filter (!·.flags.evaluated) = [] :=
      List.filter_eq_nil_iff.mpr fun k hk => by simp [hall k hk]
    simp only [hm'', dispatched_append, Tree.outstanding, List.filter_append, hnil,
      List.nil_append, ← List.append_assoc (dispatched r.outputs)]
    refine hl₂.mono hl₂.order ?_
    rintro f ⟨hf, he⟩
    rcases List.mem_append.mp hf with hf | hf
    · exact Or.inr hf
    · exact Or.inl ⟨List.mem_append_right _ (hend.sublist.mem hf), he⟩

theorem orderly (d : Option (Dispatcher σ)) (w : σ) (cs : List Call) : (of d w cs).Orderly d w := by
  refine invariant ?_ ?_ cs
  · exact ⟨Tree.sound_fresh, ⟨by simp, by simp⟩, by simp [Tree.openSerials],
      by simp [Tree.openSerials], .nil _, [], .slnil, by simp [Tree.outstanding], by simp⟩
  · intro r c hr
    cases c with
    | insert tok => exact hr.insert tok
    | reset => exact hr.reset
    | evaluate cancelled interrupts => exact hr.evaluate cancelled interrupts

/-- The dispatcher gets the commands that the log shows. They belong to distinct nodes, in the order
of closing; of an evaluated fragment only those with a code block are missing. -/
theorem commands_once (d : Option (Dispatcher σ)) (w : σ) (cs : List Call) :
    Sent d w ((handed (of d w cs).outputs).map Prod.snd) (of d w cs).world ∧
    (dispatched (of d w cs).outputs).Nodup ∧
    (dispatched (of d w cs).outputs).Sublist (of d w cs).closed ∧ (of d w cs).closed.Nodup ∧
    ∀ f ∈ (of d w cs).tree.fragments, f.flags.evaluated = true →
      ∀ c ∈ f.subtrees, c.isCommand = true →
        (dispatched (of d w cs).outputs).count c.label.serial =
          if c.kids.any Node.isCodeBlock then 0 else 1 := by
  have h := orderly d w cs
  obtain ⟨past, hl⟩ := h.ledger
  have hclosed : (of d w cs).closed.Nodup := h.distinct.sublist (List.sublist_append_left _ _)
  have hsub : (dispatched (of d w cs).outputs).Sublist (of d w cs).closed :=
    hl.spent.trans ((List.sublist_append_left _ _).trans hl.order)
  refine ⟨h.sent, hclosed.sublist hsub, hsub, hclosed, ?_⟩
  intro f hf he c hc hcmd
  obtain ⟨hn, hs⟩ := hl.evaluated f ⟨hf, he⟩
  have hiff := (hs _ (Node.serial_mem_commands hc hcmd)).2.trans (Node.mem_orders_iff hn hc hcmd)
  split
  · next hb =>
    refine List.count_eq_zero.mpr fun hm => ?_
    rw [hiff.mp hm] at hb
    cases hb
  · next hb =>
    exact List.count_eq_one_of_mem (hclosed.sublist hsub) (hiff.mpr (by simpa using hb))

/-- The sum of two commands, which is evaluated at the second attempt. -/
def sumOfCommands : List Call :=
  [.insert ⟨"(", []⟩, .insert ⟨"PLUS", []⟩, .insert ⟨"[", []⟩, .insert ⟨"FRAG", "a"⟩,
    .insert ⟨"]", []⟩, .insert ⟨"[", []⟩, .insert ⟨"FRAG", "b"⟩, .insert ⟨"]", []⟩,
    .insert ⟨")", []⟩, .evaluate true [], .evaluate false []]

theorem commands_once_sumOfCommands :
    (of (some Script.dispatcher) ⟨[], []⟩ sumOfCommands).closed = [3, 6] ∧
    (∃ f ∈ (of (some Script.dispatcher) ⟨[], []⟩ sumOfCommands).tree.fragments,
      f.flags.evaluated = true) ∧
    ∀ f ∈ (of (some Script.dispatcher) ⟨[], []⟩ sumOfCommands).tree.fragments,
      f.flags.evaluated = true → ∀ c ∈ f.subtrees, c.isCommand = true →
        (dispatched (of (some Script.dispatcher) ⟨[], []⟩ sumOfCommands).outputs).count
          c.label.serial = if c.kids.any Node.isCodeBlock then 0 else 1 :=
  ⟨by decide +kernel, by decide +kernel, (commands_once _ _ sumOfCommands).2.2.2.2⟩

end Run

end TokenShell
