import TokenShell.Proofs.Cascade
import TokenShell.Proofs.Evaluation
import TokenShell.Proofs.Seating

/-! Analysis settles a reordered tree, and evaluation keeps it settled. Neither meets a guard. -/
namespace TokenShell

/-- Work on at least one scope that fails for what the scopes declare, and hands back as many. -/
def Analyzes {α : Type} (work : Analysis α) (post : α → Prop) : Prop :=
  ∀ depth, Upholds [.scope] (fun ss : Scopes => ss.length = depth + 1) work post

namespace Analyzes

variable {α β : Type} {x : Analysis α} {f : α → Analysis β} {P P' : α → Prop} {Q : β → Prop}

theorem pure {a : α} (h : P a) : Analyzes (pure a) P := fun _ => .pure h

theorem imp (h : Analyzes x P) (hp : ∀ a, P a → P' a) : Analyzes x P' :=
  fun depth => (h depth).imp hp

theorem bind (hx : Analyzes x P) (hf : ∀ a, P a → Analyzes (f a) Q) : Analyzes (x >>= f) Q :=
  fun depth => (hx depth).bind fun a ha => hf a ha depth

theorem inside (scope : Scope) (hx : Analyzes x P) :
    Analyzes (Analysis.inside scope x) fun p => P p.1 := by
  intro depth ss hss
  obtain ⟨hlen, hm⟩ := hx (depth + 1) (scope :: ss) (by simp [hss])
  unfold Analysis.inside
  rcases hr : x (scope :: ss) with ⟨e | a, us⟩
  · rw [hr] at hlen hm
    exact ⟨by simp [hlen], hm⟩
  · rw [hr] at hlen hm
    cases us with
    | nil => simp at hlen
    | cons u us => exact ⟨by simpa using hlen, hm⟩

theorem resolve (v : Node) : Analyzes v.resolve fun u => ∃ k, u = v.bindTo k := by
  intro depth ss hss
  rw [Node.resolve_run]
  split
  · next k hk => exact ⟨hss, k, rfl⟩
  · exact ⟨hss, by simp [Meets, Node.fail, Label.fail, Cause.stage]⟩

theorem declare (v : Node) : Analyzes (Analysis.declare v) fun _ => True := by
  intro depth ss hss
  cases ss with
  | nil => simp at hss
  | cons s outer =>
    simp only [Analysis.declare]
    split
    · exact ⟨by simpa using hss, trivial⟩
    · exact ⟨hss, by simp [Meets, Node.fail, Label.fail, Cause.stage]⟩

theorem introduce {v : Node} (renew : Bool) (b : Option Nat) (hv : v.isVariable = true) :
    Analyzes (v.introduce renew b) fun u => ∃ k, u = v.bindTo k := by
  intro depth ss hss
  rw [Node.introduce_run, hv]
  split
  · next h => cases h
  · split
    · split
      · next k hk => exact ⟨hss, k, rfl⟩
      · exact ⟨hss, by simp [Meets, Node.fail, Label.fail, Cause.stage]⟩
    · obtain ⟨hlen, hm⟩ := declare v depth ss hss
      split
      · next k us hd =>
        rw [hd] at hlen
        exact ⟨hlen, k, rfl⟩
      · next e us hd =>
        rw [hd] at hlen hm
        exact ⟨hlen, hm⟩

end Analyzes

namespace Label

variable {l m : Label} {ks js : List Label}

theorem Done.like (h : l.Done ks) (hl : l.Like m) (hk : List.Forall₂ Like ks js)
    (hf : ∃ b, m.flags = ⟨true, true, true, true, b⟩) (hb : m.Linked js) : m.Done js := by
  obtain ⟨⟨b, ho⟩, -⟩ := h
  obtain ⟨b', hf⟩ := hf
  have hm := ho.like hl hk
  exact ⟨⟨b', hf, hm.shaped, hm.seated⟩, hb⟩

end Label

namespace Node

variable {n m v : Node} {l : Label} {ks js : List Node} {renew : Bool}

/-- What is analyzed already stays as it is. -/
theorem Settled.analyze (h : n.Settled) (renew : Bool) : n.analyze renew = pure n := by
  obtain ⟨l, ks⟩ := n
  have ha : l.flags.analyzed = true := h.analyzed
  rw [Node.analyze, if_pos ha]

theorem like_bindTo (v : Node) (k : Nat) : v.label.Like (v.bindTo k).label := by
  obtain ⟨l, ks⟩ := v
  unfold bindTo
  split
  · next d b hf =>
    rw [form_mk] at hf
    exact ⟨rfl, rfl, by simp [Form.shape, hf], rfl⟩
  · exact .refl _

theorem Settled.bindTo (h : v.Settled) (k : Nat) : (v.bindTo k).Settled := by
  have hlike := like_bindTo v k
  obtain ⟨l, ks⟩ := v
  obtain ⟨hl, hk⟩ := settled_mk.mp h
  unfold Node.bindTo at hlike ⊢
  split at hlike
  · next d b hf =>
    rw [form_mk] at hf
    obtain ⟨⟨b', ho⟩, -⟩ := id hl
    refine settled_mk.mpr ⟨hl.like hlike (List.forall₂_same.mpr fun j _ => .refl j)
      ⟨b', ho.flags⟩ ?_, hk⟩
    cases d
    · exact rfl
    · trivial
  · exact h

theorem form_bindTo_declared (h : v.label.part = .declared) (k : Nat) :
    ∃ d, (v.bindTo k).label.form = .variable d (some k) := by
  obtain ⟨l, ks⟩ := v
  rw [label_mk, Label.part] at h
  unfold bindTo
  split
  · next d b hf => exact ⟨d, rfl⟩
  · next hf =>
    rw [form_mk] at hf
    cases hl : l.form with
    | «variable» d b => exact (hf d b hl).elim
    | _ => simp [hl, Form.part] at h

theorem isVariable_of_declared (h : v.label.part = .declared) : v.isVariable = true := by
  obtain ⟨l, ks⟩ := v
  rw [label_mk, Label.part] at h
  rw [isVariable, form_mk]
  cases hl : l.form with
  | «variable» d b => rfl
  | _ => simp [hl, Form.part] at h

/-- A child before and after analysis. -/
def Analyzed (k j : Node) : Prop := j.Settled ∧ k.label.Like j.label

theorem labels_of_analyzed (h : List.Forall₂ Analyzed ks js) :
    List.Forall₂ Label.Like (ks.map label) (js.map label) :=
  labels_like (h.imp fun _ _ hj => hj.2)

theorem analyzeAll_analyzes (h : ∀ k ∈ ks, ∀ renew, Analyzes (k.analyze renew) (Analyzed k))
    (renew : Bool) : Analyzes (analyzeAll renew ks) (List.Forall₂ Analyzed ks) := by
  induction ks with
  | nil => exact .pure .nil
  | cons k ks ih =>
    rw [analyzeAll]
    apply (h k (by simp) renew).bind
    intro j hj
    apply (ih fun i hi => h i (by simp [hi])).bind
    intro js hjs
    exact .pure (.cons hj hjs)

/-- A reordered label over analyzed children is analyzed once its variables are bound. -/
theorem settled_markAnalyzed {l' : Label} (hl : l.Ordered .reordered₀ (ks.map label))
    (hlike : l.Like l') (hf : l'.flags = .reordered₀) (hk : List.Forall₂ Analyzed ks js)
    (hb : l'.Linked (js.map label)) : Analyzed (.mk l ks) (mk l' js).markAnalyzed := by
  have hmark : l.Like { l' with flags := { l'.flags with analyzed := true } } :=
    ⟨hlike.token, hlike.serial, hlike.shape, hlike.complete⟩
  have hord := hl.like hmark (labels_of_analyzed hk)
  refine ⟨settled_mk.mpr ⟨⟨⟨false, ?_, hord.shaped, hord.seated⟩, hb⟩, ?_⟩, hmark⟩
  · rw [label_mk, hf]
    rfl
  · exact forall_of_forall₂ hk fun _ _ _ hj => hj.1

theorem linked_of_form {ls : List Label} (hv : ∀ b, l.form ≠ .variable false b)
    (hi : l.form ≠ .initializer) : l.Linked ls := by
  unfold Label.Linked
  split
  · next b hf => exact (hv b hf).elim
  · next hf => exact (hi hf).elim
  · trivial

theorem declared_of_shaped {k : Label} {ls : List Label} (hf : l.form = .initializer)
    (h : l.form.Shaped ((k :: ls).map Label.part)) : k.part = .declared := by
  rw [hf] at h
  obtain ⟨rest, hparts, -⟩ := h
  rw [List.map_cons] at hparts
  exact (List.cons.inj hparts).1

/-- The rule of each form, for a node whose children are analyzed. -/
theorem analyzeHead_analyzes (hl : l.Ordered .reordered₀ (ks.map label))
    (hk : List.Forall₂ Analyzed ks js) (renew : Bool) :
    Analyzes ((mk l js).analyzeHead renew) fun m => Analyzed (.mk l ks) m.markAnalyzed := by
  rcases analyzeHead_cases renew (mk l js) with ⟨b, hf, he⟩ | ⟨_, v, is, hn, hf, he⟩ |
    ⟨_, hn, hf, he⟩ | ⟨hv, hi, he⟩
  · rw [he]
    refine (Analyzes.resolve _).imp ?_
    rintro u ⟨k, rfl⟩
    rw [form_mk] at hf
    have hbind : (mk l js).bindTo k = mk { l with form := .variable false (some k) } js := by
      simp [bindTo, hf]
    rw [hbind]
    exact settled_markAnalyzed hl ⟨rfl, rfl, by simp [Form.shape, hf], rfl⟩ hl.flags hk rfl
  · cases hn
    rw [he]
    obtain ⟨k, rest, hkv, hrest, rfl⟩ := List.forall₂_cons_right_iff.mp hk
    have hdecl : v.label.part = .declared := by
      rw [hkv.2.part]
      exact declared_of_shaped hf hl.shaped
    apply (Analyzes.introduce renew l.block (isVariable_of_declared hdecl)).bind
    rintro u ⟨i, rfl⟩
    obtain ⟨d, hform⟩ := form_bindTo_declared hdecl i
    refine .pure (settled_markAnalyzed hl (.refl l) hl.flags
      (.cons ⟨hkv.1.bindTo i, hkv.2.trans (like_bindTo v i)⟩ hrest) ?_)
    rw [Label.Linked, hf]
    intro u hu
    obtain rfl : (v.bindTo i).label = u := by simpa using hu
    exact ⟨d, i, hform⟩
  · cases hn
    obtain rfl := List.forall₂_nil_right_iff.mp hk
    have hs := hl.shaped
    rw [hf] at hs
    obtain ⟨rest, hnil, -⟩ := hs
    cases hnil
  · rw [he]
    rw [form_mk] at hi
    exact .pure (settled_markAnalyzed hl (.refl l) hl.flags hk (linked_of_form hv hi))

/-- Analysis settles a reordered tree, or fails for what its scopes declare. -/
theorem Upper.analyze (h : n.Upper (Label.Ordered .reordered₀)) (renew : Bool) :
    Analyzes (n.analyze renew) (Analyzed n) := by
  induction n using induct generalizing renew with
  | h l ks ih =>
    obtain ⟨hl, hk⟩ := upper_mk.mp h
    have hkids : ∀ k ∈ ks, ∀ b, Analyzes (k.analyze b) (Analyzed k) := by
      intro k hm b
      rcases hk k hm with hu | ⟨-, hs⟩
      · exact ih k hm hu b
      · rw [hs.analyze]
        exact .pure ⟨hs, .refl _⟩
    have hall := analyzeAll_analyzes hkids
    rcases analyze_cases renew l ks with ⟨ha, -⟩ | ⟨-, hr, -⟩ | ⟨-, kind, scope, hf, he⟩ |
      ⟨-, renews, hf, he⟩ | ⟨-, hb, hd, he⟩
    · rw [hl.flags] at ha
      cases ha
    · rw [hl.flags] at hr
      cases hr
    · rw [he]
      apply ((hall false).inside scope).bind
      rintro ⟨js, scope'⟩ hjs
      exact .pure
        (settled_markAnalyzed hl ⟨rfl, rfl, by simp [Form.shape, hf], rfl⟩ hl.flags hjs trivial)
    · rw [he]
      apply (hall renews).bind
      intro js hjs
      refine .pure (settled_markAnalyzed hl (.refl l) hl.flags hjs ?_)
      exact linked_of_form (by simp [hf]) (by simp [hf])
    · rw [he]
      apply (hall false).bind
      intro js hjs
      apply (analyzeHead_analyzes hl hjs renew).bind
      intro m hm
      exact .pure hm

/-- A tree that is set up gets through all phases settled, or fails for its own sake. -/
theorem Upper.prepare (h : n.Upper Label.Planted) (within : Option Nat) :
    Meets [.shape, .precedence] (n.prepare within) (Upper (Label.Ordered .reordered₀)) := by
  rw [Node.prepare, h.setUp]
  apply (h.complete false).mono (by simp) (fun _ hm => hm) |>.bind
  intro m hm
  exact hm.reorder

theorem Upper.cascade (h : n.Upper Label.Planted) (within : Option Nat) (depth : Nat) :
    Upholds [.shape, .precedence, .scope] (fun ss : Scopes => ss.length = depth + 1)
      (n.cascade within) Settled := by
  intro ss hss
  have hprep := h.prepare within
  rw [cascade_run]
  split
  · next m hm =>
    rw [hm] at hprep
    obtain ⟨hlen, hmeets⟩ := Upper.analyze hprep false depth ss hss
    exact ⟨hlen, hmeets.mono (by simp) fun _ hq => hq.1⟩
  · next f hf =>
    rw [hf] at hprep
    refine ⟨hss, ?_⟩
    have hstage : f.cause.stage ∈ [Cause.Stage.shape, .precedence] := hprep
    simp only [List.mem_cons, List.not_mem_nil, or_false] at hstage
    rcases hstage with hs | hs <;> simp [Meets, hs]

end Node

/-! Evaluation changes no more than the outline leaves open. -/

namespace Label

variable {l m : Label} {ks js : List Label}

theorem like_of_outline (h : m.outline = l.outline) : l.Like m := by
  have hform : m.form.outline = l.form.outline := congrArg Label.form h
  have hflags : m.outline.flags.complete = l.outline.flags.complete := by rw [h]
  have htoken : m.outline.token = l.outline.token := by rw [h]
  have hserial : m.outline.serial = l.outline.serial := by rw [h]
  refine ⟨htoken, hserial, ?_, hflags⟩
  have hs : ∀ f : Form, f.outline.shape = f.shape := by
    intro f
    cases f <;> rfl
  rw [← hs, hform, hs]

theorem variable_of_outline (h : m.outline = l.outline) {d : Bool} {b : Option Nat}
    (hf : l.form = .variable d b) : m.form = .variable d b := by
  have hform : m.form.outline = l.form.outline := congrArg Label.form h
  rw [hf] at hform
  cases hm : m.form <;> simp_all [Form.outline]

theorem linked_of_outline (hl : m.outline = l.outline) (hk : js.map outline = ks.map outline)
    (h : l.Linked ks) : m.Linked js := by
  unfold Linked at h ⊢
  split
  · next b hf => simpa [variable_of_outline hl.symm hf] using h
  · next hf =>
    have hf' : l.form = .initializer := by
      have hform : m.form.outline = l.form.outline := congrArg Label.form hl
      rw [hf] at hform
      cases hm : l.form <;> simp_all [Form.outline]
    rw [hf'] at h
    intro v hv
    cases js with
    | nil => cases hv
    | cons j js =>
      obtain rfl : j = v := by simpa using hv
      obtain ⟨k, ks', rfl, hkj, -⟩ := List.map_eq_cons_iff.mp hk.symm
      obtain ⟨d, i, hvar⟩ := h k rfl
      exact ⟨d, i, variable_of_outline hkj.symm hvar⟩
  · trivial

theorem forall₂_of_outline (h : js.map outline = ks.map outline) : List.Forall₂ Like ks js := by
  induction ks generalizing js with
  | nil =>
    obtain rfl : js = [] := by simpa using h
    exact .nil
  | cons k ks ih =>
    obtain ⟨j, js', rfl, hj, hjs⟩ := List.map_eq_cons_iff.mp h
    exact .cons (like_of_outline hj) (ih hjs)

theorem Done.of_outline (h : l.Done ks) (hl : m.outline = l.outline)
    (hk : js.map outline = ks.map outline) : m.Done js := by
  have hflags : { m.flags with evaluated := false } = { l.flags with evaluated := false } :=
    congrArg Label.flags hl
  obtain ⟨⟨b, ho⟩, hb⟩ := id h
  refine h.like (like_of_outline hl) (forall₂_of_outline hk) ⟨m.flags.evaluated, ?_⟩
    (linked_of_outline hl hk hb)
  rw [ho.flags] at hflags
  rcases hm : m.flags with ⟨s, c, r, a, e⟩
  rw [hm] at hflags
  cases hflags
  rfl

end Label

namespace Node

variable {n m : Node} {l : Label} {ks js : List Node}

theorem label_outline (n : Node) : n.outline.label = n.label.outline := by
  obtain ⟨l, ks⟩ := n
  rw [outline_mk]
  rfl

theorem labels_outline (h : js.map outline = ks.map outline) :
    (js.map label).map Label.outline = (ks.map label).map Label.outline := by
  have hlabels : ∀ is : List Node,
      (is.map label).map Label.outline = (is.map outline).map label := by
    intro is
    rw [List.map_map, List.map_map]
    exact List.map_congr_left fun k _ => (label_outline k).symm
  rw [hlabels, hlabels, h]

/-- Whether a tree is settled can be told from its outline. -/
theorem Settled.of_outline (h : n.Settled) (ho : m.outline = n.outline) : m.Settled := by
  induction n using induct generalizing m with
  | h l ks ih =>
    obtain ⟨hl, hk⟩ := settled_mk.mp h
    obtain ⟨l', js⟩ := m
    rw [outline_mk, outline_mk] at ho
    obtain ⟨hlabel, hkids⟩ := Node.mk.inj ho
    refine settled_mk.mpr ⟨hl.of_outline hlabel (labels_outline hkids), ?_⟩
    intro j hj
    obtain ⟨k, hkm, hkj⟩ := List.mem_map.mp (hkids ▸ List.mem_map_of_mem (f := outline) hj)
    exact ih k hkm (hk k hkm) hkj.symm

end Node

/-! Failures of evaluation. -/

/-- Work that fails by its values only. -/
def Computes {σ α : Type} (work : Evaluation σ α) : Prop :=
  Upholds [.evaluation] (fun _ => True) work fun _ => True

namespace Computes

variable {σ α β : Type} {x : Evaluation σ α} {f : α → Evaluation σ β}

theorem pure (a : α) : Computes (pure a : Evaluation σ α) := Upholds.pure trivial

theorem fail {l : Label} {c : Cause} (h : c.stage = .evaluation) :
    Computes (Evaluation.fail l c : Evaluation σ α) := by
  intro m _
  exact ⟨trivial, by simp [Evaluation.fail, Meets, Label.fail, h]⟩

theorem throw {e : Failure} (h : e.cause.stage = .evaluation) :
    Computes (throw e : Evaluation σ α) := by
  intro m _
  refine ⟨trivial, ?_⟩
  show e.cause.stage ∈ _
  simp [h]

/-- Work that always gives a result. -/
theorem of_ok (h : ∀ m, ∃ a, (x m).1 = .ok a) : Computes x := by
  intro m _
  obtain ⟨a, ha⟩ := h m
  rw [ha]
  exact ⟨trivial, trivial⟩

/-- What follows may rely on how the first result came about. -/
theorem bind (hx : Computes x) (hf : ∀ m a m', x m = (.ok a, m') → Computes (f a)) :
    Computes (x >>= f) := by
  intro m _
  obtain ⟨-, hm⟩ := hx m trivial
  rw [run_bind]
  rcases hr : x m with ⟨e | a, m'⟩
  · rw [hr] at hm
    exact ⟨trivial, hm⟩
  · exact hf m a m' hr m' trivial

theorem write (k : Nat) (name : Bytes) (v : Value) :
    Computes (Evaluation.write k name v : Evaluation σ Bool) := by
  apply of_ok
  intro m
  unfold Evaluation.write
  split
  · split
    · exact ⟨_, rfl⟩
    · exact ⟨_, rfl⟩
  · exact ⟨_, rfl⟩

theorem inside (scope : Scope) (hx : Computes x) : Computes (Evaluation.inside scope x) := by
  intro m _
  obtain ⟨-, hm⟩ := hx { m with scopes := scope :: m.scopes } trivial
  unfold Evaluation.inside
  rcases hr : x { m with scopes := scope :: m.scopes } with ⟨e | a, m'⟩
  · rw [hr] at hm
    exact ⟨trivial, hm⟩
  · dsimp only
    split
    · exact ⟨trivial, trivial⟩
    · exact ⟨trivial, trivial⟩

end Computes

namespace Label

variable {σ : Type} {l : Label} {ks : List Node}

theorem computes_withResult (l : Label) (v : Value) :
    Computes (pure (l.withResult v) : Evaluation σ Label) := .pure _

theorem computes_evaluateFirst (h : ks ≠ []) :
    Computes (l.evaluateFirst ks : Evaluation σ Label) := by
  obtain ⟨k, rest, rfl⟩ := List.exists_cons_of_ne_nil h
  exact l.computes_withResult _

theorem length_operands (h : l.slots = ks.map (·.label.serial)) :
    (l.operands ks).length = ks.length := by
  rw [operands, h, List.filterMap_length_eq_length.mpr, List.length_map]
  intro i hi
  obtain ⟨k, hk, rfl⟩ := List.mem_map.mp hi
  exact List.find?_isSome.mpr ⟨k, hk, by simp⟩

/-- An operator in its place finds its operands. -/
theorem computes_evaluateOperator (ho : l.isOperator = true) (hl : l.Done (ks.map Node.label)) :
    Computes (l.evaluateOperator ks : Evaluation σ Label) := by
  obtain ⟨⟨b, hord⟩, -⟩ := hl
  obtain ⟨s, a, hf⟩ := (hord.seated ho).bound
  have hs := hord.shaped
  rw [hf] at hs
  obtain ⟨hu, hlen⟩ := hs
  rw [List.length_map, List.length_map] at hlen
  have hslots : l.slots = ks.map (·.label.serial) := by
    rw [slots, hf, List.map_map]
    rfl
  rw [← length_operands hslots] at hlen
  unfold evaluateOperator
  rw [hf]
  cases a with
  | unresolved => exact (hu rfl).elim
  | nullary => exact l.computes_withResult _
  | unary =>
    obtain ⟨x, hx⟩ := List.length_eq_one_iff.mp hlen
    simp only [hx]
    split
    · exact l.computes_withResult _
    · exact .fail rfl
  | binary =>
    obtain ⟨x, y, hxy⟩ := List.length_eq_two.mp hlen
    simp only [hxy]
    split
    · exact l.computes_withResult _
    · exact .fail rfl

/-- A reference has been bound. -/
theorem computes_evaluateVariable {ls : List Label} (hl : l.Linked ls) :
    Computes (l.evaluateVariable : Evaluation σ Label) := by
  unfold evaluateVariable
  split
  · apply Computes.bind (.of_ok fun m => ⟨_, rfl⟩)
    intro m v m' _
    cases v with
    | some v => exact l.computes_withResult v
    | none => exact .fail rfl
  · next hf =>
    rw [Linked, hf] at hl
    cases hl
  · exact .pure _

/-- The variable of an initializer has been bound. -/
theorem computes_evaluateInitializer (hf : l.form = .initializer)
    (hl : l.Done (ks.map Node.label)) :
    Computes (l.evaluateInitializer ks : Evaluation σ Label) := by
  obtain ⟨⟨b, hord⟩, hlink⟩ := hl
  have hs := hord.shaped
  rw [hf] at hs
  obtain ⟨ps, hps, -⟩ := hs
  cases ks with
  | nil => cases hps
  | cons v rest =>
    rw [Linked, hf] at hlink
    obtain ⟨d, k, hv⟩ := hlink v.label rfl
    have hform : v.form = .variable d (some k) := hv
    unfold evaluateInitializer
    simp only [hform]
    apply (Computes.write k _ _).bind
    intro m ok m' _
    cases ok with
    | true => exact l.computes_withResult _
    | false => exact .fail rfl

end Label

namespace Node

variable {σ : Type} {d : Option (Dispatcher σ)} {n : Node} {l : Label} {ks : List Node}

/-- The parts of a command that holds no code block have a text. -/
theorem partText_ok (h : n.Settled) (hp : n.label.part = .fragment ∨ n.label.part = .block)
    (hc : n.isCodeBlock = false) : ∃ text, n.partText = .ok text := by
  obtain ⟨l, ks⟩ := n
  obtain ⟨⟨⟨b, hord⟩, -⟩, -⟩ := settled_mk.mp h
  rw [label_mk] at hp
  unfold partText
  rw [form_mk]
  cases hf : l.form with
  | fragment => exact ⟨_, rfl⟩
  | block kind scope =>
    have hs : kind = BlockKind.ofParts ((ks.map label).map Label.part) := by
      have hs := hord.shaped
      rw [hf] at hs
      exact hs
    rw [BlockKind.ofParts] at hs
    split at hs
    · next hparts =>
      subst hs
      rw [List.map_map] at hparts
      obtain ⟨e, rfl, -⟩ := List.map_eq_singleton_iff.mp hparts
      exact ⟨e.result.text, by simp [blockText, hf]⟩
    · subst hs
      simp [isCodeBlock, hf] at hc
  | «variable» d b => cases d <;> simp [Label.part, hf, Form.part] at hp
  | _ => simp [Label.part, hf, Form.part] at hp

theorem commandText_ok (h : ∀ k ∈ ks, ∃ text, k.partText = .ok text) :
    ∃ text, commandText ks = .ok text := by
  obtain ⟨texts, hts, -⟩ := exists_mapM_ok fun k hk => (h k hk).imp fun _ ht => ⟨ht, trivial⟩
  exact ⟨texts.flatten, by rw [commandText, hts]; rfl⟩

theorem computes_evaluateCommand {skipped : Bool} (hf : l.form = .command skipped)
    (hl : l.Done (ks.map label)) (hk : ∀ k ∈ ks, k.Settled) :
    Computes (l.evaluateCommand d ks) := by
  obtain ⟨⟨b, hord⟩, -⟩ := hl
  have hs := hord.shaped
  rw [hf] at hs
  obtain ⟨-, hparts⟩ := hs
  unfold Label.evaluateCommand
  split
  · exact Computes.bind (.of_ok fun m => ⟨_, rfl⟩) fun _ _ _ _ => .pure _
  · next hany =>
    obtain ⟨text, ht⟩ : ∃ text, commandText ks = .ok text := by
      apply commandText_ok
      intro k hm
      refine partText_ok (hk k hm) ?_ ?_
      · exact hparts k.label.part
          (List.mem_map_of_mem (List.mem_map_of_mem hm))
      · have hno : ∀ k ∈ ks, ¬ k.isCodeBlock = true := by simpa using hany
        simpa using hno k hm
    apply Computes.bind (.of_ok fun m => ⟨text, by rw [run_lift, ht]⟩)
    intro _ command _ _
    cases d with
    | none => exact .fail rfl
    | some d =>
      apply Computes.bind (.of_ok fun m => ⟨_, rfl⟩)
      intro _ _ _ _
      apply Computes.bind (.of_ok fun m => ⟨_, rfl⟩)
      intro _ reply _ _
      cases reply with
      | error f => exact .throw rfl
      | ok line =>
        dsimp only
        split
        · exact .throw rfl
        · exact Computes.bind (.of_ok fun m => ⟨_, rfl⟩) fun _ _ _ _ => .pure _

/-- The rule of each form, for a settled node whose children are evaluated. -/
theorem computes_label (hl : l.Done (ks.map label)) (hk : ∀ k ∈ ks, k.Settled) :
    Computes (l.evaluate d ks) := by
  obtain ⟨⟨b, hord⟩, hlink⟩ := id hl
  have hs := hord.shaped
  unfold Label.evaluate
  split
  · exact l.computes_withResult _
  · exact Label.computes_evaluateVariable hlink
  · next hf => exact Label.computes_evaluateOperator (Label.isOperator_iff.mpr ⟨_, _, _, hf⟩) hl
  · next hf =>
    rw [hf] at hs
    apply Label.computes_evaluateFirst
    rintro rfl
    simp [Form.Shaped] at hs
  · next hf =>
    rw [hf] at hs
    apply Label.computes_evaluateFirst
    rintro rfl
    simp [Form.Shaped, BlockKind.ofParts] at hs
  · exact l.computes_withResult _
  · exact l.computes_withResult _
  · next hf => exact computes_evaluateCommand hf hl hk
  · next hf =>
    rw [hf] at hs
    split
    · exact l.computes_withResult _
    · next hnil =>
      obtain rfl : ks = [] := by simpa using hnil
      exact (hs.1 rfl).elim
  · next hf => exact Label.computes_evaluateInitializer hf hl

theorem computes_evaluateAll (h : ∀ k ∈ ks, Computes (k.evaluate d)) :
    Computes (evaluateAll d ks) := by
  induction ks with
  | nil => exact .pure _
  | cons k ks ih =>
    rw [evaluateAll]
    apply (h k (by simp)).bind
    intro _ j _ _
    apply (ih fun i hi => h i (by simp [hi])).bind
    intro _ js _ _
    exact .pure _

theorem outline_evaluateAll {m m' : Machine σ} {js : List Node}
    (h : evaluateAll d ks m = (.ok js, m')) : js.map outline = ks.map outline := by
  obtain ⟨-, out, -, -, -, hall⟩ := dispatches_all d ks m
  exact (hall js (by rw [h])).2

theorem outline_evaluateAll_inside {m m' : Machine σ} {js : List Node} {scope scope' : Scope}
    (h : Evaluation.inside scope (evaluateAll d ks) m = (.ok (js, scope'), m')) :
    js.map outline = ks.map outline ∧ scope'.outline = scope.outline := by
  obtain ⟨-, out, -, -, -, hall⟩ := (dispatches_all d ks).inside scope m
  exact (hall (js, scope') (by rw [h])).2

theorem outline_evaluate {m m' : Machine σ} {j : Node} (h : n.evaluate d m = (.ok j, m')) :
    j.outline = n.outline := by
  obtain ⟨-, out, -, -, -, hall⟩ := dispatches_evaluate d n m
  exact (hall j (by rw [h])).2.1

/-- Evaluation of a settled tree fails by its values only: no operand, expression, variable or
binding is missing. -/
theorem Settled.computes (h : n.Settled) (d : Option (Dispatcher σ)) : Computes (n.evaluate d) := by
  induction n using induct with
  | h l ks ih =>
    obtain ⟨hl, hk⟩ := settled_mk.mp h
    have hall := computes_evaluateAll (d := d) fun k hm => ih k hm (hk k hm)
    have hsettled : ∀ js : List Node, js.map outline = ks.map outline → ∀ j ∈ js, j.Settled := by
      intro js hjs j hj
      obtain ⟨k, hm, hkj⟩ := List.mem_map.mp (hjs ▸ List.mem_map_of_mem (f := outline) hj)
      exact (hk k hm).of_outline hkj.symm
    rcases evaluate_cases d l ks with ⟨-, he⟩ | ⟨-, ha, he⟩ | ⟨-, kind, scope, hf, he⟩ | ⟨-, -, he⟩
    · rw [he]
      exact .pure _
    · obtain ⟨⟨b, ho⟩, -⟩ := hl
      rw [ho.flags] at ha
      cases ha
    · rw [he]
      apply (hall.inside scope).bind
      rintro m ⟨js, scope'⟩ m' hjs
      obtain ⟨ho, hs⟩ := outline_evaluateAll_inside hjs
      have hdone : { l with form := .block kind scope' : Label }.Done (js.map label) := by
        refine hl.of_outline ?_ (labels_outline ho)
        simp [Label.outline, hf, Form.outline, hs]
      exact (computes_label hdone (hsettled js ho)).bind fun _ _ _ _ => .pure _
    · rw [he]
      apply hall.bind
      intro m js m' hjs
      have ho := outline_evaluateAll hjs
      have hdone := hl.of_outline rfl (labels_outline ho)
      exact (computes_label hdone (hsettled js ho)).bind fun _ _ _ _ => .pure _

end Node

end TokenShell
