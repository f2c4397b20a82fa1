import TokenShell.Proofs.Integers
import TokenShell.Proofs.Permanence
import TokenShell.Proofs.Rules

/-! How a command is put together of its evaluated parts, how it is handed over, and what becomes of
the answer. -/
namespace TokenShell

variable {σ : Type} {d : Option (Dispatcher σ)} {m m₁ m₂ : Machine σ} {x : Visit σ}

/-! What comes out of the rules that an evaluation comes to, in the evaluated tree. -/

namespace Node

variable {n n' k j e : Node} {l : Label} {ks js : List Node}

theorem evaluateAll_mid {before after is : List Node}
    (h : evaluateAll d (before ++ k :: after) m = (.ok js, m₂))
    (hb : evaluateAll d before m = (.ok is, m₁)) :
    ∃ j m', k.evaluate d m₁ = (.ok j, m') ∧ j ∈ js := by
  induction before generalizing m js is with
  | nil =>
    cases hb
    obtain ⟨j, js, m', hj, -, rfl⟩ := evaluateAll_cons_ok.mp h
    exact ⟨j, m', hj, List.mem_cons_self⟩
  | cons n before ih =>
    obtain ⟨i, is, m', hi, his, rfl⟩ := evaluateAll_cons_ok.mp hb
    obtain ⟨i', js, m'', hi', hjs, rfl⟩ := evaluateAll_cons_ok.mp h
    rw [hi] at hi'
    cases hi'
    obtain ⟨j, m₃, hj, hmem⟩ := ih hjs his
    exact ⟨j, m₃, hj, List.mem_cons_of_mem _ hmem⟩

/-- If the evaluation comes to its end, then what came out of a rule stands in the evaluated tree.
-/
theorem result_of_visits (h : x ∈ n.visits d m) (hn : n.evaluate d m = (.ok n', m₂)) :
    ∃ l, (x.outcome d).1 = .ok l ∧ mk l.markEvaluated x.kids ∈ n'.subtrees := by
  induction n using induct generalizing m n' m₂ with
  | h l ks ih =>
    obtain ⟨⟨he, ha⟩, hcase⟩ := mem_visits h
    cases hb : l.isBlock with
    | true =>
      obtain ⟨kind, scope, hf⟩ := Label.isBlock_iff.mp hb
      rw [evaluate_block he ha hf] at hn
      obtain ⟨⟨js, scope'⟩, m', hin, hn⟩ := run_bind_ok.mp hn
      obtain ⟨l', m'', -, hn⟩ := run_bind_ok.mp hn
      cases hn
      obtain ⟨m₃, hjs, -⟩ := Evaluation.inside_ok hin
      rcases hcase with ⟨hb', -⟩ | ⟨before, k, after, is, m₁, rfl, hbefore, hx⟩
      · rw [hb] at hb'
        cases hb'
      · rw [scope?, form_mk, hf] at hbefore
        obtain ⟨j, m₄, hj, hmem⟩ := evaluateAll_mid hjs hbefore
        obtain ⟨r, hr, hsub⟩ := ih k (by simp) hx hj
        exact ⟨r, hr, mem_subtrees_mk.mpr (Or.inr ⟨j, hmem, hsub⟩)⟩
    | false =>
      rw [evaluate_other he ha hb] at hn
      obtain ⟨js, m', hjs, hn⟩ := run_bind_ok.mp hn
      obtain ⟨l', m'', hrule, hn⟩ := run_bind_ok.mp hn
      cases hn
      rcases hcase with ⟨-, rfl, hks⟩ | ⟨before, k, after, is, m₁, rfl, hbefore, hx⟩
      · rw [hks] at hjs
        cases hjs
        exact ⟨l', congrArg Prod.fst hrule, mem_subtrees_mk.mpr (Or.inl rfl)⟩
      · rw [scope?_of_not_block hb] at hbefore
        obtain ⟨j, m₄, hj, hmem⟩ := evaluateAll_mid hjs hbefore
        obtain ⟨r, hr, hsub⟩ := ih k (by simp) hx hj
        exact ⟨r, hr, mem_subtrees_mk.mpr (Or.inr ⟨j, hmem, hsub⟩)⟩

theorem Fresh.subtree (h : n.Fresh) (hk : k ∈ n.subtrees) : k.Fresh := by
  induction n using induct with
  | h l ks ih =>
    rcases mem_subtrees_mk.mp hk with rfl | ⟨j, hj, hk⟩
    · exact h
    · exact ih j hj ((fresh_mk.mp h).2 j hj) hk

theorem Spent.subtree (h : n.Spent) (hk : k ∈ n.subtrees) : k.Spent := by
  induction n using induct with
  | h l ks ih =>
    rcases mem_subtrees_mk.mp hk with rfl | ⟨j, hj, hk⟩
    · exact h
    · exact ih j hj ((spent_mk.mp h).2 j hj) hk

end Node

/-- A fragment that a pass comes to is evaluated in it or ends it by a failure. -/
theorem Progress.fragment_of_visits {is : List Bool} {ns : List Node} (h : x ∈ visits d is m ns) :
    ∃ (n : Node) (m₁ : Machine σ), x ∈ n.visits d m₁ ∧
      ((∃ f, (Progress.of d is m ns).stop = some (.failed f)) ∨
        ∃ n' m₂, n.evaluate d m₁ = (.ok n', m₂) ∧ n' ∈ (Progress.of d is m ns).fragments) := by
  induction ns generalizing is m with
  | nil => cases h
  | cons n ns ih =>
    by_cases he : n.flags.evaluated = true
    · rw [visits, if_pos he] at h
      rw [of, if_pos he]
      obtain ⟨k, m₁, hx, hend⟩ := ih h
      refine ⟨k, m₁, hx, ?_⟩
      rcases hend with hstop | ⟨k', m₂, hk', hmem⟩
      · exact Or.inl hstop
      · exact Or.inr ⟨k', m₂, hk', List.mem_cons_of_mem n hmem⟩
    have he : n.flags.evaluated = false := by simpa using he
    by_cases hr : n.isReady = true
    · by_cases hi : (m.cancelled || is.headD false) = true
      · rw [(visits_interrupted he hr hi).1] at h
        cases h
      · rcases hn : n.evaluate d m with ⟨f | n', m₁⟩
        · obtain ⟨hvisits, hstop⟩ := visits_failed ns he hr hi hn
          rw [hvisits] at h
          exact ⟨n, m, h, Or.inl ⟨f, hstop⟩⟩
        · obtain ⟨hvisits, hof⟩ := visits_evaluated ns he hr hi hn
          rw [hvisits] at h
          rw [hof]
          rcases List.mem_append.mp h with h | h
          · exact ⟨n, m, h, Or.inr ⟨n', m₁, hn, List.mem_cons_self⟩⟩
          · obtain ⟨k, m₂, hx, hend⟩ := ih h
            refine ⟨k, m₂, hx, ?_⟩
            rcases hend with hstop | ⟨k', m₃, hk', hmem⟩
            · exact Or.inl hstop
            · exact Or.inr ⟨k', m₃, hk', List.mem_cons_of_mem n' hmem⟩
    · rw [(visits_unready is m he (by simpa using hr)).1] at h
      cases h

/-! The parts of a command. -/

namespace Node

variable {n n' k j e : Node} {l : Label} {ks js : List Node}

/-- The node has exactly one child, an expression. -/
def WrapsExpression (n : Node) : Prop := n.kids.map form = [.expression]

instance : DecidablePred WrapsExpression := fun _ => inferInstanceAs (Decidable (_ = _))

/-- What an evaluated part of a command contributes to its text: a fragment its value, a block the
value of its expression, in which all operators are in their places. -/
inductive Contributes : Node → Bytes → Prop where
  | fragment {n : Node} (hf : n.form = .fragment) : Contributes n n.label.token.value
  | block {n e v : Node} (hb : n.isBlock = true) (hn : n.kids = [e]) (he : e.form = .expression)
      (hk : e.kids = [v]) (hv : v.Settled) (hr : e.result = v.result) :
      Contributes n v.result.text

theorem Settled.isCodeBlock_iff (h : n.Settled) (hb : n.isBlock = true) :
    n.isCodeBlock = true ↔ ¬ n.WrapsExpression := by
  obtain ⟨kind, scope, hf⟩ := Label.isBlock_iff.mp hb
  have hkind := h.done.shaped
  rw [hf] at hkind
  have hparts : (n.kids.map label).map Label.part = [.expression] ↔ n.WrapsExpression := by
    simp only [List.map_map, WrapsExpression, List.map_eq_singleton_iff]
    exact exists_congr fun e => and_congr_right fun _ => Form.part_eq_expression
  have hform : n.form = .block kind scope := hf
  have hcode : n.isCodeBlock = true ↔ kind = .code := by
    rw [isCodeBlock, hform]
    cases kind <;> simp
  rw [hcode, ← hparts]
  obtain rfl : kind = BlockKind.ofParts _ := hkind
  unfold BlockKind.ofParts
  split
  · next hp => exact iff_of_false (by simp) (not_not_intro hp)
  · next hp => exact iff_of_true rfl hp

/-- If the node is an expression, it has the value of its first child. -/
def Yields (e : Node) : Prop := e.form = .expression → ∀ v ∈ e.kids.head?, e.result = v.result

theorem yields_of_evaluate (hn : n.flags.evaluated = false) (h : n.evaluate d m = (.ok e, m₂)) :
    e.Yields := by
  intro he
  have hform : e.label.form.outline = n.label.form.outline := by
    have hlabel := congrArg label (outline_evaluate h)
    rw [label_outline, label_outline] at hlabel
    exact congrArg Label.form hlabel
  obtain ⟨l, ks⟩ := n
  have hl : l.form = .expression := by
    rw [show e.label.form = .expression from he] at hform
    cases hf : l.form <;> simp_all [Form.outline]
  rcases evaluate_cases d l ks with ⟨he, -⟩ | ⟨-, -, hr⟩ | ⟨-, kind, scope, hf, -⟩ | ⟨-, -, hr⟩
  · rw [flags_mk] at hn
    rw [hn] at he
    cases he
  · rw [hr] at h
    cases h
  · rw [hl] at hf
    cases hf
  · rw [hr] at h
    obtain ⟨js, m', -, h⟩ := run_bind_ok.mp h
    obtain ⟨l', m'', hrule, h⟩ := run_bind_ok.mp h
    cases h
    intro v hv
    cases js with
    | nil => cases hv
    | cons j js =>
      obtain rfl : j = v := by simpa using hv
      simp only [Label.evaluate, hl, Label.evaluateFirst] at hrule
      cases hrule
      rfl

theorem Fresh.yields_kids (hn : n.Fresh) (h : n.evaluate d m = (.ok n', m₂)) :
    ∀ e ∈ n'.kids, e.Yields := by
  obtain ⟨l, ks⟩ := n
  obtain ⟨hl, hks⟩ := fresh_mk.mp hn
  obtain ⟨js, _, _, _, _, l', hjs, -, -, rfl⟩ := evaluate_ok hl h
  exact forall_evaluateAll (fun k hk _ _ _ hj => yields_of_evaluate (hks k hk).flags hj) hjs

/-- A part of a command has a text unless it is a block that wraps no expression. -/
theorem exists_contributes (hs : j.Settled) (hp : j.label.part = .fragment ∨ j.label.part = .block)
    (hw : j.isBlock = true → j.WrapsExpression) (hy : ∀ e ∈ j.kids, e.Yields) :
    ∃ text, j.partText = .ok text ∧ j.Contributes text := by
  rcases hp with hp | hp
  · have hf : j.form = .fragment := Form.part_eq_fragment.mp hp
    exact ⟨_, by rw [partText, hf], .fragment hf⟩
  · have hb : j.isBlock = true := (isBlock_iff_part j.label).mpr hp
    obtain ⟨e, hkids, he⟩ := List.map_eq_singleton_iff.mp (hw hb)
    obtain ⟨text, ht⟩ := partText_ok hs (Or.inr hp) (by
      rw [← Bool.not_eq_true, hs.isCodeBlock_iff hb]
      exact not_not_intro (hw hb))
    have hes : e.Settled := hs.kids e (by simp [hkids])
    obtain ⟨v, hv⟩ : ∃ v, e.kids = [v] := by
      have hlen := hes.done.shaped
      rw [show e.label.form = .expression from he] at hlen
      exact List.length_eq_one_iff.mp (by simpa [Form.Shaped] using hlen)
    have hresult := hy e (by simp [hkids]) he v (by simp [hv])
    obtain ⟨kind, scope, hf⟩ := Label.isBlock_iff.mp hb
    have hform : j.form = .block kind scope := hf
    have htext : text = v.result.text := by
      rw [partText, hform] at ht
      dsimp only at ht
      rw [blockText, hform, hkids] at ht
      cases kind with
      | expression =>
        cases ht
        rw [hresult]
      | undetermined => cases ht
      | code => cases ht
    rw [htext] at ht
    exact ⟨_, ht, .block hb hkids he hv (hes.kids v (by simp [hv])) hresult⟩

/-- A command of parts that have texts has the text that these make up. -/
theorem commandText_contributes
    (h : ∀ k ∈ ks, ∃ text, k.partText = .ok text ∧ k.Contributes text) :
    ∃ parts, List.Forall₂ Contributes ks parts ∧ commandText ks = .ok parts.flatten := by
  obtain ⟨parts, hm, hparts⟩ := exists_mapM_ok h
  exact ⟨parts, hparts, by rw [commandText, hm]; rfl⟩

end Node

/-! Handing a command over. -/

namespace Machine

/-- The machine after an event has been reported. -/
def report (m : Machine σ) (e : Event) : Machine σ := { m with outputs := m.outputs ++ [.log e] }

/-- The machine after a dispatcher has been given a command, once. -/
def send (m : Machine σ) (e : Dispatcher σ) (command : Bytes) : Machine σ :=
  { m with
    world := (e.send m.cancelled command m.world).2
    cancelled := m.cancelled || (e.send m.cancelled command m.world).1.cancels
    outputs := m.outputs ++ (e.send m.cancelled command m.world).1.outputs }

/-- What the dispatcher answers to a command. -/
def answer (m : Machine σ) (e : Dispatcher σ) (command : Bytes) : Except Fault Bytes :=
  (e.send m.cancelled command m.world).1.answer

end Machine

namespace Visit

/-- The machine after the command has been reported and given to a dispatcher. -/
def sent (x : Visit σ) (e : Dispatcher σ) (command : Bytes) : Machine σ :=
  (x.machine.report (.dispatching x.label.serial command)).send e command

/-- What comes of a command with a text: nothing is done without a dispatcher, and otherwise it is
given to the dispatcher once, whose status line must be an integer. -/
inductive HandsOver (x : Visit σ) (command : Bytes) :
    Option (Dispatcher σ) → Except Failure Label × Machine σ → Prop where
  | undispatched {f : Failure} (hf : f.cause.kind = .runtime) :
      HandsOver x command none (.error f, x.machine)
  | refused {e : Dispatcher σ} {f : Failure} {g : Fault}
      (ha : x.machine.answer e command = .error g) (hf : f.cause.kind = .runtime)
      (hg : f.inner = some g) : HandsOver x command (some e) (.error f, x.sent e command)
  | garbled {e : Dispatcher σ} {f : Failure} {line : Bytes}
      (ha : x.machine.answer e command = .ok line)
      (hn : ∀ n : Int64, ¬ Integer.Spells (Bytes.trim line) n.toInt)
      (hf : f.cause.kind = .protocol) : HandsOver x command (some e) (.error f, x.sent e command)
  | answered {e : Dispatcher σ} {line : Bytes} {n : Int64}
      (ha : x.machine.answer e command = .ok line)
      (hn : Integer.Spells (Bytes.trim line) n.toInt) :
      HandsOver x command (some e) (.ok (x.label.withResult (.int n)),
        (x.sent e command).report (.commandFinished command n))

variable {b : Bool} {command : Bytes}

/-- The rule of a command that holds a code block. -/
theorem outcome_skipped (hl : x.label.form = .command b) (hc : x.kids.any Node.isCodeBlock = true) :
    x.outcome d = (.ok { x.label with form := .command true, result := .nil },
      x.machine.report .commandSkipped) := by
  simp only [outcome, Label.evaluate, hl, Label.evaluateCommand, hc, if_true]
  rfl

/-- The rule of any other command. -/
theorem outcome_handsOver (hl : x.label.form = .command b)
    (hc : x.kids.any Node.isCodeBlock = false) (ht : Node.commandText x.kids = .ok command) :
    x.HandsOver command d (x.outcome d) := by
  have hrule : x.outcome d = x.label.evaluateCommand d x.kids x.machine := by
    rw [outcome, Label.evaluate, hl]
  rw [hrule, Label.evaluateCommand, if_neg (by simp [hc]), ht]
  cases d with
  | none => exact .undispatched rfl
  | some e =>
    have hdispatch : Evaluation.dispatch e command
        (x.machine.report (.dispatching x.label.serial command)) =
          (.ok (x.machine.answer e command), x.sent e command) := rfl
    have hemit : Evaluation.emit (.dispatching x.label.serial command) x.machine =
        (.ok (), x.machine.report (.dispatching x.label.serial command)) := rfl
    rw [run_bind, run_lift]
    dsimp only
    rw [run_bind, hemit]
    dsimp only
    rw [run_bind, hdispatch]
    dsimp only
    cases ha : x.machine.answer e command with
    | error g => exact .refused ha rfl rfl
    | ok line =>
      dsimp only
      cases hi : Integer.read (Bytes.trim line) with
      | error w =>
        refine .garbled ha ?_ rfl
        intro n hn
        rw [Integer.read_ok_iff.mpr hn] at hi
        cases hi
      | ok n => exact .answered ha (Integer.read_ok_iff.mp hi)

end Visit

namespace Node

variable {l : Label} {ks js : List Node} {b : Bool}

/-- The rule of a node that is no block is applied to its evaluated children. -/
theorem evaluate_rule (he : l.flags.evaluated = false) (ha : l.flags.analyzed = true)
    (hb : l.isBlock = false) (hk : evaluateAll d ks m = (.ok js, m₁)) :
    (mk l ks).evaluate d m = ((Visit.outcome ⟨l, js, m₁⟩ d).1.map fun l => mk l.markEvaluated js,
      (Visit.outcome ⟨l, js, m₁⟩ d).2) := by
  rw [evaluate_other he ha hb, run_bind, hk]
  dsimp only
  rw [run_bind, Visit.outcome]
  rcases l.evaluate d js m₁ with ⟨f | l', m₂⟩
  · rfl
  · rfl

theorem Settled.evaluated (h : (Node.mk l ks).Settled)
    (hk : evaluateAll d ks m = (.ok js, m₁)) : (Node.mk l js).Settled := by
  apply h.of_outline
  rw [outline_mk, outline_mk, outline_evaluateAll hk]

theorem Settled.skips (h : (Node.mk l js).Settled) (hf : l.form = .command b)
    (hw : ∃ k ∈ js, k.isBlock = true ∧ ¬ k.WrapsExpression) :
    Visit.outcome ⟨l, js, m⟩ d = (.ok { l with form := .command true, result := .nil },
      m.report .commandSkipped) := by
  obtain ⟨k, hk, hb, hw⟩ := hw
  have hcode := (((settled_mk.mp h).2 k hk).isCodeBlock_iff hb).mpr hw
  exact Visit.outcome_skipped hf (List.any_eq_true.mpr ⟨k, hk, hcode⟩)

theorem isBlock_of_isCodeBlock {n : Node} (h : n.isCodeBlock = true) : n.isBlock = true := by
  unfold isCodeBlock at h
  unfold isBlock
  split at h
  · next scope hf => rw [hf]
  · cases h

theorem Settled.assembles (h : (Node.mk l js).Settled) (hf : l.form = .command b)
    (hy : ∀ k ∈ js, ∀ e ∈ k.kids, e.Yields) (hw : ∀ k ∈ js, k.isBlock = true → k.WrapsExpression) :
    ∃ parts, List.Forall₂ Contributes js parts ∧
      Visit.HandsOver ⟨l, js, m⟩ parts.flatten d (Visit.outcome ⟨l, js, m⟩ d) := by
  obtain ⟨hdone, hkids⟩ := settled_mk.mp h
  have hparts : ∀ k ∈ js, k.label.part = .fragment ∨ k.label.part = .block := by
    have hshape := hdone.shaped
    rw [hf] at hshape
    intro k hk
    exact hshape.2 _ (List.mem_map_of_mem (List.mem_map_of_mem hk))
  obtain ⟨parts, hcontributes, htext⟩ := commandText_contributes fun k hk =>
    exists_contributes (hkids k hk) (hparts k hk) (hw k hk) (hy k hk)
  refine ⟨parts, hcontributes, Visit.outcome_handsOver hf ?_ htext⟩
  rw [List.any_eq_false]
  intro k hk hcode
  have hb := isBlock_of_isCodeBlock hcode
  exact ((hkids k hk).isCodeBlock_iff hb).mp hcode (hw k hk hb)

end Node

namespace Tree

/-- A command whose parts are evaluated is skipped if one of them is a block of code. Otherwise its
text, that of its parts in order, is handed over once. -/
theorem command_assembly_exact {t : Tree} (h : t.Reachable) {n c : Node} (hn : n ∈ t.roots)
    (hc : c ∈ n.subtrees) (hcmd : c.isCommand = true) (ha : c.flags.analyzed = true)
    (he : c.flags.evaluated = false) (d : Option (Dispatcher σ)) {m : Machine σ} {x : Visit σ}
    (hl : x.label = c.label) (hk : Node.evaluateAll d c.kids m = (.ok x.kids, x.machine)) :
    c.evaluate d m = ((x.outcome d).1.map fun l => .mk l.markEvaluated x.kids, (x.outcome d).2) ∧
    ((∃ k ∈ x.kids, k.isBlock = true ∧ ¬ k.WrapsExpression) →
      x.outcome d = (.ok { c.label with form := .command true, result := .nil },
        x.machine.report .commandSkipped)) ∧
    ((∀ k ∈ x.kids, k.isBlock = true → k.WrapsExpression) →
      ∃ parts, List.Forall₂ Node.Contributes x.kids parts ∧
        x.HandsOver parts.flatten d (x.outcome d)) ∧
    ∀ w cancelled interrupts, x ∈ t.visits d w cancelled interrupts →
      (∀ f, (x.outcome d).1 = .error f →
        (t.evaluate d w cancelled interrupts).stop = some (.failed f)) ∧
      ((∀ f, (t.evaluate d w cancelled interrupts).stop ≠ some (.failed f)) →
        ∃ l, (x.outcome d).1 = .ok l ∧ ∃ r ∈ (t.evaluate d w cancelled interrupts).tree.fragments,
          .mk l.markEvaluated x.kids ∈ r.subtrees) := by
  obtain ⟨l, ks⟩ := c
  obtain ⟨l', js, m'⟩ := x
  obtain rfl : l = l' := hl.symm
  obtain ⟨b, hform⟩ := Node.isCommand_iff.mp hcmd
  have hsettled : (Node.mk l ks).Settled := (h.staged.roots n hn).subtree hc ha
  have hfresh : (Node.mk l ks).Fresh := by
    rcases h.fresh_or_spent n hn with hfresh | hspent
    · exact hfresh.subtree hc
    · rw [Node.flags_mk, (Node.spent_mk.mp (hspent.subtree hc)).1] at he
      cases he
  have hafter : (Node.mk l js).Settled := hsettled.evaluated hk
  have hyields := Node.forall_evaluateAll
    (fun k hk _ _ _ hj => ((Node.fresh_mk.mp hfresh).2 k hk).yields_kids hj) hk
  have hblock : l.isBlock = false := by
    rw [Label.isBlock, show l.form = .command b from hform]
  refine ⟨Node.evaluate_rule he ha hblock hk, hafter.skips hform, hafter.assembles hform hyields,
    ?_⟩
  intro w cancelled interrupts hx
  refine ⟨fun f hf => Progress.error_of_visits hx hf, ?_⟩
  intro hstop
  obtain ⟨r, m₁, hv, ⟨f, hf⟩ | ⟨r', m₂, hr', hmem⟩⟩ := Progress.fragment_of_visits hx
  · exact (hstop f hf).elim
  · obtain ⟨l', hout, hresult⟩ := Node.result_of_visits hv hr'
    exact ⟨l', hout, r', hmem, hresult⟩

/-- A command with a chain of operators in a block, and one with a block of two expressions. -/
def chainAndCode : List Token :=
  [⟨"[", []⟩, ⟨"FRAG", "echo "⟩, ⟨"\x7b", []⟩, ⟨"(", []⟩, ⟨"exp", []⟩, ⟨"(", []⟩, ⟨"STAR", []⟩,
    ⟨"INT", "2"⟩, ⟨"(", []⟩, ⟨"PLUS", []⟩, ⟨"INT", "3"⟩, ⟨"INT", "4"⟩, ⟨")", []⟩, ⟨")", []⟩,
    ⟨")", []⟩, ⟨"\x7d", []⟩, ⟨"FRAG", "!"⟩, ⟨"]", []⟩, ⟨"[", []⟩, ⟨"\x7b", []⟩, ⟨"(", []⟩,
    ⟨"exp", []⟩, ⟨"INT", "1"⟩, ⟨")", []⟩, ⟨"(", []⟩, ⟨"exp", []⟩, ⟨"INT", "2"⟩, ⟨")", []⟩,
    ⟨"\x7d", []⟩, ⟨"]", []⟩]

/-- The chain is reordered before its value becomes part of the command, and white space around the
status does not matter. -/
theorem command_assembly_exact_chainAndCode :
    let d := some Script.dispatcher
    let w : Script := ⟨[{ status := " +3\n" }], []⟩
    let t := (Run.of d w (inserting chainAndCode)).tree
    let m : Machine Script :=
      { scopes := [t.globals], world := w, cancelled := false, outputs := [] }
    (∃ c ∈ t.roots, ∃ js m', Node.evaluateAll d c.kids m = (.ok js, m') ∧
      ∃ parts, List.Forall₂ Node.Contributes js parts ∧ parts.flatten = "echo 10!" ∧
        (c.evaluate d m).1.toOption.map Node.result = some (.int 3) ∧
        (c.evaluate d m).2.world.commands = [parts.flatten]) ∧
    ∃ c ∈ t.roots, ∃ js m', Node.evaluateAll d c.kids m = (.ok js, m') ∧
      c.evaluate d m =
        (.ok (.mk { c.label with form := .command true, result := .nil }.markEvaluated js),
          m'.report .commandSkipped) := by
  intro d w t m
  have hcommands : ∀ (s : Script) (c : Bytes),
      (Script.send c s).2.commands = s.commands ++ [c] := by
    rintro ⟨es, cs⟩ c
    cases es <;> rfl
  have hself : ∀ c : Node, c ∈ c.subtrees := by
    rintro ⟨l, ks⟩
    exact Node.mem_subtrees_mk.mpr (Or.inl rfl)
  have hreach : t.Reachable := Run.reachable d w _
  refine ⟨?_, ?_⟩
  · have hfound : ∃ c ∈ t.roots, c.isCommand = true ∧ c.flags.analyzed = true ∧
        c.flags.evaluated = false ∧ (Node.evaluateAll d c.kids m).1.isOk = true ∧
        (∀ k ∈ (Node.evaluateAll d c.kids m).1.toOption.getD [], k.isBlock = true →
          k.WrapsExpression) ∧
        (Node.evaluateAll d c.kids m).2.world.commands = [] ∧
        (c.evaluate d m).1.toOption.map Node.result = some (.int 3) ∧
        (c.evaluate d m).2.world.commands = ["echo 10!"] := by
      decide +kernel
    obtain ⟨c, hc, hcmd, ha, he, hok, hw, hnone, hresult, hsent⟩ := hfound
    rcases hk : Node.evaluateAll d c.kids m with ⟨f | js, m'⟩
    · rw [hk] at hok
      cases hok
    rw [hk] at hw hnone
    obtain ⟨hrule, -, hhands, -⟩ :=
      command_assembly_exact hreach hc (hself c) hcmd ha he d (x := ⟨c.label, js, m'⟩) rfl hk
    obtain ⟨parts, hparts, hhands⟩ := hhands hw
    have hflatten : parts.flatten = "echo 10!" := by
      rw [hrule] at hresult hsent
      generalize Visit.outcome ⟨c.label, js, m'⟩ d = o at hhands hresult hsent
      change Visit.HandsOver _ _ (some Script.dispatcher) o at hhands
      cases hhands with
      | refused => cases hresult
      | garbled => cases hresult
      | answered _ _ =>
        have hlast : m'.world.commands ++ [parts.flatten] = ["echo 10!"] :=
          (hcommands _ _).symm.trans hsent
        rw [show m'.world.commands = [] from hnone] at hlast
        simpa using hlast
    exact ⟨c, hc, js, m', hk, parts, hparts, hflatten, hresult, hflatten ▸ hsent⟩
  · have hfound : ∃ c ∈ t.roots, c.isCommand = true ∧ c.flags.analyzed = true ∧
        c.flags.evaluated = false ∧ (Node.evaluateAll d c.kids m).1.isOk = true ∧
        ∃ k ∈ (Node.evaluateAll d c.kids m).1.toOption.getD [], k.isBlock = true ∧
          ¬ k.WrapsExpression := by
      decide +kernel
    obtain ⟨c, hc, hcmd, ha, he, hok, hw⟩ := hfound
    rcases hk : Node.evaluateAll d c.kids m with ⟨f | js, m'⟩
    · rw [hk] at hok
      cases hok
    rw [hk] at hw
    obtain ⟨hrule, hskip, -⟩ :=
      command_assembly_exact hreach hc (hself c) hcmd ha he d (x := ⟨c.label, js, m'⟩) rfl hk
    rw [hskip hw] at hrule
    exact ⟨c, hc, js, m', hk, hrule⟩

end Tree

end TokenShell
