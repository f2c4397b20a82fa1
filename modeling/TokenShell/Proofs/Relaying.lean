import TokenShell.Proofs.Evaluation
import TokenShell.Proofs.Scripts

/-! What a session sends to its dispatcher is what it reports: the commands go out one after the
other, and the first of them that fails ends the evaluation with its failure. -/
namespace TokenShell

/-- A command in the hands of a dispatcher: what the dispatcher was told, the state it was in, how
it reacted, and the state it came to. -/
structure Sending (σ : Type) where
  cancelled : Bool
  command : Bytes
  before : σ
  reply : Reply
  after : σ

namespace Dispatcher

variable {σ : Type} {d : Dispatcher σ}

/-- Whether the run is cancelled and the state of the dispatcher, after some commands. -/
def reach (d : Dispatcher σ) (p : Bool × σ) (commands : List Bytes) : Bool × σ :=
  commands.foldl
    (fun p command =>
      let (reply, w) := d.send p.1 command p.2
      (p.1 || reply.cancels, w))
    p

/-- What becomes of commands that are sent one after the other. -/
def sendings (d : Dispatcher σ) (p : Bool × σ) : List Bytes → List (Sending σ)
  | [] => []
  | command :: commands =>
    let (reply, w) := d.send p.1 command p.2
    ⟨p.1, command, p.2, reply, w⟩ :: d.sendings (p.1 || reply.cancels, w) commands

theorem reach_append (d : Dispatcher σ) (p : Bool × σ) (a b : List Bytes) :
    d.reach p (a ++ b) = d.reach (d.reach p a) b := List.foldl_append

theorem sendings_append (d : Dispatcher σ) (p : Bool × σ) (a b : List Bytes) :
    d.sendings p (a ++ b) = d.sendings p a ++ d.sendings (d.reach p a) b := by
  induction a generalizing p with
  | nil => rfl
  | cons command a ih => exact congrArg (_ :: ·) (ih _)

end Dispatcher

/-- The sendings of some work, and its result: only the last of them may have failed, and then the
work has failed for that reason. -/
inductive Heeded {σ α : Type} (r : Except Failure α) : List (Sending σ) → Prop where
  | nil : Heeded r []
  | answered {x : Sending σ} {xs : List (Sending σ)} (line : Bytes) (ha : x.reply.answer = .ok line)
      (h : Heeded r xs) : Heeded r (x :: xs)
  | failed {x : Sending σ} (f : Fault) (tok : Token) (ha : x.reply.answer = .error f)
      (hr : r = .error { cause := .dispatchFailed x.command, node := some tok, inner := some f }) :
      Heeded r [x]

namespace Heeded

variable {σ α β : Type} {xs ys : List (Sending σ)}

theorem append {a : α} {r : Except Failure β} (h : Heeded (.ok a : Except Failure α) xs)
    (h' : Heeded r ys) : Heeded r (xs ++ ys) := by
  induction h with
  | nil => exact h'
  | answered line ha _ ih => exact .answered line ha ih
  | failed f tok ha hr => cases hr

theorem of_ok {a : α} {r : Except Failure β} (h : Heeded (.ok a : Except Failure α) xs) :
    Heeded r xs := by
  simpa using h.append .nil

theorem of_error {e : Failure} (h : Heeded (.error e : Except Failure α) xs) :
    Heeded (.error e : Except Failure β) xs := by
  induction h with
  | nil => exact .nil
  | answered line ha _ ih => exact .answered line ha ih
  | failed f tok ha hr => exact .failed f tok ha (congrArg Except.error (Except.error.inj hr))

end Heeded

/-- The commands that outputs report as handed over. -/
def commandsOf (os : List Output) : List Bytes := (handed os).map Prod.snd

@[simp] theorem commandsOf_append (a b : List Output) :
    commandsOf (a ++ b) = commandsOf a ++ commandsOf b := by
  simp [commandsOf]

theorem commandsOf_outputs (r : Reply) : commandsOf r.outputs = [] := by
  rw [commandsOf, handed_outputs]
  rfl

/-- Work that sends the commands it reports, in their order, and fails where one of them does. -/
def Evaluation.Relays {σ α : Type} (d : Dispatcher σ) (work : Evaluation σ α) : Prop :=
  ∀ m, ∃ out, (work m).2.outputs = m.outputs ++ out ∧
    ((work m).2.cancelled, (work m).2.world) = d.reach (m.cancelled, m.world) (commandsOf out) ∧
    Heeded (work m).1 (d.sendings (m.cancelled, m.world) (commandsOf out))

namespace Evaluation.Relays

variable {σ α β : Type} {d : Dispatcher σ} {x : Evaluation σ α} {f : α → Evaluation σ β}

theorem pure (a : α) : Relays d (pure a : Evaluation σ α) :=
  fun m => ⟨[], by simp [run_pure], rfl, .nil⟩

theorem fail (l : Label) (c : Cause) : Relays d (Evaluation.fail l c : Evaluation σ α) :=
  fun m => ⟨[], by simp [Evaluation.fail], rfl, .nil⟩

theorem throw (e : Failure) : Relays d (throw e : Evaluation σ α) :=
  fun _ => ⟨[], (List.append_nil _).symm, rfl, .nil⟩

theorem lift (x : Except Failure α) : Relays d (liftM x : Evaluation σ α) := by
  intro m
  rw [run_lift]
  exact ⟨[], by simp, rfl, .nil⟩

theorem emit {e : Event} (h : Output.handed? (.log e) = none) :
    Relays d (Evaluation.emit e : Evaluation σ Unit) := by
  have hn : commandsOf [.log e] = [] := by simp [commandsOf, handed, h]
  intro m
  refine ⟨[.log e], rfl, ?_, ?_⟩
  · rw [hn]
    rfl
  · rw [hn]
    exact .nil

theorem read (k : Nat) (name : Bytes) :
    Relays d (Evaluation.read k name : Evaluation σ (Option Value)) :=
  fun m => ⟨[], by simp [Evaluation.read], rfl, .nil⟩

theorem write (k : Nat) (name : Bytes) (v : Value) :
    Relays d (Evaluation.write k name v : Evaluation σ Bool) := by
  intro m
  unfold Evaluation.write
  split
  · split
    · exact ⟨[], by simp, rfl, .nil⟩
    · exact ⟨[], by simp, rfl, .nil⟩
  · exact ⟨[], by simp, rfl, .nil⟩

theorem bind (hx : Relays d x) (hf : ∀ a, Relays d (f a)) : Relays d (x >>= f) := by
  intro m
  obtain ⟨out, ho, hr, hh⟩ := hx m
  rw [run_bind]
  rcases hm : x m with ⟨e | a, m'⟩
  all_goals rw [hm] at ho hr hh
  · exact ⟨out, ho, hr, hh.of_error⟩
  · obtain ⟨out', ho', hr', hh'⟩ := hf a m'
    refine ⟨out ++ out', ?_, ?_, ?_⟩
    · rw [← List.append_assoc, ← ho]
      exact ho'
    · rw [commandsOf_append, Dispatcher.reach_append, ← hr]
      exact hr'
    · rw [commandsOf_append, Dispatcher.sendings_append, ← hr]
      exact hh.append hh'

theorem inside (scope : Scope) (hx : Relays d x) : Relays d (Evaluation.inside scope x) := by
  intro m
  obtain ⟨out, ho, hr, hh⟩ := hx { m with scopes := scope :: m.scopes }
  unfold Evaluation.inside
  rcases hm : x { m with scopes := scope :: m.scopes } with ⟨e | a, ⟨ss, w, c, os⟩⟩
  all_goals rw [hm] at ho hr hh
  · exact ⟨out, ho, hr, hh.of_error⟩
  · cases ss with
    | nil => exact ⟨out, ho, hr, hh.of_ok⟩
    | cons s outer => exact ⟨out, ho, hr, hh.of_ok⟩

/-- A command is reported and sent, and work that fails where the command does goes on. -/
theorem handOver (serial : Nat) (command : Bytes) (tok : Token)
    {next : Except Fault Bytes → Evaluation σ β}
    (herror : ∀ f m, next (.error f) m =
      (.error { cause := .dispatchFailed command, node := some tok, inner := some f }, m))
    (hok : ∀ line, Relays d (next (.ok line))) :
    Relays d (do
      Evaluation.emit (.dispatching serial command)
      next (← Evaluation.dispatch d command)) := by
  intro m
  let r := d.send m.cancelled command m.world
  let m' : Machine σ :=
    { m with
      world := r.2
      cancelled := m.cancelled || r.1.cancels
      outputs := m.outputs ++ .log (.dispatching serial command) :: r.1.outputs }
  have hrun : (do
      Evaluation.emit (.dispatching serial command)
      next (← Evaluation.dispatch d command)) m = next r.1.answer m' := by
    rw [run_bind]
    show (Evaluation.dispatch d command >>= next) _ = _
    rw [run_bind]
    simp [Evaluation.dispatch, m', r]
  have hcommands : commandsOf (.log (.dispatching serial command) :: r.1.outputs) = [command] := by
    rw [← List.singleton_append, commandsOf_append, commandsOf_outputs]
    rfl
  rw [hrun]
  cases ha : r.1.answer with
  | error f =>
    rw [herror]
    refine ⟨_, rfl, ?_, ?_⟩
    · rw [hcommands]
      rfl
    · rw [hcommands]
      exact .failed f tok ha rfl
  | ok line =>
    obtain ⟨out, ho, hr, hh⟩ := hok line m'
    refine ⟨.log (.dispatching serial command) :: r.1.outputs ++ out, ?_, ?_, ?_⟩
    · rw [ho]
      exact List.append_assoc _ _ _
    · rw [commandsOf_append, hcommands]
      exact hr
    · rw [commandsOf_append, hcommands]
      exact .answered line ha hh

end Evaluation.Relays

/-- A property that work has if its parts have it and commands do. -/
structure Evaluation.Compositional {σ : Type} (d : Option (Dispatcher σ))
    (P : (α : Type) → Evaluation σ α → Prop) : Prop where
  pure : ∀ (α : Type) (a : α), P α (pure a)
  fail : ∀ (α : Type) (l : Label) (c : Cause), P α (Evaluation.fail l c)
  read : ∀ k name, P _ (Evaluation.read k name)
  write : ∀ k name v, P _ (Evaluation.write k name v)
  bind : ∀ (α β : Type) (x : Evaluation σ α) (f : α → Evaluation σ β), P α x → (∀ a, P β (f a)) →
    P β (x >>= f)
  inside : ∀ (α : Type) (scope : Scope) (x : Evaluation σ α), P α x →
    P _ (Evaluation.inside scope x)
  command : ∀ l ks, P _ (Label.evaluateCommand d l ks)

namespace Evaluation.Compositional

variable {σ : Type} {d : Option (Dispatcher σ)} {P : (α : Type) → Evaluation σ α → Prop}

theorem operator (h : Compositional d P) (l : Label) (ks : List Node) :
    P _ (l.evaluateOperator ks) := by
  unfold Label.evaluateOperator
  dsimp only
  split
  · split
    · exact h.pure _ _
    · split
      · exact h.pure _ _
      · exact h.fail _ _ _
    · split
      · exact h.pure _ _
      · exact h.fail _ _ _
    · exact h.fail _ _ _
    · exact h.fail _ _ _
  · exact h.fail _ _ _

theorem reference (h : Compositional d P) (l : Label) : P _ l.evaluateVariable := by
  unfold Label.evaluateVariable
  split
  · refine h.bind _ _ _ _ (h.read _ _) fun v => ?_
    cases v with
    | some v => exact h.pure _ _
    | none => exact h.fail _ _ _
  · exact h.fail _ _ _
  · exact h.pure _ _

theorem initializer (h : Compositional d P) (l : Label) (ks : List Node) :
    P _ (l.evaluateInitializer ks) := by
  unfold Label.evaluateInitializer
  split
  · exact h.fail _ _ _
  · dsimp only
    split
    · refine h.bind _ _ _ _ (h.write _ _ _) fun b => ?_
      cases b with
      | true => exact h.pure _ _
      | false => exact h.fail _ _ _
    · exact h.fail _ _ _

theorem first (h : Compositional d P) (l : Label) (ks : List Node) : P _ (l.evaluateFirst ks) := by
  unfold Label.evaluateFirst
  split
  · exact h.pure _ _
  · exact h.fail _ _ _

theorem label (h : Compositional d P) (l : Label) (ks : List Node) : P _ (l.evaluate d ks) := by
  unfold Label.evaluate
  split
  · exact h.pure _ _
  · exact h.reference l
  · exact h.operator l ks
  · exact h.first l ks
  · exact h.first l ks
  · exact h.pure _ _
  · exact h.pure _ _
  · exact h.command l ks
  · split
    · exact h.pure _ _
    · exact h.fail _ _ _
  · exact h.initializer l ks

theorem nodes (h : Compositional d P) {ks : List Node} (hk : ∀ k ∈ ks, P _ (k.evaluate d)) :
    P _ (Node.evaluateAll d ks) := by
  induction ks with
  | nil => exact h.pure _ _
  | cons k ks ih =>
    rw [Node.evaluateAll]
    refine h.bind _ _ _ _ (hk k (by simp)) fun j => ?_
    exact h.bind _ _ _ _ (ih fun i hi => hk i (by simp [hi])) fun js => h.pure _ _

/-- The evaluation of a tree is put together from its parts. -/
theorem node (h : Compositional d P) (n : Node) : P _ (n.evaluate d) := by
  induction n using Node.induct with
  | h l ks ih =>
    have hall := h.nodes ih
    rcases Node.evaluate_cases d l ks with
      ⟨-, hr⟩ | ⟨-, -, hr⟩ | ⟨-, kind, scope, -, hr⟩ | ⟨-, -, hr⟩
    · rw [hr]
      exact h.pure _ _
    · rw [hr]
      exact h.fail _ _ _
    · rw [hr]
      refine h.bind _ _ _ _ (h.inside _ _ _ hall) fun ⟨js, scope'⟩ => ?_
      exact h.bind _ _ _ _ (h.label _ js) fun _ => h.pure _ _
    · rw [hr]
      refine h.bind _ _ _ _ hall fun js => ?_
      exact h.bind _ _ _ _ (h.label l js) fun _ => h.pure _ _

end Evaluation.Compositional

theorem Label.relays_evaluateCommand {σ : Type} (d : Dispatcher σ) (l : Label) (ks : List Node) :
    Evaluation.Relays d (l.evaluateCommand (some d) ks) := by
  unfold evaluateCommand
  split
  · exact .bind (.emit rfl) fun _ => .pure _
  · refine .bind (.lift _) fun command => ?_
    refine .handOver l.serial command l.token (fun f m => rfl) fun line => ?_
    dsimp only
    split
    · exact .throw _
    · exact .bind (.emit rfl) fun _ => .pure _

theorem Evaluation.relays_compositional {σ : Type} (d : Dispatcher σ) :
    Compositional (some d) fun _ x => Relays d x where
  pure _ a := .pure a
  fail _ l c := .fail l c
  read k name := .read k name
  write k name v := .write k name v
  bind _ _ _ _ hx hf := .bind hx hf
  inside _ scope _ hx := .inside scope hx
  command l ks := l.relays_evaluateCommand d ks

theorem Node.relays_evaluate {σ : Type} (d : Dispatcher σ) (n : Node) :
    Evaluation.Relays d (n.evaluate (some d)) :=
  (Evaluation.relays_compositional d).node n

/-! What one evaluation of a tree sends. -/

/-- The failure that a stop is. -/
def Stop.result : Option Stop → Except Failure Unit
  | some (.failed f) => .error f
  | _ => .ok ()

theorem Stop.result_eq_error {stop : Option Stop} {f : Failure} :
    result stop = .error f ↔ stop = some (.failed f) := by
  unfold result
  split <;> simp_all

namespace Progress

variable {σ : Type} {d : Dispatcher σ} {m m' : Machine σ} {ns ns' : List Node} {vs : List Value}

theorem Pass.relays (h : Pass (some d) m ns ns' vs m') : ∃ out, m'.outputs = m.outputs ++ out ∧
    (m'.cancelled, m'.world) = d.reach (m.cancelled, m.world) (commandsOf out) ∧
    Heeded (.ok () : Except Failure Unit) (d.sendings (m.cancelled, m.world) (commandsOf out)) := by
  induction h with
  | nil m => exact ⟨[], by simp, rfl, .nil⟩
  | skip _ _ ih => exact ih
  | @step m m₁ m' n n' ns _ _ _ _ _ hn _ ih =>
    obtain ⟨out, ho, hr, hh⟩ := n.relays_evaluate d m
    rw [hn] at ho hr hh
    obtain ⟨out', ho', hr', hh'⟩ := ih
    refine ⟨out ++ out', ?_, ?_, ?_⟩
    · rw [ho', ho, List.append_assoc]
    · rw [commandsOf_append, Dispatcher.reach_append, ← hr, hr']
    · rw [commandsOf_append, Dispatcher.sendings_append, ← hr]
      exact hh.append hh'

theorem End.relays {stop : Option Stop} (h : End (some d) m ns ns' m' stop) :
    ∃ out, m'.outputs = m.outputs ++ out ∧
      m'.world = (d.reach (m.cancelled, m.world) (commandsOf out)).2 ∧
      Heeded (Stop.result stop) (d.sendings (m.cancelled, m.world) (commandsOf out)) ∧
      ∀ f, stop = some (.failed f) → ∃ text, .log (.evaluationFailed text f) ∈ out := by
  cases h with
  | finished _ _ => exact ⟨[], by simp, rfl, .nil, by simp⟩
  | interrupted _ _ _ => exact ⟨[], by simp, rfl, .nil, by simp⟩
  | @failed n f m₁ _ _ _ _ hn =>
    obtain ⟨out, ho, hr, hh⟩ := n.relays_evaluate d m
    rw [hn] at ho hr hh
    have hsame : commandsOf (out ++ [.log (.evaluationFailed n.text f)]) = commandsOf out := by
      rw [commandsOf_append]
      exact List.append_nil _
    refine ⟨out ++ [.log (.evaluationFailed n.text f)], ?_, ?_, ?_, ?_⟩
    · rw [← List.append_assoc, ← ho]
    · rw [hsame, ← hr]
    · rw [hsame]
      exact hh.of_error
    · intro g hg
      obtain rfl : f = g := by simpa using hg
      exact ⟨n.text, by simp⟩

end Progress

theorem Tree.evaluate_relays {σ : Type} (t : Tree) (d : Dispatcher σ) (w : σ) (cancelled : Bool)
    (interrupts : List Bool) :
    let e := t.evaluate (some d) w cancelled interrupts
    e.world = (d.reach (cancelled, w) (commandsOf e.outputs)).2 ∧
      Heeded (Stop.result e.stop) (d.sendings (cancelled, w) (commandsOf e.outputs)) ∧
      ∀ f, e.stop = some (.failed f) → ∃ text, .log (.evaluationFailed text f) ∈ e.outputs := by
  obtain ⟨ks, ks', rest, rest', vs, m', m'', stop, -, hpass, hend, ho⟩ :=
    Progress.of_cases (some d) interrupts ⟨[t.globals], w, cancelled, []⟩ t.fragments
  obtain ⟨out, hout, hreach, hheeded⟩ := hpass.relays
  obtain ⟨out', hout', hreach', hheeded', hfail⟩ := hend.relays
  have houtputs : m''.outputs = out ++ out' := by rw [hout', hout, List.nil_append]
  simp only [Tree.evaluate, ho, houtputs, commandsOf_append, Dispatcher.reach_append,
    Dispatcher.sendings_append]
  rw [← hreach]
  refine ⟨hreach', hheeded.append hheeded', ?_⟩
  intro f hf
  obtain ⟨text, hm⟩ := hfail f hf
  exact ⟨text, List.mem_append_right _ hm⟩

/-! What one line sends. -/

theorem commandsOf_log {es : List Event} (h : handed (es.map .log) = []) :
    commandsOf (es.map .log) = [] := by
  rw [commandsOf, h]
  rfl

theorem commandsOf_complaints {α : Type} (f : α → Fault) (x : Option α) :
    commandsOf (x.map fun a => Session.complaint (f a)).toList = [] := by
  cases x <;> rfl

theorem Tree.silent_reset (t : Tree) : t.reset.Silent := by
  unfold reset
  dsimp only
  split <;> rfl

namespace Session

variable {σ : Type} {d : Dispatcher σ} {s : Session σ}

/-- A line that sends the commands it reports. If one of them fails, it is the last, and the line
ends with the complaint about the fragment it belongs to. -/
structure Relayed (d : Dispatcher σ) (s : Session σ) (h : Handled σ) : Prop where
  world : h.session.world = (d.reach (s.cancelled, s.world) (commandsOf h.outputs)).2
  heeded : ∃ r : Except Failure Unit,
    Heeded r (d.sendings (s.cancelled, s.world) (commandsOf h.outputs)) ∧
      ∀ f, r = .error f → (∃ text, .log (.evaluationFailed text f) ∈ h.outputs) ∧
        h.outputs.getLast? = some (complaint f.fault)

theorem Relayed.of_idle {h : Handled σ} (hw : h.session.world = s.world)
    (ho : commandsOf h.outputs = []) : Relayed d s h := by
  refine ⟨?_, .ok (), ?_, fun f hf => nomatch hf⟩
  · rw [ho, hw]
    rfl
  · rw [ho]
    exact .nil

theorem relayed_control (line : Bytes) : Relayed d s (s.control line) := by
  have hreset : commandsOf (s.tree.reset.events.map .log) = [] := commandsOf_log s.tree.silent_reset
  unfold control
  dsimp only
  repeat' split
  all_goals refine .of_idle rfl ?_
  all_goals simp [commandsOf_append, hreset]
  all_goals rfl

theorem commandsOf_feed (interrupts : List Bool) (toks : List Token) :
    commandsOf (s.feed (some d) interrupts toks).outputs =
      commandsOf ((s.tree.insertAll toks).tree.evaluate (some d) s.world s.cancelled
        interrupts).outputs := by
  have hvalues : ∀ vs : List Value, commandsOf (vs.map shown) = [] := by
    intro vs
    rw [commandsOf, handed_shown]
    rfl
  have htree : commandsOf (if s.settings.printTree then
      [.out .session (s.tree.insertAll toks).tree.print] else []) = [] := by
    split <;> rfl
  simp only [feed, commandsOf_append, commandsOf_log (s.tree.silent_insertAll toks),
    commandsOf_complaints, htree, hvalues, List.nil_append, List.append_nil]

theorem relayed_feed (interrupts : List Bool) (toks : List Token) :
    Relayed d s (s.feed (some d) interrupts toks) := by
  obtain ⟨hworld, hheeded, hfailed⟩ :=
    (s.tree.insertAll toks).tree.evaluate_relays d s.world s.cancelled interrupts
  rw [← commandsOf_feed] at hworld hheeded
  refine ⟨hworld, _, hheeded, fun f hf => ?_⟩
  have hstop := Stop.result_eq_error.mp hf
  obtain ⟨text, hm⟩ := hfailed f hstop
  refine ⟨⟨text, ?_⟩, ?_⟩
  · simp [feed, hm]
  · simp [feed, hstop, Stop.fault]

/-- What a line sends. -/
theorem relayed_handleLine (interrupts : List Bool) (line : Bytes) :
    Relayed d s (s.handleLine (some d) interrupts line) := by
  unfold handleLine
  split
  · exact .of_idle rfl rfl
  · exact relayed_control _
  · split
    · exact .of_idle rfl rfl
    · exact relayed_feed interrupts _

end Session

end TokenShell
