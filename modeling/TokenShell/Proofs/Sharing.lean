import TokenShell.Proofs.Relaying
import TokenShell.Proofs.Requests

/-! A session and the line protocol read one input. Every line of it goes to one of them, whole and
in order, and a status line is read for every request and for nothing else. -/
namespace TokenShell

namespace Bytes

variable {xs : Bytes}

theorem flatten_lines (xs : Bytes) : (lines xs).flatten = xs := by
  induction xs with
  | nil => rfl
  | cons b xs ih =>
    rw [lines]
    split
    · simp [ih]
    · split
      · next hl => simp_all
      · next l ls hl => simp_all

theorem nil_notMem_lines (xs : Bytes) : [] ∉ lines xs := by
  induction xs with
  | nil => simp [lines]
  | cons b xs ih =>
    rw [lines]
    split
    · simpa using ih
    · split
      · simp
      · next l ls hl => simp_all

theorem cutLine_ne_nil (h : xs ≠ []) : (cutLine xs).1 ≠ [] := by
  cases xs with
  | nil => exact (h rfl).elim
  | cons b xs =>
    rw [cutLine]
    split <;> exact List.cons_ne_nil _ _

/-- A line without an end is the last. -/
theorem cutLine_open (h : Session.endsLine (cutLine xs).1 = false) : (cutLine xs).2 = [] := by
  induction xs with
  | nil => rfl
  | cons b xs ih =>
    rw [cutLine] at h ⊢
    split at h
    · simp [Session.endsLine, *] at h
    · next hb =>
      rw [if_neg hb]
      change Session.endsLine (b :: (cutLine xs).1) = false at h
      cases xs with
      | nil => rfl
      | cons c xs =>
        refine ih ?_
        have hne := cutLine_ne_nil (List.cons_ne_nil c xs)
        rwa [Session.endsLine, List.getLast?_cons_of_ne_nil hne] at h

end Bytes

namespace LineChannel

variable {command : Bytes}

/-- The answers to a command that is not sent: it does not fit on a line, the run is cancelled, or
writing fails. -/
inductive Declined (command : Bytes) : Except Fault Bytes → Prop where
  | unfit (h : fits command = false) : Declined command (refusal command)
  | cancelled : Declined command (.error .cancelled)
  | unwritten (text : Bytes) : Declined command (.error (.during "write command" (.plain text)))

/-- A command is declined and nothing happens, or it goes out and takes the next line. -/
theorem send_cases (cancelled : Bool) (command : Bytes) (c : LineChannel) :
    (Declined command (c.send cancelled command).1.answer ∧ (c.send cancelled command).2 = c) ∨
      (cancelled = false ∧ fits command = true ∧
        (c.send cancelled command).1.answer = answer (Bytes.lines c.input).head? ∧
        (c.send cancelled command).2.wire = c.wire ++ request command ∧
        Bytes.lines (c.send cancelled command).2.input = (Bytes.lines c.input).tail) := by
  cases hf : fits command with
  | false =>
    left
    rw [send, any_isLineBreak, hf]
    exact ⟨.unfit hf, rfl⟩
  | true =>
    cases cancelled with
    | true =>
      left
      rw [send, any_isLineBreak, hf]
      exact ⟨.cancelled, rfl⟩
    | false =>
      cases hb : c.broken with
      | some text =>
        left
        rw [send, any_isLineBreak, hf, hb]
        exact ⟨.unwritten text, rfl⟩
      | none =>
        obtain ⟨ha, hw, -, hl⟩ := send_fits hf hb
        exact .inr ⟨rfl, rfl, ha, hw, hl⟩

end LineChannel

namespace Feed

variable {σ : Type} {wire : σ → Bytes} {f g k : Feed σ} {reads more : List Bytes}
  {written later : Bytes}

/-- A dispatcher that speaks the line protocol, with status lines from the input and a wire. At any
command the run may turn out to be cancelled, or the wire broken. -/
def Speaks (wire : σ → Bytes) (d : Dispatcher (Feed σ)) : Prop :=
  ∀ cancelled command f, ∃ early broken,
    let c := LineChannel.send (cancelled || early) command ⟨f.input, wire f.rest, broken⟩
    let r := d.send cancelled command f
    r.1.answer = c.1.answer ∧ r.2.input = c.2.input ∧ wire r.2.rest = c.2.wire

theorem speaks_lineProtocol : Speaks id lineProtocol :=
  fun cancelled _ _ => ⟨false, none, by rw [Bool.or_false]; exact ⟨rfl, rfl, rfl⟩⟩

/-- Between two states some pieces have been read and a text has been written. The pieces that are
not empty are lines of the input. -/
structure Accounts (wire : σ → Bytes) (f : Feed σ) (reads : List Bytes) (written : Bytes)
    (g : Feed σ) : Prop where
  lines : Bytes.lines f.input = reads.filter (!·.isEmpty) ++ Bytes.lines g.input
  wire : wire g.rest = wire f.rest ++ written

namespace Accounts

theorem refl (f : Feed σ) : Accounts wire f [] [] f := ⟨rfl, (List.append_nil _).symm⟩

theorem trans (h : Accounts wire f reads written g) (h' : Accounts wire g more later k) :
    Accounts wire f (reads ++ more) (written ++ later) k where
  lines := by rw [h.lines, h'.lines, List.filter_append, List.append_assoc]
  wire := by rw [h'.wire, h.wire, List.append_assoc]

/-- Nothing of the input is lost. -/
theorem input (h : Accounts wire f reads written g) : reads.flatten ++ g.input = f.input := by
  have hflat := congrArg List.flatten h.lines
  rw [List.flatten_append, List.flatten_filter_not_isEmpty, Bytes.flatten_lines,
    Bytes.flatten_lines] at hflat
  exact hflat.symm

/-- The next line is read, if there is one. -/
theorem of_head (hl : Bytes.lines g.input = (Bytes.lines f.input).tail)
    (hw : wire g.rest = wire f.rest ++ written) :
    Accounts wire f [(Bytes.lines f.input).head?.getD []] written g := by
  refine ⟨?_, hw⟩
  have hne := Bytes.nil_notMem_lines f.input
  rw [hl]
  cases hf : Bytes.lines f.input with
  | nil => rfl
  | cons l ls => cases l <;> simp_all

end Accounts

end Feed

namespace Sending

variable {σ : Type} {wire : σ → Bytes} {x : Sending (Feed σ)}

/-- What is gone from the input. -/
def took (x : Sending (Feed σ)) : Bytes :=
  x.before.input.take (x.before.input.length - x.after.input.length)

/-- What is new on the wire. -/
def wrote (wire : σ → Bytes) (x : Sending (Feed σ)) : Bytes :=
  (wire x.after.rest).drop (wire x.before.rest).length

/-- A command that is declined writes and reads nothing. One that is sent writes its request and
takes the next line as its status; at the end of the input it takes nothing and fails. -/
inductive Orderly (wire : σ → Bytes) (x : Sending (Feed σ)) : Prop where
  | declined (hanswer : LineChannel.Declined x.command x.reply.answer)
      (hwrote : x.wrote wire = []) (htook : x.took = [])
  | sent (hlive : x.cancelled = false) (hfits : LineChannel.fits x.command = true)
      (hwrote : x.wrote wire = LineChannel.request x.command)
      (htook : x.took = (Bytes.lines x.before.input).head?.getD [])
      (hanswer : x.reply.answer = LineChannel.answer (Bytes.lines x.before.input).head?)

theorem took_eq {line : Bytes} (h : line ++ x.after.input = x.before.input) : x.took = line := by
  rw [took, ← h, List.length_append, Nat.add_sub_cancel, List.take_left]

theorem wrote_eq {text : Bytes} (h : wire x.after.rest = wire x.before.rest ++ text) :
    x.wrote wire = text := by
  rw [wrote, h, List.drop_left]

end Sending

namespace Feed

variable {σ : Type} {wire : σ → Bytes} {d : Dispatcher (Feed σ)}

theorem Speaks.send (hd : Speaks wire d) (cancelled : Bool) (command : Bytes) (f : Feed σ) :
    let x : Sending (Feed σ) :=
      ⟨cancelled, command, f, (d.send cancelled command f).1, (d.send cancelled command f).2⟩
    x.Orderly wire ∧ Accounts wire x.before [x.took] (x.wrote wire) x.after := by
  intro x
  obtain ⟨early, broken, ha, hi, hw⟩ := hd cancelled command f
  rcases LineChannel.send_cases (cancelled || early) command ⟨f.input, wire f.rest, broken⟩ with
    ⟨hdeclined, hsame⟩ | ⟨hlive, hfits, hanswer, hwire, hlines⟩
  · rw [← ha] at hdeclined
    rw [hsame] at hi hw
    have htook : x.took = [] := Sending.took_eq hi
    have hwrote : x.wrote wire = [] := Sending.wrote_eq (hw.trans (List.append_nil _).symm)
    refine ⟨.declined hdeclined hwrote htook, ?_, ?_⟩
    · rw [htook]
      exact congrArg Bytes.lines hi.symm
    · rw [hwrote, List.append_nil]
      exact hw
  · rw [← ha] at hanswer
    rw [← hi] at hlines
    rw [← hw] at hwire
    have haccounts : Accounts wire x.before _ _ x.after := .of_head hlines hwire
    have htook : x.took = (Bytes.lines f.input).head?.getD [] := by
      refine Sending.took_eq ?_
      simpa using haccounts.input
    have hwrote : x.wrote wire = LineChannel.request command := Sending.wrote_eq hwire
    refine ⟨.sent (Bool.or_eq_false_iff.mp hlive).1 hfits hwrote htook hanswer, ?_⟩
    rw [htook, hwrote]
    exact haccounts

theorem Speaks.sendings (hd : Speaks wire d) (p : Bool × Feed σ) (commands : List Bytes) :
    (∀ x ∈ d.sendings p commands, x.Orderly wire) ∧
      Accounts wire p.2 ((d.sendings p commands).map Sending.took)
        ((d.sendings p commands).flatMap (·.wrote wire)) (d.reach p commands).2 := by
  induction commands generalizing p with
  | nil => exact ⟨by simp [Dispatcher.sendings], .refl _⟩
  | cons command commands ih =>
    obtain ⟨horderly, haccounts⟩ := hd.send p.1 command p.2
    obtain ⟨hall, hrest⟩ :=
      ih (p.1 || (d.send p.1 command p.2).1.cancels, (d.send p.1 command p.2).2)
    exact ⟨List.forall_mem_cons.mpr ⟨horderly, hall⟩, haccounts.trans hrest⟩

end Feed

/-- A line of a run: the session that has taken it, and what became of it. -/
structure Turn (σ : Type) where
  line : Bytes
  interrupts : List Bool
  start : Session (Feed σ)
  handled : Handled (Feed σ)

namespace Turn

variable {σ : Type} (wire : σ → Bytes) (d : Dispatcher (Feed σ)) (t : Turn σ)

/-- The commands of a line in the hands of the dispatcher. -/
def sendings : List (Sending (Feed σ)) :=
  d.sendings (t.start.cancelled, t.start.world) (commandsOf t.handled.outputs)

/-- All that is read for a line: the line itself, and what the dispatcher takes. -/
def reads : List Bytes := t.line :: (t.sendings d).map Sending.took

def wrote : Bytes := (t.sendings d).flatMap (·.wrote wire)

/-- A line is handled as the session does it, with orderly commands that leave the dispatcher as it
is. One that fails is the last, and makes its fragment fail. -/
structure Proper : Prop where
  handled : t.handled = t.start.handleLine (some d) t.interrupts t.line
  world : t.handled.session.world =
    (d.reach (t.start.cancelled, t.start.world) (commandsOf t.handled.outputs)).2
  orderly : ∀ x ∈ t.sendings d, x.Orderly wire
  failing : ∀ xs x ys f, t.sendings d = xs ++ x :: ys → x.reply.answer = .error f →
    ys = [] ∧ ∃ text failure, failure.cause = .dispatchFailed x.command ∧ failure.inner = some f ∧
      failure.fault.classify = .evaluator .runtime ∧
      .log (.evaluationFailed text failure) ∈ t.handled.outputs ∧
      t.handled.outputs.getLast? = some (Session.complaint failure.fault)

variable {wire d t}

/-- For its commands a turn reads what they take. -/
theorem Proper.accounts (h : t.Proper wire d) (hd : Feed.Speaks wire d) :
    Feed.Accounts wire t.start.world ((t.sendings d).map Sending.took) (t.wrote wire d)
      t.handled.session.world := by
  rw [h.world]
  exact (hd.sendings (t.start.cancelled, t.start.world) (commandsOf t.handled.outputs)).2

end Turn

theorem Heeded.last {σ α : Type} {r : Except Failure α} {xs ys : List (Sending σ)} {x : Sending σ}
    {f : Fault} (h : Heeded r (xs ++ x :: ys)) (hx : x.reply.answer = .error f) :
    ys = [] ∧ ∃ tok,
      r = .error { cause := .dispatchFailed x.command, node := some tok, inner := some f } := by
  induction xs with
  | nil =>
    cases h with
    | answered line ha _ => rw [ha] at hx; cases hx
    | failed g tok ha hr =>
      obtain rfl : g = f := Except.error.inj (ha.symm.trans hx)
      exact ⟨rfl, tok, hr⟩
  | cons y xs ih =>
    generalize hzs : xs ++ x :: ys = zs at ih
    rw [List.cons_append, hzs] at h
    cases h with
    | answered line ha h => exact ih h
    | failed g tok ha hr => simp at hzs

namespace Session

variable {σ : Type} {wire : σ → Bytes} {d : Dispatcher (Feed σ)}

theorem proper_handleLine (hd : Feed.Speaks wire d) (s : Session (Feed σ)) (interrupts : List Bool)
    (line : Bytes) :
    Turn.Proper wire d ⟨line, interrupts, s, s.handleLine (some d) interrupts line⟩ := by
  obtain ⟨hworld, r, hheeded, hfailure⟩ := relayed_handleLine (d := d) (s := s) interrupts line
  refine ⟨rfl, hworld, (hd.sendings _ _).1, fun xs x ys f hs hx => ?_⟩
  have hheeded : Heeded r (xs ++ x :: ys) := hs ▸ hheeded
  obtain ⟨hys, tok, hr⟩ := hheeded.last hx
  obtain ⟨⟨text, hlog⟩, hlast⟩ := hfailure _ hr
  exact ⟨hys, text, _, rfl, rfl, rfl, hlog, hlast⟩

/-- The lines that a run takes. -/
def turnsFor (d : Dispatcher (Feed σ)) :
    Nat → List Interruption → Session (Feed σ) → List (Turn σ)
  | 0, _, _ => []
  | fuel + 1, is, s =>
    let (line, start) := s.takeLine
    let i := is.headD {}
    if line.isEmpty then []
    else
      let handled := start.handleLine (some d) i.fragments line
      ⟨line, i.fragments, start, handled⟩ ::
        if handled.quit || !endsLine line then []
        else if handled.session.cancelled || i.after then []
        else turnsFor d fuel is.tail handled.session

def turns (d : Dispatcher (Feed σ)) (is : List Interruption) (s : Session (Feed σ)) :
    List (Turn σ) :=
  s.turnsFor d (s.world.input.length + 1) is

/-- Taking a line is reading it. -/
theorem accounts_takeLine (s : Session (Feed σ)) :
    Feed.Accounts wire s.world [s.takeLine.1] [] s.takeLine.2.world := by
  refine ⟨?_, (List.append_nil _).symm⟩
  by_cases hi : s.world.input = []
  · simp [takeLine, hi, Bytes.cutLine]
  · have hline := Bytes.cutLine_ne_nil hi
    rw [Bytes.lines_cutLine hi]
    simp [takeLine, hline]

theorem quit_handleLine {d : Option (Dispatcher σ)} {s : Session σ} {interrupts : List Bool}
    {line : Bytes} (h : (s.handleLine d interrupts line).quit = true) :
    Bytes.lower (Bytes.trim line) = ":quit" ∨ Bytes.lower (Bytes.trim line) = ":q" := by
  unfold handleLine at h
  split at h
  · cases h
  · next rest htrim =>
    rw [htrim]
    unfold control at h
    dsimp only at h
    split at h
    · next hq => simpa using hq
    · repeat' split at h
      all_goals cases h
  · split at h <;> cases h

/-- What is known of a run with its turns. -/
structure Shared (wire : σ → Bytes) (d : Dispatcher (Feed σ)) (s : Session (Feed σ)) (r : Ran σ)
    (turns : List (Turn σ)) : Prop where
  accounts : Feed.Accounts wire s.world (turns.flatMap (Turn.reads d))
    (turns.flatMap (Turn.wrote wire d)) r.session.world
  outputs : r.outputs = turns.flatMap (·.handled.outputs)
  proper : ∀ t ∈ turns, t.Proper wire d
  unread : r.session.world.input ≠ [] → r.session.cancelled = true ∨
    ∃ t, turns.getLast? = some t ∧ t.handled.quit = true

/-- A run goes on after a turn. -/
theorem Shared.cons (hd : Feed.Speaks wire d) {s : Session (Feed σ)} {r : Ran σ} {t : Turn σ}
    {turns : List (Turn σ)} (ht : t.Proper wire d)
    (hline : Feed.Accounts wire s.world [t.line] [] t.start.world)
    (h : Shared wire d t.handled.session r turns) :
    Shared wire d s { r with outputs := t.handled.outputs ++ r.outputs } (t :: turns) where
  accounts := (hline.trans (ht.accounts hd)).trans h.accounts
  outputs := by rw [h.outputs, List.flatMap_cons]
  proper := List.forall_mem_cons.mpr ⟨ht, h.proper⟩
  unread hu := by
    refine (h.unread hu).imp_right ?_
    rintro ⟨u, hlast, hquit⟩
    exact ⟨u, by rw [List.getLast?_cons, hlast]; rfl, hquit⟩

/-- A run ends with a turn: it quits, the run is cancelled, or the line is the last. -/
theorem Shared.last (hd : Feed.Speaks wire d) {s : Session (Feed σ)} {t : Turn σ} {r : Ran σ}
    (ht : t.Proper wire d) (hline : Feed.Accounts wire s.world [t.line] [] t.start.world)
    (hworld : r.session.world = t.handled.session.world) (hout : r.outputs = t.handled.outputs)
    (hend : r.session.cancelled = true ∨ t.handled.quit = true ∨ t.start.world.input = []) :
    Shared wire d s r [t] where
  accounts := by
    have h := hline.trans (ht.accounts hd)
    rw [hworld]
    simpa [Turn.reads] using h
  outputs := by simp [hout]
  proper := by simpa using ht
  unread hu := by
    rw [hworld] at hu
    refine hend.imp_right fun h => ⟨t, rfl, h.resolve_right fun hi => hu ?_⟩
    have hnone := (ht.accounts hd).input
    rw [hi] at hnone
    exact (List.append_eq_nil_iff.mp hnone).2

theorem takeLine_empty {s : Session (Feed σ)} (hi : s.world.input = []) : s.takeLine = ([], s) := by
  obtain ⟨settings, table, tree, ⟨input, rest⟩, cancelled⟩ := s
  obtain rfl : input = [] := hi
  rfl

theorem takeLine_isEmpty {s : Session (Feed σ)} (hi : s.world.input ≠ []) :
    s.takeLine.1.isEmpty = false := by
  simpa [takeLine] using Bytes.cutLine_ne_nil hi

theorem shared_runFor (hd : Feed.Speaks wire d) (fuel : Nat) (is : List Interruption)
    (s : Session (Feed σ)) (hfuel : s.world.input.length < fuel) :
    Shared wire d s (s.runFor (some d) fuel is) (s.turnsFor d fuel is) := by
  induction fuel generalizing is s with
  | zero => omega
  | succ fuel ih =>
    by_cases hi : s.world.input = []
    · rw [runFor, turnsFor, takeLine_empty hi]
      exact ⟨.refl _, rfl, by simp, fun hu => (hu hi).elim⟩
    · have htake : Feed.Accounts wire s.world [s.takeLine.1] [] s.takeLine.2.world :=
        s.accounts_takeLine
      have hproper := proper_handleLine hd s.takeLine.2 (is.headD {}).fragments s.takeLine.1
      have hread := htake.trans (hproper.accounts hd)
      have hshort : (s.takeLine.2.handleLine (some d) (is.headD {}).fragments
          s.takeLine.1).session.world.input.length < fuel := by
        have hlength := congrArg List.length hread.input
        have hline := List.length_pos_iff.mpr (List.isEmpty_eq_false_iff.mp (takeLine_isEmpty hi))
        simp only [List.singleton_append, List.flatten_cons, List.length_append] at hlength
        omega
      rw [runFor, turnsFor]
      simp only [takeLine_isEmpty hi, Bool.false_eq_true, if_false]
      split
      · next hstop =>
        rw [Bool.or_eq_true, Bool.not_eq_true'] at hstop
        exact .last hd hproper htake rfl rfl (.inr (hstop.imp_right Bytes.cutLine_open))
      · split
        · exact .last hd hproper htake rfl rfl (.inl rfl)
        · exact .cons hd hproper htake (ih _ _ hshort)

/-- A session and the line protocol share one input: each takes whole lines in turn, none is lost,
and the wire holds what the commands wrote. Input is left only where the run ends early. -/
theorem input_shared (hd : Feed.Speaks wire d) (is : List Interruption) (s : Session (Feed σ)) :
    let r := s.run (some d) is
    let turns := s.turns d is
    let reads := turns.flatMap (Turn.reads d)
    let unread := r.session.world.input
    r.outputs = turns.flatMap (·.handled.outputs) ∧
      reads.flatten ++ unread = s.world.input ∧
      reads.filter (!·.isEmpty) ++ Bytes.lines unread = Bytes.lines s.world.input ∧
      (unread ≠ [] → r.session.cancelled = true ∨
        ∃ t, turns.getLast? = some t ∧
          (Bytes.lower (Bytes.trim t.line) = ":quit" ∨ Bytes.lower (Bytes.trim t.line) = ":q")) ∧
      wire r.session.world.rest = wire s.world.rest ++ turns.flatMap (Turn.wrote wire d) ∧
      ∀ t ∈ turns, t.Proper wire d := by
  intro r turns reads unread
  obtain ⟨haccounts, houtputs, hproper, hunread⟩ := shared_runFor hd _ is s (Nat.lt_succ_self _)
  refine ⟨houtputs, haccounts.input, haccounts.lines.symm, fun hu => ?_, haccounts.wire, hproper⟩
  refine (hunread hu).imp_right ?_
  rintro ⟨t, hlast, hquit⟩
  have ht := hproper t (List.mem_of_getLast? hlast)
  rw [ht.handled] at hquit
  exact ⟨t, hlast, quit_handleLine hquit⟩

/-- A command that is answered, one that does not fit on a line, and one at the end of the input. -/
def threeCommands : Session (Feed Bytes) :=
  { settings := {}
    table := fun _ _ => []
    world := ⟨"[ FRAG:'a' ] ;\n0\r\n[ FRAG:'c\rd' ] ;\n[ FRAG:'e' ] ;", []⟩ }

theorem input_shared_threeCommands :
    Feed.Speaks id Feed.lineProtocol ∧
      let turns := threeCommands.turns Feed.lineProtocol []
      turns.flatMap (Turn.reads Feed.lineProtocol) =
          (["[ FRAG:'a' ] ;\n", "0\r\n", "[ FRAG:'c\rd' ] ;\n", "", "[ FRAG:'e' ] ;", ""] :
            List Bytes) ∧
        (turns.flatMap (Turn.reads Feed.lineProtocol)).flatten ++
            (threeCommands.run (some Feed.lineProtocol) []).session.world.input =
          threeCommands.world.input ∧
        (threeCommands.run (some Feed.lineProtocol) []).session.world.rest = "CMD:a\nCMD:e\n" ∧
        ∀ t ∈ turns, t.Proper id Feed.lineProtocol := by
  obtain ⟨-, hinput, -, -, -, hproper⟩ := input_shared Feed.speaks_lineProtocol [] threeCommands
  exact ⟨Feed.speaks_lineProtocol, by decide +kernel, hinput, by decide +kernel, hproper⟩

end Session

end TokenShell
