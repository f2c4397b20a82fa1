import Mathlib.Data.List.Basic
import TokenShell.Dispatch.LineProtocol

/-! The line protocol cannot be forged: every line on the wire is the request of one command, and
every command that goes out is answered by the reply line of its number. -/
namespace TokenShell

namespace Bytes

variable {xs ys : Bytes}

/-- The first of the lines is the one that is cut off. -/
theorem lines_cutLine (h : xs ≠ []) : lines xs = (cutLine xs).1 :: lines (cutLine xs).2 := by
  induction xs with
  | nil => exact (h rfl).elim
  | cons b xs ih =>
    rw [lines, cutLine]
    split
    · rfl
    · cases xs with
      | nil => rfl
      | cons c xs => rw [ih (List.cons_ne_nil c xs)]

theorem lines_line (h : newline ∉ xs) (ys : Bytes) :
    lines (xs ++ newline :: ys) = (xs ++ [newline]) :: lines ys := by
  induction xs with
  | nil => simp [lines]
  | cons b xs ih =>
    obtain ⟨hb, hxs⟩ : newline ≠ b ∧ newline ∉ xs := by simpa using h
    rw [List.cons_append, lines, if_neg (Ne.symm hb), ih hxs]
    rfl

end Bytes

namespace LineChannel

variable {c : LineChannel} {command : Bytes} {commands : List Bytes}

/-- Whether a command fits on one line. -/
def fits (command : Bytes) : Bool :=
  !command.contains Bytes.newline && !command.contains Bytes.carriageReturn

/-- Sends commands one after the other while the run is live, and collects the answers. -/
def exchange (c : LineChannel) : List Bytes → List (Except Fault Bytes) × LineChannel
  | [] => ([], c)
  | command :: commands =>
    let (reply, c) := c.send false command
    let (answers, c) := c.exchange commands
    (reply.answer :: answers, c)

/-- The command that a line asks for. -/
def command? (line : Bytes) : Option Bytes :=
  (line.dropPrefix? requestMark).bind (·.dropSuffix? [Bytes.newline])

/-- What the other side makes of the wire: a command for every line. -/
def received (wire : Bytes) : Option (List Bytes) := (Bytes.lines wire).mapM command?

/-- The answer that a reply line gives, its line break removed; there is none at the end of the
replies. -/
def answer : Option Bytes → Except Fault Bytes
  | some line => .ok (Bytes.trimRight isLineBreak line)
  | none => .error (.during "read status" (.plain "EOF"))

/-- The answer to a command that cannot be sent on one line. -/
def refusal (command : Bytes) : Except Fault Bytes :=
  let text := ("command " : Bytes) ++ Text.quoted command ++ (" contains a line break" : Bytes)
  .error (.plain text)

theorem any_isLineBreak (command : Bytes) : command.any isLineBreak = !fits command := by
  rw [Bool.eq_iff_iff]
  simp only [List.any_eq_true, isLineBreak, fits, Bool.not_eq_true', Bool.or_eq_true,
    decide_eq_true_eq, Bool.and_eq_false_iff, Bool.not_eq_false', List.contains_iff_mem]
  constructor
  · rintro ⟨b, hb, rfl | rfl⟩
    · exact Or.inl hb
    · exact Or.inr hb
  · rintro (hb | hb)
    · exact ⟨_, hb, Or.inl rfl⟩
    · exact ⟨_, hb, Or.inr rfl⟩

theorem newline_of_fits (h : fits command = true) : Bytes.newline ∉ command := by
  simp only [fits, Bool.and_eq_true, Bool.not_eq_true', List.contains_eq_mem,
    decide_eq_false_iff_not] at h
  exact h.1

theorem command?_request (command : Bytes) : command? (request command) = some command := by
  have hmark : (request command).dropPrefix? requestMark = some (command ++ [Bytes.newline]) := by
    refine List.dropPrefix?_eq_some_iff.mpr ⟨requestMark, ?_, by simp⟩
    rw [request, List.append_assoc]
  rw [command?, hmark]
  exact List.dropSuffix?_eq_some_iff.mpr ⟨[Bytes.newline], rfl, by simp⟩

theorem lines_request (h : fits command = true) (wire : Bytes) :
    Bytes.lines (request command ++ wire) = request command :: Bytes.lines wire := by
  have hfree : Bytes.newline ∉ requestMark ++ command := by
    rw [List.mem_append, not_or]
    exact ⟨by decide, newline_of_fits h⟩
  rw [request, List.append_assoc, List.singleton_append, Bytes.lines_line hfree]

/-- Requests that fit on a line each are read back one by one. -/
theorem received_requests (h : ∀ command ∈ commands, fits command = true) :
    received (commands.flatMap request) = some commands := by
  induction commands with
  | nil => rfl
  | cons command commands ih =>
    obtain ⟨hc, hcs⟩ := List.forall_mem_cons.mp h
    have hrest : (Bytes.lines (commands.flatMap request)).mapM command? = some commands := ih hcs
    rw [received, List.flatMap_cons, lines_request hc, List.mapM_cons, command?_request, hrest]
    rfl

/-- A command that does not fit leaves the channel as it is. -/
theorem send_unfit (h : fits command = false) :
    c.send false command = ({ answer := refusal command }, c) := by
  rw [send, any_isLineBreak, h]
  rfl

/-- A command that fits goes out as one request and takes the next reply line. -/
theorem send_fits (h : fits command = true) (hb : c.broken = none) :
    (c.send false command).1.answer = answer (Bytes.lines c.input).head? ∧
      (c.send false command).2.wire = c.wire ++ request command ∧
      (c.send false command).2.broken = none ∧
      Bytes.lines (c.send false command).2.input = (Bytes.lines c.input).tail := by
  have hsend : c.send false command =
      readStatus command { c with wire := c.wire ++ request command } := by
    rw [send, any_isLineBreak, h, hb]
    rfl
  rw [hsend, readStatus]
  split
  · next hi =>
    have hi : c.input = [] := hi
    simp [hi, Bytes.lines, answer, hb]
  · next hi =>
    rw [Bytes.lines_cutLine hi]
    exact ⟨rfl, rfl, hb, rfl⟩

theorem exchange_cons (c : LineChannel) (command : Bytes) (commands : List Bytes) :
    c.exchange (command :: commands) =
      ((c.send false command).1.answer :: ((c.send false command).2.exchange commands).1,
        ((c.send false command).2.exchange commands).2) := rfl

theorem length_exchange (c : LineChannel) (commands : List Bytes) :
    (c.exchange commands).1.length = commands.length := by
  induction commands generalizing c with
  | nil => rfl
  | cons command commands ih => simp [exchange_cons, ih]

theorem exchange_refused (c : LineChannel) (commands : List Bytes) :
    ∀ p ∈ commands.zip (c.exchange commands).1, fits p.1 = false → p.2 = refusal p.1 := by
  induction commands generalizing c with
  | nil => simp
  | cons command commands ih =>
    rw [exchange_cons, List.zip_cons_cons, List.forall_mem_cons]
    refine ⟨fun hf => ?_, ih _⟩
    rw [send_unfit hf]

/-- What a working channel has written, what it has left unread, and what it answered to the
commands that it sent. -/
theorem exchange_spec (hb : c.broken = none) (commands : List Bytes) :
    (c.exchange commands).2.wire = c.wire ++ (commands.filter fits).flatMap request ∧
      Bytes.lines (c.exchange commands).2.input =
        (Bytes.lines c.input).drop (commands.filter fits).length ∧
      ((commands.zip (c.exchange commands).1).filter (fits ·.1)).map Prod.snd =
        (List.range (commands.filter fits).length).map fun k =>
          answer (Bytes.lines c.input)[k]? := by
  induction commands generalizing c with
  | nil => simp [exchange]
  | cons command commands ih =>
    rw [exchange_cons]
    cases hf : fits command with
    | false =>
      rw [send_unfit hf]
      simpa [hf] using ih hb
    | true =>
      obtain ⟨hanswer, hwire, hbroken, hlines⟩ := send_fits hf hb
      obtain ⟨hw, hl, ha⟩ := ih hbroken
      have hfilter : (command :: commands).filter fits = command :: commands.filter fits :=
        List.filter_cons_of_pos hf
      rw [hfilter]
      refine ⟨?_, ?_, ?_⟩
      · rw [hw, hwire, List.append_assoc, List.flatMap_cons]
      · rw [hl, hlines, List.length_cons, List.drop_tail]
      · -- The answers to the other commands start at the second line.
        rw [List.length_cons, List.range_succ_eq_map, List.zip_cons_cons,
          List.filter_cons_of_pos (by exact hf), List.map_cons, ha, hanswer, hlines]
        simp [List.head?_eq_getElem?]

/-- The wire holds one request for each command that fits on a line, and they can be read back. They
are answered by the reply lines in order; the others are refused. -/
theorem requests_unforgeable (replies : Bytes) (commands : List Bytes) :
    let r := exchange { input := replies } commands
    let sent := commands.filter fits
    r.2.wire = sent.flatMap (fun command => ("CMD:" : Bytes) ++ command ++ [Bytes.newline]) ∧
      received r.2.wire = some sent ∧
      r.1.length = commands.length ∧
      (∀ p ∈ commands.zip r.1, fits p.1 = false → p.2 = refusal p.1) ∧
      ((commands.zip r.1).filter (fits ·.1)).map Prod.snd =
        (List.range sent.length).map fun k => answer (Bytes.lines replies)[k]? := by
  intro r sent
  obtain ⟨hwire, -, hanswers⟩ := exchange_spec (c := { input := replies }) rfl commands
  have hwire : r.2.wire = sent.flatMap request := hwire
  refine ⟨hwire, ?_, length_exchange _ commands, exchange_refused _ commands, hanswers⟩
  rw [hwire]
  exact received_requests fun command hc => (List.mem_filter.mp hc).2

end LineChannel

end TokenShell
