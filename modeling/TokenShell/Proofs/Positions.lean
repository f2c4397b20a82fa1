import TokenShell.Proofs.Lexemes

/-! Where a line is flawed. A flaw shows at the first byte after which no line can be completed, and
a value that is not complete is put down to the name it belongs to. -/
namespace TokenShell.Line

variable {p p' : Pending} {b : UInt8} {line pre rest name value : Bytes} {now ts us : List Token}
  {pos start : Nat} {e : SyntaxError} {done : List Lexeme} {body : List Piece}

/-- Whether a line is read into tokens. -/
def Accepted (line : Bytes) : Prop := ∃ ts, tokenize line = .ok ts

theorem append_ne_of_head {a c : Bytes} (x : Bytes) (h : a.head?.isSome ∧ a.head? ≠ c.head?) :
    a ++ x ≠ c := by
  rintro rfl
  cases a with
  | nil => cases h.1
  | cons b a => exact h.2 rfl

/-- The messages of the other flaws begin with other letters. -/
theorem message_eq_incomplete (f : Flaw) :
    f.message = "incomplete token value" ↔ f = .incomplete := by
  refine ⟨fun h => ?_, fun h => h ▸ rfl⟩
  cases f with
  | incomplete => rfl
  | unquotedValue name => exact (append_ne_of_head _ (by decide +kernel) h).elim
  | unexpected b => exact (append_ne_of_head _ (by decide +kernel) h).elim
  | namelessValue | strayQuote => exact absurd h (by decide +kernel)

namespace Pending

/-- A byte that is refused is named by its own offset. -/
theorem step_error (h : p.step pos b = .error e) : e.position = pos ∧ e.flaw ≠ .incomplete := by
  cases p with
  | between | bare start name =>
    simp only [step] at h
    split_ifs at h <;> cases h <;> exact ⟨rfl, by simp⟩
  | colon start name =>
    simp only [step] at h
    split_ifs at h
    cases h
    exact ⟨rfl, by simp⟩
  | valued start name value escaped =>
    cases escaped with
    | true => cases h
    | false =>
      simp only [step] at h
      split_ifs at h

/-- From wherever a line has been read to, it can be completed. -/
theorem exists_reads (p : Pending) : ∃ more ts, Reads p more ts := by
  have hclose : ∀ start name value, Reads (.valued start name value false) [Quoting.quote]
      [⟨name, value ++ []⟩] :=
    fun start name value => reads_value resumes_nil.between value []
  cases p with
  | between => exact ⟨[], [], resumes_nil.between⟩
  | bare start name => exact ⟨[], _, resumes_nil.bare start name⟩
  | colon start name =>
    have hopen := Reads.cons (p := .colon start name) (b := Quoting.quote) [] fun _ =>
      ⟨.valued start name [] false, rfl, hclose start name []⟩
    exact ⟨_, _, hopen⟩
  | valued start name value escaped =>
    cases escaped with
    | false => exact ⟨_, _, hclose start name value⟩
    | true =>
      have hescaped :=
        Reads.cons (p := .valued start name value true) (b := Quoting.quote) [] fun _ =>
        ⟨.valued start name (value ++ [Quoting.quote]) false, rfl, hclose start name _⟩
      exact ⟨_, _, hescaped⟩

end Pending

/-! Beginnings of lines. -/

/-- The beginning of a line, read without a flaw: the tokens it completes and the token then under
way. -/
inductive Reached : Bytes → List Token → Pending → Prop where
  | nil : Reached [] [] .between
  | step {pre : Bytes} {ts now : List Token} {p p' : Pending} {b : UInt8} (h : Reached pre ts p)
      (hb : p.step pre.length b = .ok (now, p')) :
      Reached (pre ++ [b]) (ts ++ now) p'

namespace Reached

/-- The rest of the line is read from there on. -/
theorem tokenize (h : Reached pre ts p) (rest : Bytes) :
    tokenize (pre ++ rest) = (read pre.length p rest).map (ts ++ ·) := by
  induction h generalizing rest with
  | nil =>
    show Line.tokenize rest = (Line.tokenize rest).map _
    cases Line.tokenize rest <;> rfl
  | @step pre ts now p p' b _ hb ih =>
    rw [List.append_assoc, List.singleton_append, ih, read, hb, List.length_append,
      List.length_singleton]
    dsimp only
    cases read (pre.length + 1) p' rest with
    | error e => rfl
    | ok us => simp [Except.map]

theorem refused (h : Reached pre ts p) (hb : p.step pre.length b = .error e) (rest : Bytes) :
    Line.tokenize (pre ++ b :: rest) = .error e := by
  rw [h.tokenize, read, hb]
  rfl

theorem finish (h : Reached pre ts p) : Line.tokenize pre = p.finish.map (ts ++ ·) := by
  have hread := h.tokenize []
  rwa [List.append_nil, read] at hread

theorem finish_error (h : Reached pre ts p) (he : Line.tokenize pre = .error e) :
    p.finish = .error e := by
  rw [h.finish] at he
  cases hf : p.finish with
  | ok us =>
    rw [hf] at he
    cases he
  | error e' =>
    rw [hf] at he
    cases he
    rfl

theorem accepted (h : Reached pre ts p) : ∃ more, Accepted (pre ++ more) := by
  obtain ⟨more, us, hmore⟩ := p.exists_reads
  exact ⟨more, ts ++ us, by rw [h.tokenize, hmore]; rfl⟩

end Reached

/-- A line is read to its end, or up to a byte that is refused. -/
theorem reached_or_refused (line : Bytes) : (∃ ts p, Reached line ts p) ∨
    ∃ pre b rest ts p e, line = pre ++ b :: rest ∧ Reached pre ts p ∧
      p.step pre.length b = .error e := by
  induction line using List.reverseRecOn with
  | nil => exact Or.inl ⟨[], .between, .nil⟩
  | append_singleton line b ih =>
    rcases ih with ⟨ts, p, h⟩ | ⟨pre, c, rest, ts, p, e, rfl, h, hc⟩
    · rcases hb : p.step line.length b with e | ⟨now, p'⟩
      · exact Or.inr ⟨line, b, [], ts, p, e, rfl, h, hb⟩
      · exact Or.inl ⟨_, _, h.step hb⟩
    · exact Or.inr ⟨pre, c, rest ++ [b], ts, p, e, by simp, h, hc⟩

theorem Complete.concat {more : List Lexeme} (h : Complete done) (hm : Complete more) :
    Complete (done ++ more) := by
  refine ⟨h.append hm.toWellFormed, ?_⟩
  intro l hl
  rw [List.getLast?_append] at hl
  cases hmore : more.getLast? with
  | none =>
    rw [hmore] at hl
    exact h.last l hl
  | some k =>
    rw [hmore] at hl
    exact hm.last l (by rwa [hmore])

/-- What has been read is lexemes that are complete, and the token under way behind them. -/
theorem Reached.spelt (h : Reached pre ts p) : p.Sound ∧ ∃ done cur, Complete done ∧
    done.filterMap Lexeme.token? = ts ∧ p.Spelt cur ∧ pre = done.flatMap Lexeme.text ++ cur ∧
    ∀ start ∈ p.start?, start = (done.flatMap Lexeme.text).length := by
  induction h with
  | nil => exact ⟨trivial, [], [], complete_nil, rfl, rfl, rfl, by simp [Pending.start?]⟩
  | @step pre ts now p p' b _ hb ih =>
    obtain ⟨hsound, done, cur, hdone, rfl, hcur, rfl, hstart⟩ := ih
    refine ⟨(hsound.step hb).1, ?_⟩
    by_cases hbetween : p' = .between
    · subst hbetween
      obtain ⟨more, hmore, rfl, htext⟩ := hcur.ends hsound hb
      refine ⟨done ++ more, [], ?_, by simp, rfl, ?_, by simp [Pending.start?]⟩
      · exact hdone.concat hmore
      · rw [List.flatMap_append, List.append_assoc, htext, List.append_nil]
    · obtain ⟨rfl, hbegins, hcur'⟩ := hcur.goesOn hb hbetween
      refine ⟨done, cur ++ [b], hdone, by simp, hcur', by simp, ?_⟩
      intro start hs
      rw [hbegins] at hs
      cases p with
      | between =>
        -- No token was under way, so that nothing stands behind the complete lexemes.
        obtain rfl : cur = [] := hcur
        cases hs
        rw [List.append_nil]
        rfl
      | bare _ _ | colon _ _ | valued _ _ _ _ => exact hstart start hs

/-! Values that are not complete. -/

/-- What stands behind a name whose value is not complete: the colon, and the value so far. -/
def Opening (rest : Bytes) : Prop :=
  rest = [0x3a] ∨ ∃ (body : List Piece) (escaped : Bool), (∀ q ∈ body, q.Fits) ∧
    rest = 0x3a :: Quoting.quote ::
      (body.flatMap Piece.text ++ if escaped then [Quoting.backslash] else [])

/-- A line of complete lexemes and, behind them, a valued token that is not complete. Its name
begins at the offset. -/
def Unfinished (line : Bytes) (start : Nat) : Prop :=
  ∃ done name rest, Complete done ∧ Lexeme.Name name ∧ Opening rest ∧
    line = done.flatMap Lexeme.text ++ (name ++ rest) ∧ start = (done.flatMap Lexeme.text).length

theorem Reached.unfinished (h : Reached line ts p) (hp : p.finish = .error e) :
    Unfinished line e.position ∧ e.flaw = .incomplete := by
  obtain ⟨hsound, done, cur, hdone, -, hcur, rfl, hstart⟩ := h.spelt
  cases p with
  | between => cases hp
  | bare _ _ => cases hp
  | colon start name =>
    cases hp
    obtain rfl : cur = name ++ [0x3a] := hcur
    exact ⟨⟨done, name, [0x3a], hdone, hsound, Or.inl rfl, rfl, hstart start rfl⟩, rfl⟩
  | valued start name value escaped =>
    cases hp
    obtain ⟨body, hbody, -, rfl⟩ := hcur
    exact ⟨⟨done, name, _, hdone, hsound, Or.inr ⟨body, escaped, hbody, rfl⟩, rfl,
      hstart start rfl⟩,
      rfl⟩

theorem accepted_complete (h : Complete done) : Accepted (done.flatMap Lexeme.text) :=
  ⟨_, (reads_lexemes h.toWellFormed).1 0⟩

/-- Behind complete lexemes no token is under way. -/
theorem Complete.reached (h : Complete done) :
    ∃ ts, Reached (done.flatMap Lexeme.text) ts .between := by
  obtain ⟨us, hread⟩ := accepted_complete h
  rcases reached_or_refused (done.flatMap Lexeme.text) with
    ⟨ts, p, hp⟩ | ⟨pre, b, rest, ts, p, e, hline, hp, hb⟩
  · obtain ⟨hsound, done', cur, hdone', -, hcur, htext, -⟩ := hp.spelt
    rw [hp.finish] at hread
    cases p with
    | between => exact ⟨ts, hp⟩
    | bare start name =>
      obtain rfl : cur = name := hcur
      have hfits : Lexeme.Fits (.bare cur) := hsound
      have hbare : WellFormed (done' ++ [.bare cur]) :=
        hdone'.append ⟨by simpa using hfits, .singleton _⟩
      have hsame := lexemes_unique h.toWellFormed hbare (by simpa [Lexeme.text] using htext)
      have hlast := h.last (.bare cur) (by simp [hsame]) (.bare cur)
      cases hlast
    | colon _ _ => cases hread
    | valued _ _ _ _ => cases hread
  · rw [hline, hp.refused hb] at hread
    cases hread

namespace Reached

theorem quiet (h : Reached pre ts p) (hb : p.step pre.length b = .ok ([], p')) :
    Reached (pre ++ [b]) ts p' := by
  have hstep := h.step hb
  rwa [List.append_nil] at hstep

theorem more (h : Reached pre ts (.bare start name)) (hm : ∀ b ∈ rest, isNameByte b = true) :
    Reached (pre ++ rest) ts (.bare start (name ++ rest)) := by
  induction rest generalizing pre name with
  | nil => simpa using h
  | cons b rest ih =>
    obtain ⟨hb, hrest⟩ := List.forall_mem_cons.mp hm
    obtain ⟨hblank, hmark, hcolon, hquote⟩ := isNameByte_apart hb
    have hnext : Reached (pre ++ [b]) ts (.bare start (name ++ [b])) :=
      h.quiet (by simp [Pending.step, hblank, hmark, hcolon, hquote, hb])
    simpa using ih hnext hrest

theorem named (h : Reached pre ts .between) (hn : Lexeme.Name name) :
    Reached (pre ++ name) ts (.bare pre.length name) := by
  cases name with
  | nil => exact (hn.1 rfl).elim
  | cons b name =>
    obtain ⟨hb, hname⟩ := List.forall_mem_cons.mp hn.isNameByte
    obtain ⟨hblank, hmark, hcolon, hquote⟩ := isNameByte_apart hb
    have hfirst : Reached (pre ++ [b]) ts (.bare pre.length [b]) :=
      h.quiet (by simp [Pending.step, hblank, hmark, hcolon, hquote, hb])
    simpa using hfirst.more hname

theorem pieces (h : Reached pre ts (.valued start name value false)) (hb : ∀ q ∈ body, q.Fits) :
    ∃ value', Reached (pre ++ body.flatMap Piece.text) ts (.valued start name value' false) := by
  induction body generalizing pre value with
  | nil => exact ⟨value, by simpa using h⟩
  | cons q body ih =>
    obtain ⟨hq, hbody⟩ := List.forall_mem_cons.mp hb
    have hnext : Reached (pre ++ q.text) ts (.valued start name (value ++ [q.byte]) false) := by
      cases q with
      | plain b => exact h.quiet (by simp [Pending.step, hq.1, hq.2, Piece.byte])
      | escaped b =>
        have hback : Reached (pre ++ [Quoting.backslash]) ts (.valued start name value true) :=
          h.quiet rfl
        simpa [Piece.text, Piece.byte] using hback.quiet (b := b) rfl
    obtain ⟨value', hend⟩ := ih hnext hbody
    exact ⟨value', by simpa using hend⟩

/-- Behind the opening of a value that is not complete, the token is put down to its first byte. -/
theorem opening (h : Reached pre ts .between) (hn : Lexeme.Name name) (hr : Opening rest) :
    ∃ p, Reached (pre ++ (name ++ rest)) ts p ∧ p.finish = .error ⟨pre.length, .incomplete⟩ := by
  have hcolon : Reached (pre ++ name ++ [0x3a]) ts (.colon pre.length name) :=
    (h.named hn).quiet rfl
  rcases hr with rfl | ⟨body, escaped, hbody, rfl⟩
  · exact ⟨_, by simpa using hcolon, rfl⟩
  · have hquote : Reached (pre ++ name ++ [0x3a] ++ [Quoting.quote]) ts
        (.valued pre.length name [] false) := hcolon.quiet rfl
    obtain ⟨value, hvalue⟩ := hquote.pieces hbody
    cases escaped with
    | false => exact ⟨_, by simpa using hvalue, rfl⟩
    | true =>
      have hback := hvalue.quiet (b := Quoting.backslash) rfl
      exact ⟨_, by simpa using hback, rfl⟩

end Reached

/-- A value is found to be incomplete just if the line is unfinished, and at that offset. -/
theorem incomplete_iff :
    tokenize line = .error ⟨start, .incomplete⟩ ↔ Unfinished line start := by
  refine ⟨fun h => ?_, ?_⟩
  · rcases reached_or_refused line with ⟨ts, p, hp⟩ | ⟨pre, b, rest, ts, p, e, rfl, hp, hb⟩
    · exact (hp.unfinished (hp.finish_error h)).1
    · rw [hp.refused hb] at h
      cases h
      exact ((Pending.step_error hb).2 rfl).elim
  · rintro ⟨done, name, rest, hdone, hn, hr, rfl, rfl⟩
    obtain ⟨ts, hbetween⟩ := hdone.reached
    obtain ⟨p, hp, hf⟩ := hbetween.opening hn hr
    rw [hp.finish, hf]
    rfl

theorem Unfinished.accepted_take (h : Unfinished line start) : Accepted (line.take start) := by
  obtain ⟨done, name, rest, hdone, -, -, rfl, rfl⟩ := h
  rw [List.take_left]
  exact accepted_complete hdone

theorem Unfinished.lt (h : Unfinished line start) : start < line.length := by
  obtain ⟨done, name, rest, -, hn, -, rfl, rfl⟩ := h
  have hpos := List.length_pos_of_ne_nil hn.1
  rw [List.length_append, List.length_append]
  omega

/-- An incomplete value is put down to the name of its token, before which the line is accepted; any
other flaw to the first byte after which no line can be completed. -/
theorem flaw_positions_exact (h : tokenize line = .error e) :
    e.position < line.length ∧
    (e.flaw.message = "incomplete token value" →
      (∃ more, Accepted (line ++ more)) ∧ Accepted (line.take e.position) ∧
      Unfinished line e.position ∧ ∀ start, Unfinished line start → start = e.position) ∧
    (e.flaw.message ≠ "incomplete token value" →
      (∃ more, Accepted (line.take e.position ++ more)) ∧
      ∀ more, ¬ Accepted (line.take (e.position + 1) ++ more)) := by
  simp only [message_eq_incomplete, ne_eq]
  rcases reached_or_refused line with ⟨ts, p, hp⟩ | ⟨pre, b, rest, ts, p, e', rfl, hp, hb⟩
  · obtain ⟨hunfinished, hflaw⟩ := hp.unfinished (hp.finish_error h)
    refine ⟨hunfinished.lt, fun _ => ⟨hp.accepted, hunfinished.accepted_take, hunfinished, ?_⟩, ?_⟩
    · intro start hs
      rw [incomplete_iff.mpr hs] at h
      cases h
      rfl
    · exact fun hne => (hne hflaw).elim
  · rw [hp.refused hb] at h
    cases h
    obtain ⟨hpos, hflaw⟩ := Pending.step_error hb
    rw [hpos]
    refine ⟨by simp, fun hi => (hflaw hi).elim, fun _ => ⟨?_, ?_⟩⟩
    · rw [List.take_left]
      exact hp.accepted
    · rintro more ⟨us, hread⟩
      have htake : (pre ++ b :: rest).take (pre.length + 1) ++ more = pre ++ b :: more := by
        rw [List.take_length_add_append]
        simp
      rw [htake, hp.refused hb] at hread
      cases hread

/-- A value that ends in a backslash, right behind another that holds a quote; and a quote behind a
bare name. -/
theorem flaw_positions_exact_hardLines :
    let dangling := Bytes.ofString "(exp ID:'a\\''INT:'4\\"
    let stray := Bytes.ofString "ID:'a'x1 y'z"
    tokenize dangling = .error ⟨13, .incomplete⟩ ∧ (∃ more, Accepted (dangling ++ more)) ∧
      Accepted (dangling.take 13) ∧ Unfinished dangling 13 ∧
    tokenize stray = .error ⟨10, .strayQuote⟩ ∧ (∃ more, Accepted (stray.take 10 ++ more)) ∧
      ∀ more, ¬ Accepted (stray.take 11 ++ more) := by
  intro dangling stray
  have hdangling : tokenize dangling = .error ⟨13, .incomplete⟩ := by decide +kernel
  have hstray : tokenize stray = .error ⟨10, .strayQuote⟩ := by decide +kernel
  obtain ⟨hmore, htake, hunfinished, -⟩ := (flaw_positions_exact hdangling).2.1 rfl
  obtain ⟨hbefore, hafter⟩ := (flaw_positions_exact hstray).2.2 (by decide +kernel)
  exact ⟨hdangling, hmore, htake, hunfinished, hstray, hbefore, hafter⟩

end TokenShell.Line
