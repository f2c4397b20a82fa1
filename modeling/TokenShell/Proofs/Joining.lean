import TokenShell.Proofs.Depth
import TokenShell.Proofs.Positions

/-! Lines joined at a blank. Behind a line that is read and a blank nothing is left under way, so
that what follows is read as a line of its own, with its flaws at the offsets it has in the whole.
-/
namespace TokenShell.Line

/-- The same flaw in a text that begins further on. -/
def SyntaxError.shift (n : Nat) (e : SyntaxError) : SyntaxError :=
  { e with position := e.position + n }

/-- The same token under way in a text that begins further on. -/
def Pending.shift (n : Nat) : Pending → Pending
  | .between => .between
  | .bare start name => .bare (start + n) name
  | .colon start name => .colon (start + n) name
  | .valued start name value escaped => .valued (start + n) name value escaped

variable {p : Pending} {w : UInt8} {line : Bytes} {now ts : List Token}

/-! Reading does not depend on where a text begins, and its flaws go along with the text. -/

theorem step_shift (n pos : Nat) (p : Pending) (b : UInt8) :
    (p.shift n).step (pos + n) b =
      ((p.step pos b).map (Prod.map id (Pending.shift n))).mapError (SyntaxError.shift n) := by
  cases p with
  | between | bare start name | colon start name =>
    simp only [Pending.shift, Pending.step]
    split_ifs <;> rfl
  | valued start name value escaped =>
    cases escaped with
    | true => rfl
    | false =>
      simp only [Pending.shift, Pending.step]
      split_ifs <;> rfl

theorem read_shift (n pos : Nat) (p : Pending) (line : Bytes) :
    read (pos + n) (p.shift n) line = (read pos p line).mapError (SyntaxError.shift n) := by
  induction line generalizing pos p with
  | nil => cases p <;> rfl
  | cons b line ih =>
    rw [read, read, step_shift]
    rcases p.step pos b with e | ⟨now, p'⟩
    · rfl
    · have hrest := ih (pos + 1) p'
      rw [Nat.add_right_comm] at hrest
      simp only [Except.map, Except.mapError, Prod.map, id, hrest]
      cases read (pos + 1) p' line <;> rfl

/-! A blank after a line that is read. -/

/-- A blank completes what the end of the line would complete. -/
theorem step_blank (h : p.finish = .ok now) (hw : isBlank w = true) (pos : Nat) :
    p.step pos w = .ok (now, .between) := by
  cases p with
  | between | bare start name =>
    cases h
    simp [Pending.step, hw]
  | colon _ _ | valued _ _ _ _ => cases h

theorem reached_blank (h : tokenize line = .ok ts) (hw : isBlank w = true) :
    Reached (line ++ [w]) ts .between := by
  rcases reached_or_refused line with ⟨us, p, hp⟩ | ⟨pre, b, rest, us, p, e, rfl, hp, hb⟩
  · rw [hp.finish] at h
    cases hf : p.finish with
    | ok now =>
      rw [hf] at h
      cases h
      exact hp.step (step_blank hf hw _)
    | error e =>
      rw [hf] at h
      cases h
  · rw [hp.refused hb] at h
    cases h

theorem tokenize_append_blank (h : tokenize line = .ok ts) (hw : isBlank w = true)
    (rest : Bytes) :
    tokenize (line ++ w :: rest) =
      ((tokenize rest).mapError (SyntaxError.shift (line.length + 1))).map (ts ++ ·) := by
  have hread := read_shift (line.length + 1) 0 .between rest
  rw [Nat.zero_add] at hread
  rw [List.append_cons, (reached_blank h hw).tokenize, List.length_append, List.length_singleton,
    tokenize, ← hread]
  rfl

theorem tokenize_concat_blank (h : tokenize line = .ok ts) (hw : isBlank w = true) :
    tokenize (line ++ [w]) = .ok ts := by
  rw [(reached_blank h hw).finish]
  exact congrArg Except.ok (List.append_nil ts)

/-- Behind a line that is read and a blank, any text is read as it is on its own, flaws and depth
included. -/
theorem lines_joined_at_blank (h : tokenize line = .ok ts) (hw : Lexeme.Blank w) (rest : Bytes) :
    (∀ us, tokenize rest = .ok us → tokenize (line ++ w :: rest) = .ok (ts ++ us)) ∧
    (∀ e, tokenize rest = .error e →
      tokenize (line ++ w :: rest) = .error ⟨e.position + (line.length + 1), e.flaw⟩) ∧
    depth (line ++ w :: rest) = depth line + depth rest := by
  have hblank := (isBlank_iff w).mpr hw
  have hjoined := tokenize_append_blank h hblank rest
  refine ⟨fun us hus => ?_, fun e he => ?_, ?_⟩
  · rw [hjoined, hus]
    rfl
  · rw [hjoined, he]
    rfl
  · rw [List.append_cons, depth_tokenize_append (tokenize_concat_blank h hblank), depth_tokenize h]

/-- A line that ends in a bare name, behind a value with an escaped quote and a marker, joined to a
line that is read and to one that is not. -/
theorem lines_joined_at_blank_bareName :
    let line := Bytes.ofString "(exp ID:'\\'(' x"
    let ts : List Token := [⟨"(", []⟩, ⟨"exp", []⟩, ⟨"ID", "'("⟩, ⟨"x", []⟩]
    let rest := Bytes.ofString "y)INT:'4\\2';"
    let us : List Token := [⟨"y", []⟩, ⟨")", []⟩, ⟨"INT", "42"⟩, ⟨";", []⟩]
    let flawed := Bytes.ofString ") INT:')\\"
    tokenize line = .ok ts ∧ Lexeme.Blank 0x09 ∧
      tokenize (line ++ 0x09 :: rest) = .ok (ts ++ us) ∧ depth (line ++ 0x09 :: rest) = 0 ∧
      tokenize flawed = .error ⟨2, .incomplete⟩ ∧
      tokenize (line ++ 0x09 :: flawed) = .error ⟨18, .incomplete⟩ ∧
      depth (line ++ 0x09 :: flawed) = depth line + depth flawed := by
  intro line ts rest us flawed
  have hline : tokenize line = .ok ts := by decide +kernel
  have hrest : tokenize rest = .ok us := by decide +kernel
  have hflawed : tokenize flawed = .error ⟨2, .incomplete⟩ := by decide +kernel
  have htab : Lexeme.Blank 0x09 := by decide
  have hdepth : depth line + depth rest = 0 := by decide +kernel
  obtain ⟨hread, -, hsum⟩ := lines_joined_at_blank hline htab rest
  obtain ⟨-, hflaw, hsum'⟩ := lines_joined_at_blank hline htab flawed
  exact ⟨hline, htab, hread us hrest, hsum.trans hdepth, hflawed, hflaw _ hflawed, hsum'⟩

end TokenShell.Line
