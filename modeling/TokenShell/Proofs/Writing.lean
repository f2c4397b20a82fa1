import Mathlib.Data.List.Basic
import TokenShell.Token.Line

/-! Reading and writing of token lines: what is written is read back, and only what can be written
is read. -/
namespace TokenShell

namespace Token

/-- A byte that names are made of. -/
def Alphabetic (b : UInt8) : Prop :=
  'A'.toNat ≤ b.toNat ∧ b.toNat ≤ 'Z'.toNat ∨ 'a'.toNat ≤ b.toNat ∧ b.toNat ≤ 'z'.toNat ∨
    '0'.toNat ≤ b.toNat ∧ b.toNat ≤ '9'.toNat ∨ b.toNat = '_'.toNat

instance : DecidablePred Alphabetic := fun _ => inferInstanceAs (Decidable (_ ∨ _))

/-- A token that a line can hold: a marker, or a name with any bytes for its value. -/
def Representable (t : Token) : Prop :=
  t.value = [] ∧ t.name ∈ Marker.all.map Marker.name ∨ t.name ≠ [] ∧ ∀ b ∈ t.name, Alphabetic b

instance : DecidablePred Representable := fun _ => inferInstanceAs (Decidable (_ ∨ _))

end Token

namespace Line

variable {p : Pending} {b : UInt8} {line rest name : Bytes} {now ts : List Token} {start : Nat}
  {t : Token}

theorem isNameByte_iff (b : UInt8) : isNameByte b = true ↔ Token.Alphabetic b := by
  simp only [isNameByte, Bytes.isDigit, Bool.or_eq_true, Bool.and_eq_true, decide_eq_true_eq,
    UInt8.le_iff_toNat_le, ← UInt8.toNat_inj, UInt8.reduceToNat, Token.Alphabetic, Char.reduceToNat]
  omega

/-- No byte of a name has another meaning between tokens. -/
theorem isNameByte_apart {b : UInt8} (h : isNameByte b = true) :
    isBlank b = false ∧ isMarker b = false ∧ b ≠ 0x3a ∧ b ≠ Quoting.quote := by
  rw [isNameByte_iff] at h
  simp only [Token.Alphabetic, Char.reduceToNat] at h
  have hblank : isBlank b = false := by
    simp only [isBlank, Bool.or_eq_false_iff, decide_eq_false_iff_not, ← UInt8.toNat_inj,
      UInt8.reduceToNat]
    omega
  have hmark : isMarker b = false := by
    simp [isMarker, Marker.ofByte?, Marker.all, Marker.byte, ← UInt8.toNat_inj]
    omega
  refine ⟨hblank, hmark, ?_⟩
  simp only [Quoting.quote, ne_eq, ← UInt8.toNat_inj, UInt8.reduceToNat]
  omega

theorem isMarker_iff (b : UInt8) : isMarker b = true ↔ [b] ∈ Marker.all.map Marker.name := by
  rw [isMarker, Marker.ofByte?, List.find?_isSome]
  simp [Marker.name]

theorem isMarker_apart {b : UInt8} (h : isMarker b = true) : isBlank b = false := by
  obtain ⟨m, -, hm⟩ := List.mem_map.mp ((isMarker_iff b).mp h)
  obtain rfl : m.byte = b := (List.cons.inj hm).1
  cases m <;> rfl

/-! Reading back. Where a line is read without a flaw, the offsets in it do not matter. -/

/-- The rest of a line is read into these tokens, at whatever offset it stands. -/
def Reads (p : Pending) (rest : Bytes) (ts : List Token) : Prop := ∀ pos, read pos p rest = .ok ts

theorem Reads.cons (now : List Token)
    (h : ∀ pos, ∃ p', p.step pos b = .ok (now, p') ∧ Reads p' rest ts) :
    Reads p (b :: rest) (now ++ ts) := by
  intro pos
  obtain ⟨p', hstep, hrest⟩ := h pos
  rw [read, hstep]
  dsimp only
  rw [hrest (pos + 1)]

/-- Text that may stand after any token: a bare name before it is complete. -/
structure Resumes (rest : Bytes) (ts : List Token) : Prop where
  between : Reads .between rest ts
  bare : ∀ start name, Reads (.bare start name) rest (⟨name, []⟩ :: ts)

theorem resumes_nil : Resumes [] [] := ⟨fun _ => rfl, fun _ _ _ => rfl⟩

theorem resumes_blank (hb : isBlank b = true) (h : Reads .between rest ts) :
    Resumes (b :: rest) ts where
  between := Reads.cons [] fun _ => ⟨.between, by simp [Pending.step, hb], h⟩
  bare _ name := Reads.cons [⟨name, []⟩] fun _ => ⟨.between, by simp [Pending.step, hb], h⟩

/-- A value is read up to its closing quote, whatever bytes it has. -/
theorem reads_value (h : Reads .between rest ts) (value v : Bytes) :
    Reads (.valued start name value false) (v.flatMap Token.escapeByte ++ Quoting.quote :: rest)
      (⟨name, value ++ v⟩ :: ts) := by
  induction v generalizing value with
  | nil =>
    rw [List.append_nil]
    exact Reads.cons [⟨name, value⟩] fun _ => ⟨.between, by simp [Pending.step, Quoting.quote,
      Quoting.backslash], h⟩
  | cons b v ih =>
    have hv := ih (value ++ [b])
    rw [List.append_assoc, List.singleton_append] at hv
    rw [List.flatMap_cons, List.append_assoc, Token.escapeByte]
    split
    · -- The escaping backslash is dropped, and the byte after it is taken as it is.
      refine Reads.cons [] fun _ => ⟨.valued start name value true, ?_, ?_⟩
      · simp [Pending.step, Quoting.backslash]
      · exact Reads.cons [] fun _ => ⟨_, rfl, hv⟩
    · next hb =>
      refine Reads.cons [] fun _ => ⟨.valued start name (value ++ [b]) false, ?_, hv⟩
      simp only [Bool.or_eq_true, decide_eq_true_eq, not_or] at hb
      simp [Pending.step, Quoting.backslash, Quoting.quote, hb]

theorem reads_more (hm : ∀ b ∈ rest, isNameByte b = true)
    (h : Reads (.bare start (name ++ rest)) line ts) :
    Reads (.bare start name) (rest ++ line) ts := by
  induction rest generalizing name with
  | nil => rwa [List.append_nil] at h
  | cons b rest ih =>
    obtain ⟨hblank, hmark, hcolon, hquote⟩ := isNameByte_apart (hm b (by simp))
    refine Reads.cons [] fun _ => ⟨.bare start (name ++ [b]), ?_, ?_⟩
    · simp [Pending.step, hblank, hmark, hcolon, hquote, hm b]
    · refine ih (fun c hc => hm c (by simp [hc])) ?_
      rwa [List.append_assoc]

theorem reads_name (hne : name ≠ []) (hn : ∀ b ∈ name, isNameByte b = true)
    (h : ∀ start, Reads (.bare start name) line ts) : Reads .between (name ++ line) ts := by
  cases name with
  | nil => exact (hne rfl).elim
  | cons b name =>
    obtain ⟨hblank, hmark, hcolon, hquote⟩ := isNameByte_apart (hn b (by simp))
    refine Reads.cons [] fun pos => ⟨.bare pos [b], ?_, ?_⟩
    · simp [Pending.step, hblank, hmark, hcolon, hquote, hn b]
    · exact reads_more (fun c hc => hn c (by simp [hc])) (h pos)

theorem reads_marker (hb : isMarker b = true) (h : Reads .between rest ts) :
    Reads .between (b :: rest) (⟨[b], []⟩ :: ts) :=
  Reads.cons [⟨[b], []⟩] fun _ =>
    ⟨.between, by simp [Pending.step, isMarker_apart hb, hb], h⟩

/-- A token is read back, and the line goes on after it. -/
theorem reads_text (ht : t.Representable) (h : Resumes rest ts) :
    Reads .between (t.text ++ rest) (t :: ts) := by
  obtain ⟨name, value⟩ := t
  rcases ht with ⟨hv, hm⟩ | ⟨hne, hn⟩
  · obtain ⟨m, -, rfl⟩ := List.mem_map.mp hm
    obtain rfl : value = [] := hv
    exact reads_marker ((isMarker_iff m.byte).mpr hm) h.between
  · replace hn : ∀ b ∈ name, isNameByte b = true := fun b hb => (isNameByte_iff b).mpr (hn b hb)
    rw [Token.text]
    split
    · next hv =>
      obtain rfl : value = [] := List.isEmpty_iff.mp hv
      exact reads_name hne hn fun start => h.bare start name
    · rw [List.append_assoc, List.append_assoc]
      refine reads_name hne hn fun start => ?_
      refine Reads.cons [] fun _ => ⟨.colon start name, ?_, ?_⟩
      · rfl
      · exact Reads.cons [] fun _ => ⟨.valued start name [] false, rfl,
          reads_value h.between [] value⟩

theorem format_cons_cons (t u : Token) (ts : List Token) :
    format (t :: u :: ts) = t.text ++ 0x20 :: format (u :: ts) := by
  have hblank : Bytes.ofString " " = [0x20] := by decide
  simp [format, Bytes.join, hblank]

/-- Tokens are read back as they were written, and the line goes on after them. -/
theorem reads_format_append {us : List Token} (h : ∀ t ∈ ts, t.Representable)
    (hrest : Resumes rest us) : Reads .between (format ts ++ rest) (ts ++ us) := by
  induction ts with
  | nil => exact hrest.between
  | cons t ts ih =>
    have ht := h t (by simp)
    have hts := ih fun u hu => h u (by simp [hu])
    cases ts with
    | nil =>
      have hone : format [t] = t.text := by simp [format, Bytes.join]
      rw [hone]
      exact reads_text ht hrest
    | cons u ts =>
      rw [format_cons_cons, List.append_assoc]
      exact reads_text ht (resumes_blank rfl hts)

theorem reads_format (h : ∀ t ∈ ts, t.Representable) : Reads .between (format ts) ts := by
  have hread := reads_format_append h resumes_nil
  rwa [List.append_nil, List.append_nil] at hread

/-! Only tokens that can be written are read. -/

/-- The name under way is one. -/
def Pending.Sound : Pending → Prop
  | .between => True
  | .bare _ name | .colon _ name | .valued _ name _ _ => name ≠ [] ∧ ∀ b ∈ name, Token.Alphabetic b

theorem Pending.Sound.step {p p' : Pending} {pos : Nat} (hp : p.Sound)
    (h : p.step pos b = .ok (now, p')) : p'.Sound ∧ ∀ t ∈ now, t.Representable := by
  have hmark : isMarker b = true → Token.Representable ⟨[b], []⟩ :=
    fun hb => Or.inl ⟨rfl, (isMarker_iff b).mp hb⟩
  cases p with
  | between =>
    simp only [Pending.step] at h
    split_ifs at h with hblank hm hcolon hquote hn <;> cases h
    · simp [Sound]
    · simpa [Sound] using hmark hm
    · simpa [Sound] using (isNameByte_iff b).mp hn
  | bare start name =>
    have hname : Token.Representable ⟨name, []⟩ := Or.inr hp
    simp only [Pending.step] at h
    split_ifs at h with hblank hm hcolon hquote hn <;> cases h
    · simpa [Sound] using hname
    · simpa [Sound] using ⟨hname, hmark hm⟩
    · exact ⟨hp, by simp⟩
    · refine ⟨⟨by simp, fun c hc => ?_⟩, by simp⟩
      rcases List.mem_append.mp hc with hc | hc
      · exact hp.2 c hc
      · cases List.mem_singleton.mp hc
        exact (isNameByte_iff b).mp hn
  | colon start name =>
    simp only [Pending.step] at h
    split_ifs at h
    cases h
    exact ⟨hp, by simp⟩
  | valued start name value escaped =>
    have hname : Token.Representable ⟨name, value⟩ := Or.inr hp
    cases escaped with
    | true =>
      cases h
      exact ⟨hp, by simp⟩
    | false =>
      simp only [Pending.step] at h
      split_ifs at h <;> cases h
      · exact ⟨hp, by simp⟩
      · simpa [Sound] using hname
      · exact ⟨hp, by simp⟩

theorem Pending.Sound.finish {p : Pending} (hp : p.Sound) (h : p.finish = .ok ts) :
    ∀ t ∈ ts, t.Representable := by
  cases p with
  | between =>
    cases h
    simp
  | bare start name =>
    cases h
    have hname : Token.Representable ⟨name, []⟩ := Or.inr hp
    simpa using hname
  | colon _ _ => cases h
  | valued _ _ _ _ => cases h

theorem Pending.Sound.read {p : Pending} {pos : Nat} (hp : p.Sound)
    (h : Line.read pos p line = .ok ts) : ∀ t ∈ ts, t.Representable := by
  induction line generalizing pos p ts with
  | nil => exact hp.finish h
  | cons b line ih =>
    rw [Line.read] at h
    split at h
    · cases h
    · next now p' hstep =>
      obtain ⟨hp', hnow⟩ := hp.step hstep
      split at h
      · cases h
      · next rest hrest =>
        cases h
        intro t ht
        rcases List.mem_append.mp ht with ht | ht
        · exact hnow t ht
        · exact ih hp' hrest t ht

/-- A line in the form in which its tokens are written. -/
def normalize (line : Bytes) : Except SyntaxError Bytes := (tokenize line).map format

/-- Tokens that a line can hold are read back as written, and all tokens that are read are such, so
that the tokens of a line have one normal form. -/
theorem written_tokens_read_back :
    (∀ ts, (∀ t ∈ ts, t.Representable) → tokenize (format ts) = .ok ts) ∧
    (∀ line ts, tokenize line = .ok ts → ∀ t ∈ ts, t.Representable) ∧
    ∀ line nf, normalize line = .ok nf → normalize nf = .ok nf ∧ tokenize nf = tokenize line := by
  have hback : ∀ ts, (∀ t ∈ ts, t.Representable) → tokenize (format ts) = .ok ts :=
    fun ts h => reads_format h 0
  have hall : ∀ line ts, tokenize line = .ok ts → ∀ t ∈ ts, t.Representable := by
    intro line ts h
    have hs : Pending.Sound .between := trivial
    exact hs.read h
  refine ⟨hback, hall, fun line nf h => ?_⟩
  rw [normalize] at h
  cases hl : tokenize line with
  | error e =>
    rw [hl] at h
    cases h
  | ok ts =>
    rw [hl] at h
    cases h
    have hts := hback ts (hall line ts hl)
    exact ⟨by rw [normalize, hts]; rfl, hts⟩

/-- Values with quotes, backslashes, blanks and a byte that is no text, an empty one, and markers.
-/
def hardValues : List Token :=
  [.ofMarker .openCommand, ⟨"FRAG", "it's \\"⟩, ⟨"FRAG", [0x5c, 0x27, 0xff, 0x0a]⟩, ⟨"x_1", []⟩,
    .ofMarker .closeCommand, .ofMarker .terminator]

theorem written_tokens_read_back_hardValues :
    (∀ t ∈ hardValues, t.Representable) ∧ tokenize (format hardValues) = .ok hardValues ∧
      normalize (format hardValues) = .ok (format hardValues) := by
  have hall : ∀ t ∈ hardValues, t.Representable := by decide +kernel
  have hread := written_tokens_read_back.1 hardValues hall
  have hnormal : normalize (format hardValues) = .ok (format hardValues) := by
    rw [normalize, hread]
    rfl
  exact ⟨hall, hread, (written_tokens_read_back.2.2 _ _ hnormal).1⟩

end Line

end TokenShell
