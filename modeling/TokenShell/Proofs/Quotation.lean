import Mathlib.Tactic.Ring
import TokenShell.Proofs.Trimming
import TokenShell.Text.Quoted

/-! Quoted text stands on one line, and can be read back: no two texts are quoted in the same way.
-/
namespace TokenShell

namespace Bytes

variable {ds : Bytes} {n m width : Nat}

/-- The number that hexadecimal digits make together with a number read before them. -/
def hexValue? (n : Nat) : Bytes → Option Nat
  | [] => some n
  | d :: ds => (hexDigit? d).bind fun k => hexValue? (16 * n + k) ds

theorem hexValue?_append (n : Nat) (ds es : Bytes) :
    hexValue? n (ds ++ es) = (hexValue? n ds).bind (hexValue? · es) := by
  induction ds generalizing n with
  | nil => rfl
  | cons d ds ih =>
    rw [List.cons_append, hexValue?, hexValue?, Option.bind_assoc]
    congr
    funext k
    exact ih _

theorem hexDigit?_digitChar {k : Nat} (h : k < 16) :
    hexDigit? (Nat.digitChar k).val.toUInt8 = some k := by
  have hall : ∀ k : Fin 16, hexDigit? (Nat.digitChar k).val.toUInt8 = some k.val := by decide
  exact hall ⟨k, h⟩

theorem hexValue?_toDigits (n : Nat) :
    hexValue? 0 ((Nat.toDigits 16 n).map fun c => c.val.toUInt8) = some n := by
  induction n using Nat.strongRecOn with
  | ind n ih =>
    by_cases hn : n < 16
    · rw [Nat.toDigits_of_lt_base hn]
      simp only [List.map_cons, List.map_nil, hexValue?, hexDigit?_digitChar hn]
      simp
    · have hlast : n % 16 < 16 := Nat.mod_lt _ (by omega)
      rw [Nat.toDigits_of_base_le (by omega) (by omega), List.map_append, hexValue?_append,
        ih (n / 16) (by omega)]
      simp only [List.map_cons, List.map_nil, Option.bind_some, hexValue?,
        hexDigit?_digitChar hlast, Nat.div_add_mod]

theorem hexValue?_hexadecimal (width n : Nat) : hexValue? 0 (hexadecimal width n) = some n := by
  have hzeros : ∀ k, hexValue? 0 (List.replicate k 0x30) = some 0 := by
    intro k
    induction k with
    | zero => rfl
    | succ k ih => simpa [List.replicate_succ, hexValue?, hexDigit?, isDigit] using ih
  rw [hexadecimal, hexValue?_append, hzeros]
  exact hexValue?_toDigits n

theorem length_hexadecimal (hw : 0 < width) (h : n < 16 ^ width) :
    (hexadecimal width n).length = width := by
  have hle := (Nat.length_toDigits_le_iff (by omega : 1 < 16) hw).mpr h
  simp [hexadecimal]
  omega

theorem hexDigit?_of_hexValue? (h : hexValue? n ds = some m) : ∀ d ∈ ds, hexDigit? d ≠ none := by
  induction ds generalizing n with
  | nil => simp
  | cons d ds ih =>
    obtain ⟨k, hk, hrest⟩ := Option.bind_eq_some_iff.mp h
    rw [List.forall_mem_cons]
    exact ⟨by simp [hk], ih hrest⟩

theorem newline_not_mem_hexadecimal (width n : Nat) : newline ∉ hexadecimal width n := by
  intro hm
  exact hexDigit?_of_hexValue? (hexValue?_hexadecimal width n) _ hm (by decide)

/-- A byte below 0x80 is the whole of the code point it belongs to. -/
theorem mem_ofScalar {b : UInt8} (hm : b ∈ ofScalar n) (hb : b.toNat < 128) :
    b.toNat = n ∨ b = 0 := by
  by_cases hn : n.isValidChar
  · rw [Rune.utf8_ofScalar hn] at hm
    split_ifs at hm
    · rw [List.mem_singleton.mp hm]
      refine Or.inl ?_
      simp
      omega
    all_goals
      simp only [List.mem_cons, List.not_mem_nil, or_false] at hm
      rcases hm with rfl | hm <;> (try rcases hm with rfl | hm) <;>
        (try rcases hm with rfl | hm) <;> (try subst hm) <;> simp at hb <;> omega
  · have hzero : Char.ofNat n = '\x00' := by
      rw [Char.ofNat, dif_neg hn]
      rfl
    rw [ofScalar, hzero] at hm
    exact Or.inr (List.mem_singleton.mp hm)

end Bytes

namespace Text

variable {b c : UInt8} {text text' bytes bytes' : Bytes} {n : Nat}

def quote : UInt8 := 0x22

def backslash : UInt8 := 0x5c

/-- The byte that a letter behind a backslash stands for; a quote and a backslash stand for
themselves. -/
def lettered? : UInt8 → Option UInt8
  | 0x61 => some 0x07
  | 0x62 => some 0x08
  | 0x66 => some 0x0c
  | 0x6e => some 0x0a
  | 0x72 => some 0x0d
  | 0x74 => some 0x09
  | 0x76 => some 0x0b
  | 0x22 => some 0x22
  | 0x5c => some 0x5c
  | _ => none

/-- How many digits follow a letter behind a backslash, and what their number stands for: a byte or
a code point. -/
def numbered? : UInt8 → Option (Nat × (Nat → Bytes))
  | 0x78 => some (2, fun n => [UInt8.ofNat n])
  | 0x75 => some (4, Bytes.ofScalar)
  | 0x55 => some (8, Bytes.ofScalar)
  | _ => none

/-- Reads quoted text from behind the opening quote to the closing one, which must be the last
byte. -/
def unquoteFrom? (text : Bytes) : Option Bytes :=
  match text with
  | [] => none
  | b :: rest =>
    if b = quote then
      if rest = [] then some [] else none
    else if b = backslash then
      match rest with
      | [] => none
      | c :: rest =>
        match numbered? c with
        | some (width, mean) =>
          (Bytes.hexValue? 0 (rest.take width)).bind fun n =>
            (unquoteFrom? (rest.drop width)).map (mean n ++ ·)
        | none => (lettered? c).bind fun b => (unquoteFrom? rest).map (b :: ·)
    else (unquoteFrom? rest).map (b :: ·)
termination_by text.length
decreasing_by all_goals simp; try omega

/-- Reads text in double quotes. -/
def unquote? : Bytes → Option Bytes
  | [] => none
  | b :: rest => if b = quote then unquoteFrom? rest else none

theorem unquoteFrom?_end : unquoteFrom? [quote] = some [] := by
  rw [unquoteFrom?.eq_def]
  simp

theorem unquoteFrom?_plain (hq : b ≠ quote) (hs : b ≠ backslash) (rest : Bytes) :
    unquoteFrom? (b :: rest) = (unquoteFrom? rest).map (b :: ·) := by
  rw [unquoteFrom?.eq_def]
  simp [hq, hs]

theorem unquoteFrom?_lettered (h : lettered? c = some b) (hc : numbered? c = none) (rest : Bytes) :
    unquoteFrom? (backslash :: c :: rest) = (unquoteFrom? rest).map (b :: ·) := by
  have hq : backslash ≠ quote := by decide
  rw [unquoteFrom?.eq_def]
  simp [hq, h, hc]

theorem unquoteFrom?_numbered {width : Nat} {mean : Nat → Bytes}
    (h : numbered? c = some (width, mean)) (rest : Bytes) :
    unquoteFrom? (backslash :: c :: rest) = (Bytes.hexValue? 0 (rest.take width)).bind fun n =>
      (unquoteFrom? (rest.drop width)).map (mean n ++ ·) := by
  have hq : backslash ≠ quote := by decide
  rw [unquoteFrom?.eq_def]
  simp [hq, h]

/-- Inside quotes the text stands for the bytes, whatever follows it, and is on one line. -/
structure StandsFor (text bytes : Bytes) : Prop where
  reads : ∀ rest, unquoteFrom? (text ++ rest) = (unquoteFrom? rest).map (bytes ++ ·)
  line : Bytes.newline ∉ text

namespace StandsFor

theorem nil : StandsFor [] [] := ⟨by simp, List.not_mem_nil⟩

theorem append (h : StandsFor text bytes) (h' : StandsFor text' bytes') :
    StandsFor (text ++ text') (bytes ++ bytes') := by
  refine ⟨?_, ?_⟩
  · intro rest
    rw [List.append_assoc, h.reads, h'.reads, Option.map_map]
    simp [Function.comp_def]
  · rw [List.mem_append, not_or]
    exact ⟨h.line, h'.line⟩

theorem flatMap {α : Type} {f g : α → Bytes} {xs : List α} (h : ∀ x ∈ xs, StandsFor (f x) (g x)) :
    StandsFor (xs.flatMap f) (xs.flatMap g) := by
  induction xs with
  | nil => exact nil
  | cons x xs ih =>
    obtain ⟨hx, hxs⟩ := List.forall_mem_cons.mp h
    exact hx.append (ih hxs)

theorem plain (hq : b ≠ quote) (hs : b ≠ backslash) (hn : b ≠ Bytes.newline) :
    StandsFor [b] [b] := by
  refine ⟨?_, by simpa using Ne.symm hn⟩
  intro rest
  exact unquoteFrom?_plain hq hs rest

theorem lettered (h : lettered? c = some b) (hc : numbered? c = none) :
    StandsFor [backslash, c] [b] := by
  refine ⟨?_, ?_⟩
  · intro rest
    exact unquoteFrom?_lettered h hc rest
  · have hne : c ≠ Bytes.newline := by
      rintro rfl
      cases h
    simp only [List.mem_cons, List.not_mem_nil, or_false, not_or]
    exact ⟨by decide, Ne.symm hne⟩

theorem numbered {width : Nat} {mean : Nat → Bytes} (h : numbered? c = some (width, mean))
    (hw : 0 < width) (hn : n < 16 ^ width) :
    StandsFor (backslash :: c :: Bytes.hexadecimal width n) (mean n) := by
  have hlen := Bytes.length_hexadecimal hw hn
  refine ⟨?_, ?_⟩
  · intro rest
    rw [List.cons_append, List.cons_append, unquoteFrom?_numbered h, List.take_left' hlen,
      List.drop_left' hlen, Bytes.hexValue?_hexadecimal]
    rfl
  · have hne : c ≠ Bytes.newline := by
      rintro rfl
      cases h
    simp only [List.mem_cons, not_or]
    exact ⟨by decide, Ne.symm hne, Bytes.newline_not_mem_hexadecimal width n⟩

end StandsFor

/-- Printable code points other than the quote and the backslash are written as themselves. -/
theorem standsFor_printable (hq : n ≠ 0x22) (hs : n ≠ 0x5c) (h : isPrintable n = true) :
    StandsFor (Bytes.ofScalar n) (Bytes.ofScalar n) := by
  have hmin : 0x20 ≤ n := by
    unfold isPrintable at h
    split at h
    · exact of_decide_eq_true h
    · omega
  have hbytes : ∀ b ∈ Bytes.ofScalar n, StandsFor [b] [b] := by
    intro b hb
    have hscalar := Bytes.mem_ofScalar hb
    apply StandsFor.plain
    all_goals
      rintro rfl
      rcases hscalar (by decide) with he | he
      · simp [quote, backslash, Bytes.newline] at he
        omega
      · exact absurd he (by decide)
  simpa using StandsFor.flatMap hbytes

/-- The other code points are written as numbers. -/
theorem standsFor_number (h : n < 2 ^ 32) :
    StandsFor
      (if n < 0x20 || n = 0x7f then "\\x" ++ Bytes.hexadecimal 2 n
      else if n < 0x10000 then "\\u" ++ Bytes.hexadecimal 4 n
      else "\\U" ++ Bytes.hexadecimal 8 n)
      (Bytes.ofScalar n) := by
  split_ifs with hcontrol hplane
  · rw [Bool.or_eq_true, decide_eq_true_eq, decide_eq_true_eq] at hcontrol
    have hone : Bytes.ofScalar n = [UInt8.ofNat n] := by
      rw [Rune.utf8_ofScalar (Or.inl (by omega)), if_pos (by omega)]
    rw [hone]
    exact StandsFor.numbered (c := 0x78) rfl (by omega) (by omega)
  · exact StandsFor.numbered (c := 0x75) rfl (by omega) (by omega)
  · exact StandsFor.numbered (c := 0x55) rfl (by omega) (by omega)

theorem standsFor_escapeScalar (h : n < 2 ^ 32) :
    StandsFor (escapeScalar 0x22 n) (Bytes.ofScalar n) := by
  unfold escapeScalar
  split
  case isTrue hself =>
    rw [Bool.or_eq_true, decide_eq_true_eq, decide_eq_true_eq] at hself
    rcases hself with rfl | rfl
    · exact StandsFor.lettered (c := 0x22) (b := 0x22) rfl rfl
    · exact StandsFor.lettered (c := 0x5c) (b := 0x5c) rfl rfl
  case isFalse hself =>
    rw [Bool.or_eq_true, decide_eq_true_eq, decide_eq_true_eq, not_or] at hself
    by_cases hprint : isPrintable n = true
    · rw [if_pos hprint]
      exact standsFor_printable hself.1 hself.2 hprint
    · rw [if_neg hprint]
      cases hshort : shortEscape? n with
      | some c =>
        unfold shortEscape? at hshort
        split at hshort <;> cases hshort <;> exact StandsFor.lettered rfl rfl
      | none => exact standsFor_number h

theorem standsFor_escapeStray (b : UInt8) : StandsFor (escapeRune 0x22 (.stray b)) [b] := by
  have hstray := StandsFor.numbered (c := 0x78) (n := b.toNat) rfl (by omega)
    b.toNat_lt
  rwa [UInt8.ofNat_toNat] at hstray

end Text

namespace Rune

theorem lead_lt {a : UInt8} {t : Bytes} {n : Nat} (h : (lead a t).1 = .scalar n) : n < 2 ^ 32 := by
  have ha := a.toNat_lt
  unfold lead at h
  split at h <;> split_ifs at h <;> cases h <;>
    (try simp only [pairCode, tripleCode, quadCode, tailBits]) <;> omega

theorem decodeAfter_lt {k n : Nat} {t : Bytes} (h : .scalar n ∈ decodeAfter k t) : n < 2 ^ 32 := by
  induction t generalizing k with
  | nil => simp [decodeAfter] at h
  | cons a t ih =>
    cases k with
    | zero =>
      rw [decodeAfter_cons] at h
      rcases List.mem_cons.mp h with h | h
      · exact lead_lt h.symm
      · exact ih h
    | succ k => exact ih h

end Rune

namespace Text

theorem standsFor_escapes (t : Bytes) :
    StandsFor ((Rune.decode t).flatMap (escapeRune 0x22)) t := by
  have hrunes : ∀ r ∈ Rune.decode t, StandsFor (escapeRune 0x22 r) r.bytes := by
    intro r hr
    cases r with
    | scalar n => exact standsFor_escapeScalar (Rune.decodeAfter_lt hr)
    | stray b => exact standsFor_escapeStray b
  have hall := StandsFor.flatMap hrunes
  rwa [Rune.bytes_decode] at hall

theorem newline_not_mem_quoted (t : Bytes) : Bytes.newline ∉ quoted t := by
  have hline := (standsFor_escapes t).line
  simp only [quoted, List.cons_append, List.mem_cons, List.mem_append, List.not_mem_nil, or_false,
    not_or]
  exact ⟨by decide, hline, by decide⟩

theorem unquote?_quoted (t : Bytes) : unquote? (quoted t) = some t := by
  have hreads := (standsFor_escapes t).reads [quote]
  rw [unquoteFrom?_end] at hreads
  simpa [quoted, unquote?, quote] using hreads

theorem quoted_injective {t t' : Bytes} (h : quoted t = quoted t') : t = t' := by
  have hread := unquote?_quoted t
  rw [h, unquote?_quoted] at hread
  exact (Option.some.inj hread).symm

end Text

end TokenShell
