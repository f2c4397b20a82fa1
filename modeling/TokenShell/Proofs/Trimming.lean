import Mathlib.Data.List.Basic
import TokenShell.Text.Blank

/-! Decoding loses nothing, a byte below 0x80 stands for itself wherever it is found, and so the
text between blanks of this kind is what trimming leaves. -/
namespace TokenShell

namespace Rune

variable {a b c d : UInt8} {t xs ys : Bytes} {n : Nat}

theorem utf8_ofScalar (hn : n.isValidChar) : Bytes.ofScalar n =
    if n ≤ 0x7f then [UInt8.ofNat n]
    else if n ≤ 0x7ff then [UInt8.ofNat (n / 64 % 32 + 192), UInt8.ofNat (n % 64 + 128)]
    else if n ≤ 0xffff then
      [UInt8.ofNat (n / 4096 % 16 + 224), UInt8.ofNat (n / 64 % 64 + 128),
        UInt8.ofNat (n % 64 + 128)]
    else
      [UInt8.ofNat (n / 262144 % 8 + 240), UInt8.ofNat (n / 4096 % 64 + 128),
        UInt8.ofNat (n / 64 % 64 + 128), UInt8.ofNat (n % 64 + 128)] := by
  have hval : (Char.ofNat n).val.toNat = n := by
    rw [Char.ofNat, dif_pos hn]
    rfl
  rw [Bytes.ofScalar, String.utf8EncodeChar, hval]

theorem ofNat_eq {k : Nat} (h : k = b.toNat) : UInt8.ofNat k = b := by
  rw [h, UInt8.ofNat_toNat]

theorem ofScalar_ascii (h : a < 0x80) : Bytes.ofScalar a.toNat = [a] := by
  have ha : a.toNat < 128 := by simpa [UInt8.lt_iff_toNat_lt] using h
  rw [utf8_ofScalar (Or.inl (by omega)), if_pos (by omega), UInt8.ofNat_toNat]

theorem isTail_iff : isTail b = true ↔ 128 ≤ b.toNat ∧ b.toNat ≤ 191 := by
  simp [isTail, UInt8.le_iff_toNat_le]

theorem ofScalar_pair (h : isPair a b = true) : Bytes.ofScalar (pairCode a b) = [a, b] := by
  simp only [isPair, Bool.and_eq_true, decide_eq_true_eq, UInt8.le_iff_toNat_le,
    UInt8.reduceToNat, isTail_iff] at h
  have hcode : pairCode a b = (a.toNat - 192) * 64 + (b.toNat - 128) := by
    simp only [pairCode, tailBits]
    omega
  rw [utf8_ofScalar (Or.inl (by omega)), if_neg (by omega), if_pos (by omega),
    ofNat_eq (b := a) (by omega), ofNat_eq (b := b) (by omega)]

theorem ofScalar_triple (h : isTriple a b c = true) :
    Bytes.ofScalar (tripleCode a b c) = [a, b, c] := by
  simp only [isTriple, Bool.and_eq_true, Bool.or_eq_true, decide_eq_true_eq, bne_iff_ne, ne_eq,
    ← UInt8.toNat_inj, UInt8.le_iff_toNat_le, UInt8.reduceToNat, isTail_iff] at h
  have hcode : tripleCode a b c =
      ((a.toNat - 224) * 64 + (b.toNat - 128)) * 64 + (c.toNat - 128) := by
    simp only [tripleCode, tailBits]
    omega
  rw [utf8_ofScalar (by unfold Nat.isValidChar; omega), if_neg (by omega), if_neg (by omega),
    if_pos (by omega), ofNat_eq (b := a) (by omega), ofNat_eq (b := b) (by omega),
    ofNat_eq (b := c) (by omega)]

theorem ofScalar_quad (h : isQuad a b c d = true) :
    Bytes.ofScalar (quadCode a b c d) = [a, b, c, d] := by
  simp only [isQuad, Bool.and_eq_true, Bool.or_eq_true, decide_eq_true_eq, bne_iff_ne, ne_eq,
    ← UInt8.toNat_inj, UInt8.le_iff_toNat_le, UInt8.reduceToNat, isTail_iff] at h
  have hcode : quadCode a b c d =
      (((a.toNat - 240) * 64 + (b.toNat - 128)) * 64 + (c.toNat - 128)) * 64 +
        (d.toNat - 128) := by
    simp only [quadCode, tailBits]
    omega
  rw [utf8_ofScalar (by unfold Nat.isValidChar; omega), if_neg (by omega), if_neg (by omega),
    if_neg (by omega), ofNat_eq (b := a) (by omega), ofNat_eq (b := b) (by omega),
    ofNat_eq (b := c) (by omega), ofNat_eq (b := d) (by omega)]

theorem lead_ascii (h : a < 0x80) (t : Bytes) : lead a t = (.scalar a.toNat, 0) := by
  unfold lead
  split <;> simp [h]

/-- A character is read from a byte and some of those that follow. -/
theorem bytes_lead (a : UInt8) (t : Bytes) :
    (lead a t).1.bytes ++ t.drop (lead a t).2 = a :: t ∧ (lead a t).2 ≤ t.length := by
  unfold lead
  split
  · split_ifs with h₁ h₂ h₃ h₄
    · simp [bytes, ofScalar_ascii h₁]
    · simp [bytes, ofScalar_pair h₂]
    · simp [bytes, ofScalar_triple h₃]
    · simp [bytes, ofScalar_quad h₄]
    · simp [bytes]
  · split_ifs with h₁ h₂ h₃
    · simp [bytes, ofScalar_ascii h₁]
    · simp [bytes, ofScalar_pair h₂]
    · simp [bytes, ofScalar_triple h₃]
    · simp [bytes]
  · split_ifs with h₁ h₂
    · simp [bytes, ofScalar_ascii h₁]
    · simp [bytes, ofScalar_pair h₂]
    · simp [bytes]
  · split_ifs with h₁
    · simp [bytes, ofScalar_ascii h₁]
    · simp [bytes]

theorem decodeAfter_cons (a : UInt8) (t : Bytes) :
    decodeAfter 0 (a :: t) = (lead a t).1 :: decodeAfter (lead a t).2 t := rfl

theorem bytes_decodeAfter (n : Nat) (t : Bytes) : (decodeAfter n t).flatMap bytes = t.drop n := by
  induction t generalizing n with
  | nil => simp [decodeAfter]
  | cons a t ih =>
    cases n with
    | zero => rw [decodeAfter_cons, List.flatMap_cons, ih, (bytes_lead a t).1, List.drop_zero]
    | succ n => rw [decodeAfter, ih, List.drop_succ_cons]

theorem bytes_decode (t : Bytes) : (decode t).flatMap bytes = t := bytes_decodeAfter 0 t

/-- A byte below 0x80 belongs to no character that began before it. -/
theorem lead_append (hb : b < 0x80) (a : UInt8) (xs ys : Bytes) :
    lead a (xs ++ b :: ys) = lead a xs := by
  have htail : isTail b = false := by
    have hb : b.toNat < 128 := by simpa [UInt8.lt_iff_toNat_lt] using hb
    rw [← Bool.not_eq_true, isTail_iff]
    omega
  have hpair : isPair a b = false := by simp [isPair, htail]
  have htriple : ∀ x, isTriple a x b = false ∧ isTriple a b x = false := by
    simp [isTriple, htail]
  have hquad : ∀ x y, isQuad a x y b = false ∧ isQuad a x b y = false ∧ isQuad a b x y = false := by
    simp [isQuad, htail]
  match xs with
  | [] => rcases ys with _ | ⟨x, _ | ⟨y, ys⟩⟩ <;> simp [lead, hpair, htriple, hquad]
  | [x] => rcases ys with _ | ⟨y, ys⟩ <;> simp [lead, htriple, hquad]
  | [x, y] => simp [lead, hquad]
  | _ :: _ :: _ :: _ => rfl

theorem decodeAfter_append (hb : b < 0x80) (hn : n ≤ xs.length) :
    decodeAfter n (xs ++ b :: ys) = decodeAfter n xs ++ decode (b :: ys) := by
  induction xs generalizing n with
  | nil =>
    obtain rfl : n = 0 := by simpa using hn
    rfl
  | cons a xs ih =>
    cases n with
    | zero =>
      rw [List.cons_append, decodeAfter_cons, lead_append hb, ih (bytes_lead a xs).2,
        decodeAfter_cons, List.cons_append]
    | succ n =>
      rw [List.cons_append, decodeAfter, decodeAfter, ih (by simpa using hn)]

theorem decode_append (hb : b < 0x80) (xs ys : Bytes) :
    decode (xs ++ b :: ys) = decode xs ++ decode (b :: ys) :=
  decodeAfter_append hb (Nat.zero_le _)

theorem decode_cons (hb : b < 0x80) (ys : Bytes) :
    decode (b :: ys) = .scalar b.toNat :: decode ys := by
  rw [decode, decodeAfter_cons, lead_ascii hb]
  rfl

/-- A blank of one byte. -/
def IsGap (b : UInt8) : Prop := b < 0x80 ∧ Text.isBlank b.toNat = true

/-- A character of one byte that is no blank. -/
def IsSolid (b : UInt8) : Prop := b < 0x80 ∧ Text.isBlank b.toNat = false

theorem decode_gap_append (h : ∀ b ∈ xs, IsGap b) (ys : Bytes) :
    ∃ rs, (∀ r ∈ rs, r.isBlank = true) ∧ decode (xs ++ ys) = rs ++ decode ys := by
  induction xs with
  | nil => exact ⟨[], by simp, rfl⟩
  | cons b xs ih =>
    obtain ⟨hb, hxs⟩ := List.forall_mem_cons.mp h
    obtain ⟨rs, hrs, hd⟩ := ih hxs
    refine ⟨.scalar b.toNat :: rs, List.forall_mem_cons.mpr ⟨hb.2, hrs⟩, ?_⟩
    rw [List.cons_append, decode_cons hb.1, hd, List.cons_append]

theorem decode_append_gap (h : ∀ b ∈ ys, IsGap b) (xs : Bytes) :
    ∃ rs, (∀ r ∈ rs, r.isBlank = true) ∧ decode (xs ++ ys) = decode xs ++ rs := by
  cases ys with
  | nil => exact ⟨[], by simp, by simp⟩
  | cons b ys =>
    obtain ⟨rs, hrs, hd⟩ := decode_gap_append h []
    refine ⟨rs, hrs, ?_⟩
    rw [decode_append (h b (by simp)).1, ← List.append_nil (b :: ys), hd]
    exact congrArg _ (List.append_nil rs)

theorem head_decode (h : ∀ b ∈ t.head?, IsSolid b) :
    ∀ r ∈ (decode t).head?, r.isBlank = false := by
  cases t with
  | nil => simp [decode, decodeAfter]
  | cons b t =>
    obtain ⟨hb, hsolid⟩ := h b rfl
    simpa [decode_cons hb, isBlank] using hsolid

theorem getLast_decode (h : ∀ b ∈ t.getLast?, IsSolid b) :
    ∀ r ∈ (decode t).getLast?, r.isBlank = false := by
  rcases List.eq_nil_or_concat t with rfl | ⟨t, b, rfl⟩
  · simp [decode, decodeAfter]
  · obtain ⟨hb, hsolid⟩ := h b (by simp)
    rw [List.concat_eq_append, decode_append hb, decode_cons hb]
    simpa [decode, decodeAfter, isBlank] using hsolid

theorem dropWhile_of_head {α : Type} {p : α → Bool} {as bs : List α} (ha : ∀ a ∈ as, p a = true)
    (hb : ∀ b ∈ bs.head?, p b = false) : (as ++ bs).dropWhile p = bs := by
  rw [List.dropWhile_append_of_pos ha]
  cases bs with
  | nil => rfl
  | cons b bs => rw [List.dropWhile_cons_of_neg (by simp [hb b rfl])]

end Rune

namespace Bytes

variable {xs ys core : Bytes}

theorem trim_gap (h : ∀ b ∈ xs, Rune.IsGap b) : trim xs = [] := by
  obtain ⟨rs, hrs, hd⟩ := Rune.decode_gap_append h []
  rw [List.append_nil] at hd
  rw [trim, hd, Rune.dropWhile_of_head hrs (by simp [Rune.decode, Rune.decodeAfter])]
  rfl

/-- Trimming leaves the text between the blanks. -/
theorem trim_between (hx : ∀ b ∈ xs, Rune.IsGap b) (hy : ∀ b ∈ ys, Rune.IsGap b) (hne : core ≠ [])
    (hfirst : ∀ b ∈ core.head?, Rune.IsSolid b) (hlast : ∀ b ∈ core.getLast?, Rune.IsSolid b) :
    trim (xs ++ (core ++ ys)) = core := by
  obtain ⟨rs, hrs, hleft⟩ := Rune.decode_gap_append hx (core ++ ys)
  obtain ⟨qs, hqs, hright⟩ := Rune.decode_append_gap hy core
  have hback := Rune.bytes_decode core
  have hhead := Rune.head_decode hfirst
  have htail := Rune.getLast_decode hlast
  have hsome : Rune.decode core ≠ [] := by
    intro hnil
    rw [hnil] at hback
    exact hne hback.symm
  have hstart : ∀ r ∈ (Rune.decode core ++ qs).head?, r.isBlank = false := by
    rw [List.head?_append_of_ne_nil _ hsome]
    exact hhead
  rw [trim, hleft, hright, Rune.dropWhile_of_head hrs hstart, List.reverse_append,
    Rune.dropWhile_of_head (by simpa using hqs) (by simpa using htail), List.reverse_reverse, hback]

end Bytes

end TokenShell
