import Mathlib.Data.Nat.Digits.Defs
import TokenShell.Number.Integer
import TokenShell.Proofs.Exactness

/-! Which texts are read as integers of 64 bits: a sign or none, and decimal digits of a number that
fits. -/
namespace TokenShell.Integer

variable {ds : Bytes} {text : Bytes} {b : UInt8} {v r : Nat} {z : Int} {n : Int64}

/-- The number that decimal digits stand for, the last of them being the units. -/
def valueOf (ds : Bytes) : Nat := Nat.ofDigits 10 (ds.map fun b => b.toNat - 0x30).reverse

/-- Decimal digits, and at least one. -/
def Digits (ds : Bytes) : Prop := ds ≠ [] ∧ ∀ b ∈ ds, Bytes.isDigit b = true

/-- A sign or none, and digits: the text of an integer of whatever size. -/
inductive Spells : Bytes → Int → Prop where
  | unsigned {ds : Bytes} (h : Digits ds) : Spells ds (valueOf ds)
  | plus {ds : Bytes} (h : Digits ds) : Spells (0x2b :: ds) (valueOf ds)
  | minus {ds : Bytes} (h : Digits ds) : Spells (0x2d :: ds) (-(valueOf ds : Int))

theorem valueOf_cons (b : UInt8) (ds : Bytes) :
    valueOf (b :: ds) = (b.toNat - 0x30) * 10 ^ ds.length + valueOf ds := by
  rw [valueOf, List.map_cons, List.reverse_cons, Nat.ofDigits_append, Nat.ofDigits_singleton,
    List.length_reverse, List.length_map, ← valueOf]
  ring

/-- Digits are read on from a value as long as the value stays within a word. -/
theorem magnitude_ok (hv : v ≤ wordLimit) : magnitude v ds = .ok r ↔
    (∀ b ∈ ds, Bytes.isDigit b = true) ∧ r = v * 10 ^ ds.length + valueOf ds ∧ r ≤ wordLimit := by
  induction ds generalizing v with
  | nil =>
    simp only [magnitude, valueOf, Except.ok.injEq]
    constructor
    · rintro rfl
      simp [hv]
    · rintro ⟨-, hr, -⟩
      simpa using hr.symm
  | cons b ds ih =>
    rw [List.forall_mem_cons, magnitude]
    split
    · next hb =>
      have hnext : v * 10 ^ (b :: ds).length + valueOf (b :: ds) =
          (v * 10 + (b.toNat - 0x30)) * 10 ^ ds.length + valueOf ds := by
        rw [valueOf_cons, List.length_cons]
        ring
      rw [hnext]
      dsimp only
      split
      · next hle =>
        rw [ih hle]
        simp [hb]
      · next hlt =>
        constructor
        · intro h
          cases h
        · rintro ⟨-, hr, hle⟩
          have hpos : 0 < 10 ^ ds.length := Nat.pow_pos (by omega)
          have hmul := Nat.le_mul_of_pos_right (v * 10 + (b.toNat - 0x30)) hpos
          omega
    · next hb =>
      constructor
      · intro h
        cases h
      · rintro ⟨⟨hdigit, -⟩, -⟩
        exact (hb hdigit).elim

theorem digits_ok : digits ds = .ok r ↔ Digits ds ∧ r = valueOf ds ∧ r ≤ wordLimit := by
  cases ds with
  | nil =>
    constructor
    · intro h
      cases h
    · rintro ⟨⟨hne, -⟩, -⟩
      exact (hne rfl).elim
  | cons b ds =>
    rw [digits, magnitude_ok (Nat.zero_le _), Nat.zero_mul, Nat.zero_add]
    simp [Digits]

theorem inRange_ok : inRange z = .ok n ↔ n.toInt = z := by
  unfold inRange
  split
  · next h =>
    rw [Except.ok.injEq, ← Int64.toInt_inj, Checked.toInt_ofInt h]
    exact eq_comm
  · next h =>
    constructor
    · intro hn
      cases hn
    · rintro rfl
      exact (h (Checked.fits_toInt n)).elim

/-- The digits of an integer that fits stay within a word, with either sign. -/
theorem signed_ok (sign : Nat → Int) (hsign : ∀ k, (sign k).natAbs = k) :
    (digits ds >>= fun k => inRange (sign k)) = .ok n ↔
      Digits ds ∧ n.toInt = sign (valueOf ds) := by
  have hfits := Checked.fits_toInt n
  constructor
  · intro h
    cases hd : digits ds with
    | error e =>
      rw [hd] at h
      cases h
    | ok k =>
      rw [hd] at h
      obtain ⟨hds, rfl, -⟩ := digits_ok.mp hd
      exact ⟨hds, inRange_ok.mp h⟩
  · rintro ⟨hds, hn⟩
    have hword : valueOf ds ≤ wordLimit := by
      have habs := hsign (valueOf ds)
      rw [← hn] at habs
      simp only [Checked.Fits] at hfits
      simp only [wordLimit, UInt64.size]
      omega
    rw [digits_ok.mpr ⟨hds, rfl, hword⟩]
    exact inRange_ok.mpr hn

theorem read_unsigned (hp : b ≠ 0x2b) (hm : b ≠ 0x2d) :
    read (b :: ds) = (digits (b :: ds) >>= fun k => inRange k) := by
  unfold read
  split
  · next h => exact (hp (List.cons.inj h).1).elim
  · next h => exact (hm (List.cons.inj h).1).elim
  · rfl

theorem Digits.head (h : Digits (b :: ds)) : b ≠ 0x2b ∧ b ≠ 0x2d := by
  have hb := h.2 b List.mem_cons_self
  constructor
  · rintro rfl
    cases hb
  · rintro rfl
    cases hb

/-- A text is read as an integer just if it spells that integer. -/
theorem read_ok_iff : read text = .ok n ↔ Spells text n.toInt := by
  have hplus : ∀ k : Nat, (k : Int).natAbs = k := Int.natAbs_natCast
  cases text with
  | nil =>
    constructor
    · intro h
      cases h
    · generalize n.toInt = z
      rintro ⟨hne, -⟩
      exact (hne rfl).elim
  | cons b ds =>
    by_cases hp : b = 0x2b
    · subst hp
      refine (signed_ok (fun k => (k : Int)) hplus).trans ⟨?_, ?_⟩
      · rintro ⟨hds, hn⟩
        rw [hn]
        exact .plus hds
      · generalize n.toInt = z
        rintro (h | h | h)
        · exact (h.head.1 rfl).elim
        · exact ⟨h, rfl⟩
    · by_cases hm : b = 0x2d
      · subst hm
        refine (signed_ok (fun k => -(k : Int)) fun k => by omega).trans ⟨?_, ?_⟩
        · rintro ⟨hds, hn⟩
          rw [hn]
          exact .minus hds
        · generalize n.toInt = z
          rintro (h | h | h)
          · exact (h.head.2 rfl).elim
          · exact ⟨h, rfl⟩
      · rw [read_unsigned hp hm]
        refine (signed_ok (fun k => (k : Int)) hplus).trans ⟨?_, ?_⟩
        · rintro ⟨hds, hn⟩
          rw [hn]
          exact .unsigned hds
        · generalize n.toInt = z
          rintro (h | h | h)
          · exact ⟨h, rfl⟩
          · exact (hp rfl).elim
          · exact (hm rfl).elim

end TokenShell.Integer
