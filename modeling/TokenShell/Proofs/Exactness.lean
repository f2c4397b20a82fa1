import Mathlib.Tactic.Linarith
import TokenShell.Tree.Evaluation

/-! Arithmetic on integers is exact: it gives the integer that the operator stands for, or refuses
if there is none of 64 bits. -/
namespace TokenShell

namespace Checked

variable {a b n : Int64} {x y z : Int}

/-- The integers of 64 bits. -/
def Fits (z : Int) : Prop := -2 ^ 63 ≤ z ∧ z ≤ 2 ^ 63 - 1

instance (z : Int) : Decidable (Fits z) := inferInstanceAs (Decidable (_ ∧ _))

/-- An integer in 64 bits, if it fits. -/
def exact (z : Int) : Option Int64 := if Fits z then some (Int64.ofInt z) else none

theorem fits_toInt (a : Int64) : Fits a.toInt :=
  ⟨a.le_toInt, Int.le_sub_one_of_lt a.toInt_lt⟩

theorem toInt_ofInt (h : Fits z) : (Int64.ofInt z).toInt = z :=
  Int64.toInt_ofInt_of_le h.1 (Int.lt_of_le_sub_one h.2)

theorem exact_eq_some : exact z = some n ↔ n.toInt = z := by
  unfold exact
  split
  · next h =>
    rw [Option.some.injEq, ← Int64.toInt_inj, toInt_ofInt h]
    exact eq_comm
  · next h =>
    refine ⟨fun hn => (nomatch hn), ?_⟩
    rintro rfl
    exact (h (fits_toInt n)).elim

theorem exact_eq_none : exact z = none ↔ ¬ Fits z := by
  simp [exact]

theorem toInt_ne_zero : a.toInt ≠ 0 ↔ a ≠ 0 := by
  rw [Ne, Ne, ← Int64.toInt_inj, Int64.toInt_zero]

/-- A result that passes its test just if it is the exact one. -/
theorem test_eq_exact {p : Prop} [Decidable p] (hp : p → n.toInt = z) (hn : ¬ p → ¬ Fits z) :
    (if p then some n else none) = exact z := by
  split
  · next h => exact (exact_eq_some.mpr (hp h)).symm
  · next h => exact (exact_eq_none.mpr (hn h)).symm

theorem add_eq (a b : Int64) : add a b = exact (a.toInt + b.toInt) := by
  have ha := fits_toInt a
  have hb := fits_toInt b
  simp only [Fits] at ha hb
  refine test_eq_exact ?_ ?_ <;>
    simp only [eq_iff_iff, Int64.le_iff_toInt_le, Int64.toInt_add, Int64.toInt_zero, Int.bmod_def,
      Fits] <;> omega

theorem sub_eq (a b : Int64) : sub a b = exact (a.toInt - b.toInt) := by
  have ha := fits_toInt a
  have hb := fits_toInt b
  simp only [Fits] at ha hb
  refine test_eq_exact ?_ ?_ <;>
    simp only [eq_iff_iff, Int64.le_iff_toInt_le, Int64.toInt_sub, Int64.toInt_zero, Int.bmod_def,
      Fits] <;> omega

theorem neg_eq (a : Int64) : neg a = exact (-a.toInt) := by
  have ha := fits_toInt a
  rw [neg, ← ite_not]
  refine test_eq_exact ?_ ?_
  · intro hne
    have hmin : a.toInt ≠ -2 ^ 63 := by
      rwa [← Int64.toInt_minValue, Ne, Int64.toInt_inj]
    rw [Int64.toInt_neg]
    simp only [Fits] at ha
    exact Int.bmod_eq_of_le (by omega) (by omega)
  · intro hmin
    rw [not_not.mp hmin, Int64.toInt_minValue]
    decide

/-- Only the least integer divided by -1 leaves the range. -/
theorem toInt_div (h : ¬ (a = Int64.minValue ∧ b = -1)) : (a / b).toInt = a.toInt.tdiv b.toInt := by
  by_cases ha : a = Int64.minValue
  · exact Int64.toInt_div_of_ne_right a b fun hb => h ⟨ha, hb⟩
  · exact Int64.toInt_div_of_ne_left a b ha

theorem div_eq (a b : Int64) : div a b = exact (a.toInt.tdiv b.toInt) := by
  rw [div, ← ite_not]
  refine test_eq_exact toInt_div ?_
  intro h
  obtain ⟨rfl, rfl⟩ := not_not.mp h
  decide

/-- A product that divides back to its first factor is exact. -/
theorem toInt_mul (hb : b ≠ 0) (hd : a * b / b = a)
    (hm : ¬ (b = -1 ∧ a = Int64.minValue)) : (a * b).toInt = a.toInt * b.toInt := by
  have hq : (a * b).toInt.tdiv b.toInt = a.toInt := by
    rw [← toInt_div, hd]
    rintro ⟨hn, h1⟩
    subst h1
    refine hm ⟨rfl, ?_⟩
    rw [← hd, hn]
    decide
  -- The remainder is less than the divisor and a multiple of the modulus.
  have hr := Int.tmod_add_mul_tdiv (a * b).toInt b.toInt
  rw [hq] at hr
  have hlt : ((a * b).toInt.tmod b.toInt).natAbs < b.toInt.natAbs := by
    rw [Int.natAbs_tmod]
    exact Nat.mod_lt _ (Int.natAbs_pos.mpr (toInt_ne_zero.mpr hb))
  have hmod : (a * b).toInt % 2 ^ 64 = (a.toInt * b.toInt) % 2 ^ 64 := by
    rw [Int64.toInt_mul]
    exact Int.bmod_emod
  have hfits := fits_toInt b
  simp only [Fits] at hfits
  rw [Int.mul_comm b.toInt] at hr
  omega

theorem mul_eq (a b : Int64) : mul a b = exact (a.toInt * b.toInt) := by
  unfold mul
  split
  · next h =>
    refine (exact_eq_some.mpr ?_).symm
    rcases h with rfl | rfl <;> simp
  · next h =>
    obtain ⟨ha, hb⟩ := not_or.mp h
    dsimp only
    rw [← ite_not]
    refine test_eq_exact ?_ ?_
    · intro hok
      simp only [not_or, not_not] at hok
      exact toInt_mul hb hok.1 hok.2.2
    · intro hbad hfits
      have hn : (a * b).toInt = a.toInt * b.toInt := by
        rw [Int64.toInt_mul]
        exact Int.bmod_eq_of_le hfits.1 (Int.lt_of_le_sub_one hfits.2)
      rcases not_not.mp hbad with hd | ⟨rfl, rfl⟩ | ⟨rfl, rfl⟩
      · refine hd (Int64.toInt_inj.mp ?_)
        rw [Int64.toInt_div, hn, Int.mul_tdiv_cancel _ (toInt_ne_zero.mpr hb)]
        have := fits_toInt a
        exact Int.bmod_eq_of_le this.1 (Int.lt_of_le_sub_one this.2)
      · exact absurd hfits (by decide)
      · exact absurd hfits (by decide)

/-! Powers. -/

/-- What is out of range stays so when it is multiplied further. -/
theorem not_fits_mul (h : ¬ Fits z) (hy : 1 ≤ y) : ¬ Fits (z * y) := by
  simp only [Fits, not_and_or, not_le] at h ⊢
  rcases h with h | h
  · exact Or.inl (by nlinarith)
  · exact Or.inr (by nlinarith)

/-- A square is out of range only if it is so by far, since `2 ^ 63` is no square. -/
theorem square_gt (h : ¬ Fits (x * x)) : 2 ^ 63 < x * x := by
  simp only [Fits, not_and_or, not_le] at h
  by_contra hle
  have hlo : x * x ≤ 2 ^ 63 := by omega
  have hhi : 2 ^ 63 ≤ x * x := by
    rcases h with h | h
    · nlinarith
    · omega
  have hx : x ≤ 3037000499 := by nlinarith
  have hx' : -3037000499 ≤ x := by nlinarith
  nlinarith

theorem not_fits_square (h : ¬ Fits (x * x)) (hz : z ≠ 0) (hy : 1 ≤ y) :
    ¬ Fits (z * (x * x * y)) := by
  have hsq := square_gt h
  have hbig : 2 ^ 63 < x * x * y := by nlinarith
  simp only [Fits, not_and_or, not_le]
  rcases Int.lt_or_gt_of_ne hz with hz | hz
  · exact Or.inl (by nlinarith)
  · exact Or.inr (by nlinarith)

theorem pow_halves (x : Int) (e : Nat) : x ^ e = x ^ (e % 2) * (x * x) ^ (e / 2) := by
  conv => lhs; rw [← Nat.mod_add_div e 2]
  rw [pow_add, pow_mul, sq]

theorem lowest_eq (result base : Int64) (e : Nat) :
    (if _ : e % 2 = 1 then mul result base else some result) =
      exact (result.toInt * base.toInt ^ (e % 2)) := by
  rcases Nat.mod_two_eq_zero_or_one e with h | h
  · rw [h, dif_neg (by decide), Int.pow_zero, Int.mul_one]
    exact (exact_eq_some.mpr rfl).symm
  · rw [h, dif_pos rfl, Int.pow_one]
    exact mul_eq result base

theorem one_le_square_pow (hx : x ≠ 0) (k : Nat) : 1 ≤ (x * x) ^ k :=
  Int.pow_pos (mul_self_pos.mpr hx)

/-- A square is taken ahead of its use, but only if it is used: where it does not fit, the power
does not either. -/
theorem powFrom_eq (result base : Int64) (exponent : Nat) (h : result.toInt = 0 → base.toInt = 0) :
    powFrom result base exponent = exact (result.toInt * base.toInt ^ exponent) := by
  fun_induction powFrom result base exponent with
  | case1 result base =>
    rw [Int.pow_zero, Int.mul_one]
    exact (exact_eq_some.mpr rfl).symm
  | case2 result base e he hr =>
    rw [lowest_eq, exact_eq_none] at hr
    have hbase : base.toInt ≠ 0 := by
      intro hb
      refine hr ?_
      rcases Nat.mod_two_eq_zero_or_one e with hm | hm
      · rw [hm, Int.pow_zero, Int.mul_one]
        exact fits_toInt result
      · rw [hm, hb, Int.pow_one, Int.mul_zero]
        decide
    rw [pow_halves, ← Int.mul_assoc]
    exact (exact_eq_none.mpr (not_fits_mul hr (one_le_square_pow hbase _))).symm
  | case3 result base e he r hr hlast =>
    rw [lowest_eq, exact_eq_some] at hr
    rw [pow_halves, hlast, Int.pow_zero, Int.mul_one]
    exact (exact_eq_some.mpr hr).symm
  | case4 result base e he r hr hmore hs =>
    rw [mul_eq, exact_eq_none] at hs
    have hbase : base.toInt ≠ 0 := by
      intro hb
      rw [hb] at hs
      exact hs (by decide)
    have hresult : result.toInt * base.toInt ^ (e % 2) ≠ 0 :=
      Int.mul_ne_zero (fun hr => hbase (h hr)) (Int.pow_ne_zero hbase)
    obtain ⟨k, hk⟩ := Nat.exists_eq_succ_of_ne_zero hmore
    rw [pow_halves, ← Int.mul_assoc, hk, Int.pow_succ']
    exact (exact_eq_none.mpr (not_fits_square hs hresult (one_le_square_pow hbase k))).symm
  | case5 result base e he r hr hmore s hs ih =>
    rw [lowest_eq, exact_eq_some] at hr
    rw [mul_eq, exact_eq_some] at hs
    rw [ih ?_, hr, hs, Int.mul_assoc, ← pow_halves]
    intro hzero
    rw [hr] at hzero
    have hbase : base.toInt = 0 := by
      rcases Int.mul_eq_zero.mp hzero with hz | hz
      · exact h hz
      · exact by_contra fun hb => Int.pow_ne_zero hb hz
    rw [hs, hbase, Int.mul_zero]

theorem pow_eq (base : Int64) (exponent : Nat) :
    pow base exponent = exact (base.toInt ^ exponent) := by
  rw [pow, powFrom_eq 1 base exponent fun h => absurd h (by decide)]
  exact congrArg exact (Int.one_mul _)

end Checked

namespace Operation

/-- The symbol of an operator of arithmetic. -/
def Arithmetic.symbol : Arithmetic → Symbol
  | plus => .plus
  | minus => .minus
  | star => .star
  | slash => .slash
  | percent => .percent
  | carat => .carat

/-- The integer that an operator stands for. A quotient is cut off towards zero and a remainder has
the sign of the dividend; by zero there is neither. -/
def Arithmetic.meaning (a b : Int) : Arithmetic → Option Int
  | plus => some (a + b)
  | minus => some (a - b)
  | star => some (a * b)
  | slash => if b = 0 then none else some (a.tdiv b)
  | percent => if b = 0 then none else some (a.tmod b)
  | carat => some (a ^ b.toNat)

/-- An answer that is as good as 64 bits allow, where `z` is the integer that is asked for, if there
is one. -/
structure Exact (answer : Except Fault Value) (z : Option Int) : Prop where
  given : ∀ r, z = some r → Checked.Fits r → ∃ n : Int64, n.toInt = r ∧ answer = .ok (.int n)
  overflow : ∀ r, z = some r → ¬ Checked.Fits r → answer = .error .overflow
  undefined : z = none → answer = .error .divisionByZero ∨ answer = .error .moduloByZero

theorem exact_checked (r : Int) : Exact (checked (Checked.exact r)) (some r) := by
  refine ⟨?_, ?_, ?_⟩
  · rintro _ ⟨⟩ h
    exact ⟨Int64.ofInt r, Checked.toInt_ofInt h, by rw [Checked.exact, if_pos h, checked]⟩
  · rintro _ ⟨⟩ h
    rw [Checked.exact, if_neg h, checked]
  · intro h
    cases h

theorem exact_undefined {f : Fault} (h : f = .divisionByZero ∨ f = .moduloByZero) :
    Exact (.error f) none := by
  refine ⟨?_, ?_, fun _ => h.imp (congrArg _) (congrArg _)⟩
  · intro _ hz
    cases hz
  · intro _ hz
    cases hz

theorem exact_integers (a b : Int64) (op : Arithmetic) :
    Exact (integers a b op) (op.meaning a.toInt b.toInt) := by
  have hzero : b.toInt = 0 ↔ b = 0 := by
    rw [← Int64.toInt_inj, Int64.toInt_zero]
  cases op with
  | plus =>
    rw [integers, Checked.add_eq]
    exact exact_checked _
  | minus =>
    rw [integers, Checked.sub_eq]
    exact exact_checked _
  | star =>
    rw [integers, Checked.mul_eq]
    exact exact_checked _
  | slash =>
    rw [integers, Checked.div_eq]
    by_cases hb : b = 0
    · rw [if_pos hb, Arithmetic.meaning, if_pos (hzero.mpr hb)]
      exact exact_undefined (Or.inl rfl)
    · rw [if_neg hb, Arithmetic.meaning, if_neg (mt hzero.mp hb)]
      exact exact_checked _
  | percent =>
    rw [integers]
    by_cases hb : b = 0
    · rw [if_pos hb, Arithmetic.meaning, if_pos (hzero.mpr hb)]
      exact exact_undefined (Or.inr rfl)
    · -- A remainder is an integer of 64 bits by itself.
      have hexact : Checked.exact (a.toInt.tmod b.toInt) = some (a % b) :=
        Checked.exact_eq_some.mpr (Int64.toInt_mod a b)
      have h := exact_checked (a.toInt.tmod b.toInt)
      rw [hexact] at h
      rw [if_neg hb, Arithmetic.meaning, if_neg (mt hzero.mp hb)]
      exact h
  | carat =>
    rw [integers, Checked.pow_eq]
    exact exact_checked _

theorem exact_neg (a : Int64) : Exact (unary (some .minus) (.int a)) (some (-a.toInt)) := by
  rw [unary, Checked.neg_eq]
  exact exact_checked _

theorem binary_integers (a b : Int64) (op : Arithmetic) (h : op = .carat → 0 ≤ b) :
    binary (some op.symbol) (.int a) (.int b) = integers a b op := by
  have hpow : ¬ (op = .carat ∧ b < 0) := fun hc => Int64.not_lt.mpr (h hc.1) hc.2
  have harith : arithmetic op (.int a) (.int b) = integers a b op := by
    rw [arithmetic]
    exact if_neg hpow
  rw [← harith]
  cases op <;> rfl

end Operation

namespace Label

variable {σ : Type} {l : Label} {ks : List Node} {x y : Node} {slots : List Nat}

/-- What an operator node makes of the answer to its operation: its result, or a runtime error. -/
def Passes (l : Label) (answer : Except Operation.Fault Value) (work : Evaluation σ Label) : Prop :=
  match answer with
  | .ok v => ∀ m, work m = (.ok (l.withResult v), m)
  | .error fault => ∃ f : Failure, (∀ m, work m = (.error f, m)) ∧
      f.cause = .operation l.name fault ∧ f.cause.kind = .runtime

theorem passes_binary {s : Option Symbol} (h : l.form = .operator s .binary slots)
    (ho : l.operands ks = [x, y]) :
    l.Passes (Operation.binary s x.result y.result)
      (l.evaluateOperator ks : Evaluation σ Label) := by
  unfold evaluateOperator
  simp only [h, ho]
  cases Operation.binary s x.result y.result with
  | ok v => exact fun m => rfl
  | error fault =>
    exact ⟨⟨.operation l.name fault, some l.token, none, none⟩, fun _ => rfl, rfl, rfl⟩

theorem passes_unary {s : Option Symbol} (h : l.form = .operator s .unary slots)
    (ho : l.operands ks = [x]) :
    l.Passes (Operation.unary s x.result) (l.evaluateOperator ks : Evaluation σ Label) := by
  unfold evaluateOperator
  simp only [h, ho]
  cases Operation.unary s x.result with
  | ok v => exact fun m => rfl
  | error fault =>
    exact ⟨⟨.operation l.name fault, some l.token, none, none⟩, fun _ => rfl, rfl, rfl⟩

end Label

namespace Operation

/-- Arithmetic on integers of 64 bits gives the exact integer if there is one that fits, and refuses
otherwise; an operator node has that integer as its result, or fails with a runtime error. -/
theorem integer_arithmetic_exact (a b : Int64) :
    (∀ op, (op = .carat → 0 ≤ b) →
      Exact (integers a b op) (op.meaning a.toInt b.toInt) ∧
      ∀ {σ : Type} (l : Label) (slots : List Nat) (ks : List Node) (x y : Node),
        l.form = .operator (some op.symbol) .binary slots → l.operands ks = [x, y] →
        x.result = .int a → y.result = .int b →
        l.Passes (integers a b op) (l.evaluateOperator ks : Evaluation σ Label)) ∧
    Exact (unary (some .minus) (.int a)) (some (-a.toInt)) ∧
    ∀ {σ : Type} (l : Label) (slots : List Nat) (ks : List Node) (x : Node),
      l.form = .operator (some .minus) .unary slots → l.operands ks = [x] → x.result = .int a →
      l.Passes (unary (some .minus) (.int a)) (l.evaluateOperator ks : Evaluation σ Label) := by
  refine ⟨?_, exact_neg a, ?_⟩
  · intro op hb
    refine ⟨exact_integers a b op, ?_⟩
    intro σ l slots ks x y hl ho hx hy
    rw [← binary_integers a b op hb, ← hx, ← hy]
    exact Label.passes_binary hl ho
  · intro σ l slots ks x hl ho hx
    rw [← hx]
    exact Label.passes_unary hl ho

/-- A literal that is evaluated. -/
def literal (n : Int64) (serial : Nat) : Node :=
  .mk ((Label.ofToken ⟨"INT", Integer.text n⟩ serial).withResult (.int n)) []

/-- A power whose operands are in their slots. -/
def power : Label :=
  { Label.ofToken ⟨"CARAT", []⟩ 1 with form := .operator (some .carat) .binary [2, 3] }

/-- The least integer is a power of -2, and the next power is refused. -/
theorem integer_arithmetic_exact_leastPower :
    (0 : Int64) ≤ 63 ∧ (0 : Int64) ≤ 64 ∧
    Arithmetic.carat.meaning (-2) 63 = some (-2 ^ 63) ∧
    (∃ n : Int64, n.toInt = -2 ^ 63 ∧ integers (-2) 63 .carat = .ok (.int n)) ∧
    Arithmetic.carat.meaning (-2) 64 = some (2 ^ 64) ∧ ¬ Checked.Fits (2 ^ 64) ∧
    integers (-2) 64 .carat = .error .overflow ∧
    (literal (-2) 2).result = .int (-2) ∧ (literal 64 3).result = .int 64 ∧
    power.Passes (integers (-2) 64 .carat)
      (power.evaluateOperator [literal (-2) 2, literal 64 3] : Evaluation Unit Label) := by
  obtain ⟨hleast, -⟩ := (integer_arithmetic_exact (-2) 63).1 .carat (by decide)
  obtain ⟨hnext, hnode⟩ := (integer_arithmetic_exact (-2) 64).1 .carat (by decide)
  exact ⟨by decide, by decide, by decide, hleast.given (-2 ^ 63) (by decide) (by decide), by decide,
    by decide, hnext.overflow (2 ^ 64) (by decide) (by decide), rfl, rfl,
    hnode power [2, 3] [literal (-2) 2, literal 64 3] _ _ rfl rfl rfl rfl⟩

end Operation

end TokenShell
