import Mathlib.Algebra.Order.Field.Power
import Mathlib.Data.Int.Log
import Mathlib.Data.Nat.Prime.Basic
import Mathlib.Data.Rat.Floor
import Mathlib.Tactic.Linarith
import Mathlib.Tactic.Ring

/-!
# Rounding to a double

A number is rounded to 53 binary digits, fewer near zero, a half to the even
neighbour. The error is small relative to the number, and fractions of few binary
digits are kept. What a rounding leaves beyond the range of the doubles is no
number.
-/

set_option autoImplicit false

namespace Semestr4.BinaryRounding

/-- The nearest whole number, of two the even one. -/
def roundEven (q : ℚ) : ℤ :=
  if q-⌊q⌋ < 1/2 ∨ q-⌊q⌋ = 1/2 ∧ ⌊q⌋ % 2 = 0 then ⌊q⌋ else ⌊q⌋+1

def lastDigit (q : ℚ) : ℤ := max (Int.log 2 |q|-52) (-1074)

def spacing (q : ℚ) : ℚ := 2^lastDigit q

def double (q : ℚ) : ℚ := roundEven (q/spacing q)*spacing q

/-- Nothing where the nearest double is infinite. -/
def finite (q : ℚ) : Option ℚ := if |double q| < 2^1024 then some (double q) else none

/-- Zero, or large enough to have 53 digits. -/
def Normal (q : ℚ) : Prop := q = 0 ∨ 2^(-1022 : ℤ) ≤ |q|

theorem roundEven_error (q : ℚ) : |roundEven q-q| ≤ 1/2 := by
  have hlow := Int.floor_le q
  have hhigh := Int.lt_floor_add_one q
  unfold roundEven
  split
  · rename_i h
    have hle : q-⌊q⌋ ≤ 1/2 := h.elim le_of_lt fun h => h.1.le
    rw [abs_le]
    constructor <;> linarith
  · rename_i h
    have hge : 1/2 ≤ q-⌊q⌋ := not_lt.mp fun hlt => h (Or.inl hlt)
    push_cast
    rw [abs_le]
    constructor <;> linarith

theorem roundEven_intCast (z : ℤ) : roundEven z = z := by
  simp [roundEven]

theorem roundEven_nonneg {q : ℚ} (h : 0 ≤ q) : 0 ≤ roundEven q := by
  have hfloor := Int.floor_nonneg.mpr h
  unfold roundEven
  split <;> omega

theorem spacing_pos (q : ℚ) : 0 < spacing q := zpow_pos (by norm_num) _

theorem spacing_le {q : ℚ} (h : 0 < q) (hnormal : Normal q) : spacing q ≤ q/2^52 := by
  have hlog : (2 : ℚ)^Int.log 2 q ≤ q := by
    exact_mod_cast Int.zpow_log_le_self (by decide : 1 < 2) h
  have hlarge : (2 : ℚ)^(-1022 : ℤ) ≤ q := by
    rcases hnormal with rfl | hnormal
    · exact absurd h (lt_irrefl 0)
    · rwa [abs_of_pos h] at hnormal
  have hlow : -1022 ≤ Int.log 2 q :=
    (Int.zpow_le_iff_le_log (by decide) h).mp (by exact_mod_cast hlarge)
  rw [spacing, lastDigit, abs_of_pos h, max_eq_left (by omega), zpow_sub₀ (by norm_num)]
  exact div_le_div_of_nonneg_right hlog (by norm_num)

theorem double_zero : double 0 = 0 := by
  simp [double, roundEven]

theorem double_nonneg {q : ℚ} (h : 0 ≤ q) : 0 ≤ double q := by
  have hround := roundEven_nonneg (div_nonneg h (spacing_pos q).le)
  exact mul_nonneg (by exact_mod_cast hround) (spacing_pos q).le

theorem double_error {q : ℚ} (h : 0 ≤ q) (hnormal : Normal q) : |double q-q| ≤ q/2^53 := by
  rcases h.eq_or_lt with rfl | hpos
  · simp [double_zero]
  · have hround := roundEven_error (q/spacing q)
    have hsplit : double q-q = (roundEven (q/spacing q)-q/spacing q)*spacing q := by
      rw [double, sub_mul, div_mul_cancel₀ _ (spacing_pos q).ne']
    calc |double q-q| = |roundEven (q/spacing q)-q/spacing q| * spacing q := by
          rw [hsplit, abs_mul, abs_of_pos (spacing_pos q)]
      _ ≤ 1/2*(q/2^52) :=
          mul_le_mul hround (spacing_le hpos hnormal) (spacing_pos q).le (by norm_num)
      _ = q/2^53 := by ring

/-- What reads a number no less accurately than the nearest double. -/
structure Accurate (read : ℚ → ℚ) : Prop where
  nonneg : ∀ {q : ℚ}, 0 ≤ q → 0 ≤ read q
  error : ∀ {q : ℚ}, 0 ≤ q → Normal q → |read q-q| ≤ q/2^53

theorem accurate_double : Accurate double := ⟨double_nonneg, double_error⟩

theorem accurate_id : Accurate id where
  nonneg h := h
  error {q} h _ := by
    rw [id, sub_self, abs_zero]
    exact div_nonneg h (by norm_num)

/-- A fraction of natural numbers in range is far from the smallest doubles. -/
theorem normal_fraction (n : ℕ) {d : ℕ} (h : d < 2^64) : Normal (n/d) := by
  rcases Nat.eq_zero_or_pos n with rfl | hn
  · exact Or.inl (by simp)
  rcases Nat.eq_zero_or_pos d with rfl | hd
  · exact Or.inl (by simp)
  right
  have hpos : (0 : ℚ) < d := by exact_mod_cast hd
  have hone : (1 : ℚ) ≤ n := by exact_mod_cast hn
  have hd64 : (d : ℚ) ≤ 2^64 := by exact_mod_cast h.le
  calc (2 : ℚ)^(-1022 : ℤ) ≤ 2^(-64 : ℤ) := zpow_le_zpow_right₀ (by norm_num) (by decide)
    _ = 1/2^64 := by norm_num
    _ ≤ n/d := div_le_div₀ (by linarith) hone hpos hd64
    _ = |(n/d : ℚ)| := (abs_of_nonneg (by positivity)).symm

theorem double_multiple {q : ℚ} (z : ℤ) (h : q = z*spacing q) : double q = q := by
  have hwhole : q/spacing q = z := by
    rw [div_eq_iff (spacing_pos q).ne', ← h]
  rw [double, hwhole, roundEven_intCast, ← h]

theorem log_fraction {a : ℕ} (ha : 0 < a) (j : ℕ) :
    Int.log 2 ((a : ℚ)/2^j) = Nat.log 2 a-j := by
  have hpos : (0 : ℚ) < a := by exact_mod_cast ha
  have hpow : (0 : ℚ) < 2^j := by positivity
  apply eq_of_forall_le_iff
  intro x
  have hlow := Int.zpow_le_iff_le_log (by decide : 1 < 2) (x := x) (div_pos hpos hpow)
  have hhigh := Int.zpow_le_iff_le_log (by decide : 1 < 2) (x := x+j) hpos
  rw [Int.log_natCast] at hhigh
  rw [← hlow, Nat.cast_ofNat, le_div_iff₀ hpow, ← zpow_natCast, ← zpow_add₀ (by norm_num)]
  rw [Nat.cast_ofNat] at hhigh
  rw [hhigh]
  omega

/-- A fraction of less than 53 binary digits is a double. -/
theorem double_binary {a j : ℕ} (ha : a < 2^53) (hj : j < 64) :
    double ((a : ℚ)/2^j) = a/2^j := by
  rcases Nat.eq_zero_or_pos a with rfl | hpos
  · simp [double_zero]
  have hlog : Nat.log 2 a ≤ 52 := Nat.le_of_lt_succ (Nat.log_lt_of_lt_pow hpos.ne' ha)
  have hdigit : lastDigit ((a : ℚ)/2^j) ≤ -j := by
    rw [lastDigit, abs_of_nonneg (by positivity), log_fraction hpos]
    omega
  obtain ⟨k, hk⟩ := Int.eq_ofNat_of_zero_le (sub_nonneg.mpr hdigit)
  apply double_multiple (a*2^k : ℕ)
  rw [spacing]
  push_cast
  rw [mul_assoc, ← zpow_natCast 2 k, ← hk, ← zpow_add₀ (by norm_num), sub_add_cancel, zpow_neg,
    zpow_natCast, div_eq_mul_inv]

theorem double_natCast {n : ℕ} (h : n < 2^53) : double n = n := by
  have hwhole := double_binary h (j := 0) (by decide)
  rwa [pow_zero, div_one] at hwhole

end Semestr4.BinaryRounding
