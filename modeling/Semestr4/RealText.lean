import Mathlib.Algebra.Order.Ring.Rat
import Mathlib.Tactic.NormNum
import Semestr4.BinaryRounding
import Semestr4.ScanText

/-!
# Decimal fractions

The format `%lf` rounds to six decimals. Scanned, such a text gives the double
nearest to its millionths.
-/

set_option autoImplicit false

namespace Semestr4.RealText
open Semestr4.ByteText Semestr4.DecimalText Semestr4.ScanText Semestr4.BinaryRounding

/-- A number that is not negative, rounded to six decimals. -/
def millionths (q : ℚ) : ℕ := (roundEven (q*10^6)).toNat

/-- The format `%lf` of a number that is not negative. -/
def fixed (q : ℚ) : Text := digits (millionths q/10^6)++46::padded 6 (millionths q % 10^6)

def decimals : Text → Text
  | [] => []
  | b::rest => if b = 46 then rest.takeWhile isDigit else []

/-- The conversion `%lf` of a text without an exponent, in the range of the doubles. -/
def scanReal (s : Text) : Option ℚ :=
  let (negative, s, _) := sign 0 (s.dropWhile isSpace)
  let whole := s.takeWhile isDigit
  let fraction := decimals (s.dropWhile isDigit)
  let value := double (number whole+number fraction/10^fraction.length)
  if whole = [] ∧ fraction = [] then none else some (if negative then -value else value)

theorem millionths_natCast {q : ℚ} (h : 0 ≤ q) : (millionths q : ℤ) = roundEven (q*10^6) :=
  Int.toNat_of_nonneg (roundEven_nonneg (mul_nonneg h (by norm_num)))

theorem millionths_le {q : ℚ} (h0 : 0 ≤ q) (h1 : q ≤ 1) : millionths q ≤ 10^6 := by
  have herror := (abs_le.mp (roundEven_error (q*10^6))).2
  have hscaled : q*10^6 ≤ 1*10^6 := mul_le_mul_of_nonneg_right h1 (by norm_num)
  have hround : (roundEven (q*10^6) : ℚ) < 10^6+1 :=
    (sub_le_iff_le_add.mp herror).trans_lt (by linarith)
  have hint : roundEven (q*10^6) < 10^6+1 := by exact_mod_cast hround
  have hcast := millionths_natCast h0
  omega

theorem fixed_length {q : ℚ} (h0 : 0 ≤ q) (h1 : q ≤ 1) : (fixed q).length = 8 := by
  have hle := millionths_le h0 h1
  have hone : (digits (millionths q/10^6)).length = 1 := by
    rw [digits_eq, if_pos (by omega)]
    rfl
  rw [fixed, List.length_append, List.length_cons, padded_length, hone]

theorem mem_fixed {q : ℚ} {b : UInt8} (h : b ∈ fixed q) : isDigit b = true ∨ b = 46 := by
  rcases List.mem_append.mp h with h | h
  · exact Or.inl (digits_isDigit _ b h)
  · rcases List.mem_cons.mp h with rfl | h
    · exact Or.inr rfl
    · exact Or.inl (padded_isDigit _ _ b h)

theorem fixed_ne_nil (q : ℚ) : fixed q ≠ [] := by
  simp [fixed]

theorem scanReal_fixed (q : ℚ) : scanReal (fixed q) = some (double (millionths q/10^6)) := by
  have hdigits := digits_isDigit (millionths q/10^6)
  have htake : (fixed q).takeWhile isDigit = digits (millionths q/10^6) := by
    rw [fixed, List.takeWhile_append_of_pos hdigits, List.takeWhile_cons_of_neg (by decide),
      List.append_nil]
  have hdrop : (fixed q).dropWhile isDigit = 46::padded 6 (millionths q % 10^6) := by
    rw [fixed, List.dropWhile_append_of_pos hdigits, List.dropWhile_cons_of_neg (by decide)]
  have hdecimals : decimals (46::padded 6 (millionths q % 10^6)) =
      padded 6 (millionths q % 10^6) := by
    rw [decimals, if_pos rfl, List.takeWhile_eq_self_iff]
    exact padded_isDigit _ _
  have hsign : sign 0 ((fixed q).dropWhile isSpace) = (false, fixed q, 0) := by
    have hfixed : fixed q = digits (millionths q/10^6)++46::padded 6 (millionths q % 10^6) := rfl
    cases hd : digits (millionths q/10^6) with
    | nil => exact absurd hd (digits_ne_nil _)
    | cons b s =>
      rw [hd] at hfixed hdigits
      obtain ⟨hspace, hminus, hplus, -⟩ := digit_no_sign (hdigits b (List.mem_cons_self ..))
      rw [hfixed, List.cons_append, List.dropWhile_cons_of_neg (by simp [hspace]), sign,
        if_neg hminus, if_neg hplus]
  have hsum : ((millionths q/10^6 : ℕ) : ℚ)+((millionths q % 10^6 : ℕ) : ℚ)/10^6 =
      millionths q/10^6 := by
    have hdiv := Nat.div_add_mod (millionths q) (10^6)
    have hcast : (10^6 : ℚ)*(millionths q/10^6 : ℕ)+(millionths q % 10^6 : ℕ) = millionths q := by
      exact_mod_cast hdiv
    linarith
  unfold scanReal
  simp only [hsign, htake, hdrop, hdecimals, number_digits, number_padded, padded_length,
    Nat.mod_mod, digits_ne_nil, false_and, if_false, hsum, Bool.false_eq_true]

end Semestr4.RealText
