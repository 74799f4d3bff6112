import Mathlib.Algebra.Group.Even
import Mathlib.Algebra.Order.BigOperators.Group.Finset
import Mathlib.Algebra.Order.Ring.Abs
import Mathlib.Algebra.Order.Interval.Finset.SuccPred
import Mathlib.Data.Int.ConditionallyCompleteOrder
import Mathlib.Data.Int.Interval
import Mathlib.Data.Int.SuccPred
import Mathlib.Tactic.Linarith
import Mathlib.Tactic.Ring
import Semestr4.PairedSums

/-!
# Sums of divisors

The short loop ends behind the root, so a square has its root added in the loop,
once as the divisor and once as its partner, and the correction behind the loop
is never reached.
-/

set_option autoImplicit false

namespace Semestr4.DivisorSums

/-- The loop of `sump`, with the sum and the candidate it leaves. -/
def sumpLoop (n sum p : ℤ) : ℤ×ℤ :=
  if p*p ≤ n then sumpLoop n (if Int.fmod n p = 0 then sum+p+Int.fdiv n p else sum) (p+1)
  else (sum, p)
termination_by (n+1-p).toNat
decreasing_by
  have hp : p ≤ p^2 := Int.le_self_sq p
  rw [pow_two] at hp
  omega

def sump (n : ℤ) : ℤ :=
  let (sum, p) := sumpLoop n 1 2
  if p*p = n then sum+p else sum

def sump2Loop (n sum p : ℤ) : ℤ :=
  if p < n then sump2Loop n (if Int.fmod n p = 0 then sum+p else sum) (p+1) else sum
termination_by (n-p).toNat

def sump2 (n : ℤ) : ℤ := sump2Loop n 0 1

noncomputable def divisorSum (n : ℤ) : ℤ := ∑ d ∈ Finset.Ico 1 n with d ∣ n, d

theorem divisorSum_eq {n : ℤ} (hn : 2 ≤ n) :
    divisorSum n = 1+∑ d ∈ Finset.Ico 2 n with d ∣ n, d := by
  have hins : insert 1 (Finset.Ico (1+1) n) = Finset.Ico 1 n :=
    Finset.insert_Ico_add_one_left_eq_Ico (by omega)
  rw [divisorSum, ← hins, one_add_one_eq_two, Finset.filter_insert, if_pos (one_dvd n),
    Finset.sum_insert (by simp)]

theorem sump2Loop_eq (n sum p : ℤ) :
    sump2Loop n sum p = sum+∑ d ∈ Finset.Ico p n with d ∣ n, d := by
  fun_induction sump2Loop n sum p with
  | case1 sum p hp ih =>
    have hins : insert p (Finset.Ico (p+1) n) = Finset.Ico p n :=
      Finset.insert_Ico_add_one_left_eq_Ico hp
    simp only [dite_eq_ite] at ih
    rw [ih, ← hins, Finset.filter_insert]
    simp only [← Int.dvd_iff_fmod_eq_zero]
    by_cases hd : p ∣ n
    · rw [if_pos hd, if_pos hd, Finset.sum_insert (by simp), add_assoc]
    · rw [if_neg hd, if_neg hd]
  | case2 sum p hp => rw [Finset.Ico_eq_empty hp, Finset.filter_empty, Finset.sum_empty, add_zero]

theorem sump2_eq (n : ℤ) : sump2 n = divisorSum n := by
  rw [sump2, sump2Loop_eq, zero_add, divisorSum]

/-- The loop is left behind the root, never at it. -/
theorem sumpLoop_exit (n sum p : ℤ) :
    n < (sumpLoop n sum p).2*(sumpLoop n sum p).2 := by
  fun_induction sumpLoop n sum p with
  | case1 sum p hp ih => exact ih
  | case2 sum p hp => exact not_le.mp hp

theorem sump_eq_loop (n : ℤ) : sump n = (sumpLoop n 1 2).1 := if_neg (sumpLoop_exit n 1 2).ne'

theorem sumpLoop_eq (n sum p : ℤ) (h2 : 2 ≤ p) : (sumpLoop n sum p).1 =
    sum+∑ d ∈ Finset.Ico p n with d ∣ n ∧ d*d ≤ n, (d+n/d) := by
  fun_induction sumpLoop n sum p with
  | case1 sum p hp ih =>
    have hlt : p < n := by nlinarith
    have hins : insert p (Finset.Ico (p+1) n) = Finset.Ico p n :=
      Finset.insert_Ico_add_one_left_eq_Ico hlt
    simp only [dite_eq_ite] at ih
    rw [ih (by omega), ← hins, Finset.filter_insert, Int.fdiv_eq_ediv_of_nonneg n (by omega)]
    simp only [← Int.dvd_iff_fmod_eq_zero]
    by_cases hd : p ∣ n
    · rw [if_pos hd, if_pos ⟨hd, hp⟩, Finset.sum_insert (by simp)]
      ring
    · rw [if_neg hd, if_neg fun h => hd h.1]
  | case2 sum p hp =>
    have hempty : ∀ d ∈ Finset.Ico p n, ¬(d ∣ n ∧ d*d ≤ n) := by
      rintro d hd ⟨-, hle⟩
      have hpd := (Finset.mem_Ico.mp hd).1
      exact hp (le_trans (mul_le_mul hpd hpd (by omega) (by omega)) hle)
    rw [Finset.filter_eq_empty_iff.mpr hempty, Finset.sum_empty, add_zero]

noncomputable def inner (n : ℤ) : Finset ℤ := {d ∈ Finset.Ico 2 n | d ∣ n}

theorem mem_inner {n d : ℤ} : d ∈ inner n ↔ (2 ≤ d ∧ d < n) ∧ d ∣ n := by
  rw [inner, Finset.mem_filter, Finset.mem_Ico]

theorem inner_mul {n d : ℤ} (hd : d ∈ inner n) : d*(n/d) = n :=
  Int.mul_ediv_cancel' (mem_inner.mp hd).2

theorem inner_partner {n d : ℤ} (hd : d ∈ inner n) : n/d ∈ inner n := by
  have hmul := inner_mul hd
  obtain ⟨⟨h2, hlt⟩, -⟩ := mem_inner.mp hd
  refine mem_inner.mpr ⟨⟨?_, ?_⟩, Dvd.intro_left d hmul⟩
  · nlinarith
  · nlinarith

theorem inner_involutive {n d : ℤ} (hd : d ∈ inner n) : n/(n/d) = d := by
  have hpos := (mem_inner.mp (inner_partner hd)).1.1
  exact Int.ediv_eq_of_eq_mul_left (by omega) (inner_mul hd).symm

theorem square_le_iff {n d : ℤ} (hd : d ∈ inner n) : d*d ≤ n ↔ d ≤ n/d := by
  have hmul := inner_mul hd
  have hpos := (mem_inner.mp hd).1.1
  constructor
  · intro h
    nlinarith
  · intro h
    nlinarith

/-- What `sump` adds too much: the root of a square. -/
noncomputable def excess (n : ℤ) : ℤ := ∑ d ∈ inner n with n/d = d, d

theorem sum_lower (n : ℤ) : ∑ d ∈ inner n with d*d ≤ n, (d+n/d) =
    ∑ d ∈ inner n with d < n/d, (d+n/d)+∑ d ∈ inner n with n/d = d, (d+n/d) := by
  simp only [Finset.sum_filter, ← Finset.sum_add_distrib]
  apply Finset.sum_congr rfl
  intro d hd
  simp only [square_le_iff hd]
  rcases lt_trichotomy d (n/d) with h | h | h
  · rw [if_pos h.le, if_pos h, if_neg h.ne', add_zero]
  · rw [if_pos h.le, if_neg h.not_lt, if_pos h.symm, zero_add]
  · rw [if_neg h.not_ge, if_neg h.asymm, if_neg h.ne, add_zero]

theorem sump_eq {n : ℤ} (hn : 2 ≤ n) : sump n = divisorSum n+excess n := by
  have hroots : ∑ d ∈ inner n with n/d = d, (d+n/d) = excess n+excess n := by
    rw [excess, ← Finset.sum_add_distrib]
    apply Finset.sum_congr rfl
    intro d hd
    rw [(Finset.mem_filter.mp hd).2]
  have hpairs : ∑ d ∈ inner n, d = ∑ d ∈ inner n with d < n/d, (d+n/d)+excess n :=
    PairedSums.sum_pairs (fun d => inner_partner) (fun d => inner_involutive) id
  calc sump n
    _ = 1+∑ d ∈ inner n with d*d ≤ n, (d+n/d) := by
      rw [sump_eq_loop, sumpLoop_eq n 1 2 le_rfl, ← Finset.filter_filter, inner]
    _ = 1+∑ d ∈ inner n, d+excess n := by
      rw [sum_lower, hroots, hpairs]
      ring
    _ = divisorSum n+excess n := by rw [divisorSum_eq hn, inner]

theorem excess_eq_zero {n : ℤ} (hn : ¬IsSquare n) : excess n = 0 := by
  have hempty : ∀ d ∈ inner n, n/d ≠ d := by
    intro d hd hroot
    have hmul := inner_mul hd
    rw [hroot] at hmul
    exact hn ⟨d, hmul.symm⟩
  rw [excess, Finset.filter_eq_empty_iff.mpr hempty, Finset.sum_empty]

theorem excess_square {r : ℤ} (hr : 2 ≤ r) : excess (r*r) = r := by
  have hroots : {d ∈ inner (r*r) | r*r/d = d} = {r} := by
    ext d
    rw [Finset.mem_filter, Finset.mem_singleton]
    constructor
    · rintro ⟨hd, hroot⟩
      have hpos := (mem_inner.mp hd).1.1
      have hmul := inner_mul hd
      rw [hroot] at hmul
      exact (mul_self_inj (by omega) (by omega)).mp hmul
    · rintro rfl
      exact ⟨mem_inner.mpr ⟨⟨hr, by nlinarith⟩, dvd_mul_left d d⟩,
        Int.mul_ediv_cancel_left d (by omega)⟩
  rw [excess, hroots, Finset.sum_singleton]

theorem sump_square {r : ℤ} (hr : 2 ≤ r) : sump (r*r) = divisorSum (r*r)+r := by
  rw [sump_eq (by nlinarith), excess_square hr]

theorem root_of_square {n : ℤ} (hn : 2 ≤ n) (h : IsSquare n) : ∃ r, 2 ≤ r ∧ n = r*r := by
  obtain ⟨r, rfl⟩ := h
  rw [← abs_mul_abs_self r] at hn ⊢
  exact ⟨|r|, by nlinarith [abs_nonneg r], rfl⟩

def SumsAgree (n : ℤ) : Prop := sump n = sump2 n ∧ sump n = divisorSum n

theorem sums_agree_iff (n : ℤ) (hn : 2 ≤ n) : SumsAgree n ↔ ¬IsSquare n := by
  rw [SumsAgree, sump2_eq, and_self]
  constructor
  · intro h hsquare
    obtain ⟨r, hr, rfl⟩ := root_of_square hn hsquare
    rw [sump_square hr] at h
    omega
  · intro h
    rw [sump_eq hn, excess_eq_zero h, add_zero]

theorem sums_agree_six : SumsAgree 6 :=
  (sums_agree_iff 6 (by decide)).mpr (by decide +kernel)

theorem sums_differ_four : ¬∀ n, 2 ≤ n → SumsAgree n := by
  intro h
  have hsump : sump 4 = 5 := by simp [sump, sumpLoop]
  have hsump2 : sump2 4 = 3 := by simp [sump2, sump2Loop]
  have hfour := (h 4 (by decide)).1
  omega

end Semestr4.DivisorSums
