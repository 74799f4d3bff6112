import Mathlib.Algebra.BigOperators.Group.List.Basic
import Mathlib.Algebra.Order.Ring.Int
import Mathlib.Data.List.GetD
import Mathlib.Tactic.Ring

/-!
# The proleptic Gregorian calendar

Months are counted through all years, twelve to a year, so that month `m` of a
year, counted from 0, has the number `12*year+m`. Days are counted from the
first of January of the year 1. A month number out of the range of its year is
only another way to write a month.
-/

set_option autoImplicit false

namespace Semestr4.GregorianCalendar

def leap (year : ℤ) : Bool := year%4 = 0 ∧ (year%100 ≠ 0 ∨ year%400 = 0)

def monthLengths (year : ℤ) : List ℤ :=
  [31, if leap year then 29 else 28, 31, 30, 31, 30, 31, 31, 30, 31, 30, 31]

def yearStart (year : ℤ) : ℤ := 365*(year-1)+(year-1)/4-(year-1)/100+(year-1)/400

def monthLength (month : ℤ) : ℤ := (monthLengths (month/12)).getD (month%12).toNat 0

def monthStart (month : ℤ) : ℤ :=
  yearStart (month/12)+((monthLengths (month/12)).take (month%12).toNat).sum

/-- The month and the day, counted from 0, of a day number that is `rest` days
after the beginning of a month. -/
def locate : ℕ → ℤ → ℤ → ℤ × ℤ
  | 0, month, rest => (month, rest)
  | fuel+1, month, rest =>
    if rest < monthLength month then (month, rest)
    else locate fuel (month+1) (rest-monthLength month)

/-- The month and the day of a day number. The calendar repeats every 400 years. -/
def monthAndDay (day : ℤ) : ℤ × ℤ := locate 4800 (12*(400*(day/146097)+1)) (day%146097)

theorem yearStart_succ (year : ℤ) :
    yearStart (year+1) = yearStart year+if leap year then 366 else 365 := by
  unfold yearStart leap
  split <;> rename_i h <;> simp only [decide_eq_true_eq] at h <;> omega

theorem monthLengths_sum (year : ℤ) :
    (monthLengths year).sum = if leap year then 366 else 365 := by
  unfold monthLengths
  split <;> rfl

theorem take_succ_sum (year : ℤ) {k : ℕ} (hk : k < 12) :
    ((monthLengths year).take (k+1)).sum =
      ((monthLengths year).take k).sum+(monthLengths year).getD k 0 := by
  have hlen : k < (monthLengths year).length := hk
  rw [List.take_succ_eq_append_getElem hlen, List.sum_append, List.sum_singleton,
    List.getD_eq_getElem _ _ hlen]

theorem monthStart_succ (month : ℤ) : monthStart (month+1) = monthStart month+monthLength month := by
  obtain ⟨k, hk⟩ : ∃ k : ℕ, month%12 = k := ⟨(month%12).toNat, by omega⟩
  have hk12 : k < 12 := by omega
  have hsum := take_succ_sum (month/12) hk12
  unfold monthStart monthLength
  rw [hk, Int.toNat_natCast, add_assoc, ← hsum]
  rcases Nat.lt_or_ge k 11 with hlt | hge
  · have hyear : (month+1)/12 = month/12 := by omega
    have hnext : ((month+1)%12).toNat = k+1 := by omega
    rw [hyear, hnext]
  · -- the year after
    have hlast : k = 11 := by omega
    have hyear : (month+1)/12 = month/12+1 := by omega
    have hnext : ((month+1)%12).toNat = 0 := by omega
    have hall : (monthLengths (month/12)).take (k+1) = monthLengths (month/12) := by
      rw [hlast]
      rfl
    rw [hyear, hnext, yearStart_succ, hall, monthLengths_sum]
    exact add_zero _

theorem monthLength_range (month : ℤ) : 28 ≤ monthLength month ∧ monthLength month ≤ 31 := by
  obtain ⟨k, hk⟩ : ∃ k : ℕ, month%12 = k := ⟨(month%12).toNat, by omega⟩
  have hlen : k < (monthLengths (month/12)).length := by
    show k < 12
    omega
  have hall : ∀ d ∈ monthLengths (month/12), 28 ≤ d ∧ d ≤ 31 := by
    unfold monthLengths
    split <;> decide
  unfold monthLength
  rw [hk, Int.toNat_natCast, List.getD_eq_getElem _ _ hlen]
  exact hall _ (List.getElem_mem hlen)

/-- A later month begins at least 28 days later for every month between. -/
theorem monthStart_add (month : ℤ) (n : ℕ) : monthStart month+28*n ≤ monthStart (month+n) := by
  induction n with
  | zero => simp
  | succ n ih =>
    have hnext := monthStart_succ (month+n)
    have hrange := monthLength_range (month+n)
    rw [Nat.cast_succ, ← add_assoc, hnext]
    omega

theorem monthStart_later (month later : ℤ) (h : month ≤ later) :
    monthStart month+28*(later-month) ≤ monthStart later := by
  obtain ⟨n, hn⟩ : ∃ n : ℕ, later = month+n := ⟨(later-month).toNat, by omega⟩
  have hle := monthStart_add month n
  rw [hn]
  omega

theorem locate_spec (fuel : ℕ) (month rest : ℤ) (h0 : 0 ≤ rest)
    (h : monthStart month+rest < monthStart (month+fuel)) :
    monthStart (locate fuel month rest).1+(locate fuel month rest).2 = monthStart month+rest ∧
      0 ≤ (locate fuel month rest).2 ∧
      (locate fuel month rest).2 < monthLength (locate fuel month rest).1 := by
  induction fuel generalizing month rest with
  | zero =>
    rw [Nat.cast_zero, add_zero] at h
    omega
  | succ fuel ih =>
    rw [locate]
    split
    · rename_i hlt
      exact ⟨rfl, h0, hlt⟩
    · rename_i hge
      have hnext := monthStart_succ month
      have hfuel : month+1+fuel = month+(fuel+1:ℕ) := by
        push_cast
        ring
      obtain ⟨hsame, hrest⟩ := ih (month+1) (rest-monthLength month) (by omega)
        (by rw [hfuel]; omega)
      refine ⟨hsame.trans ?_, hrest⟩
      rw [hnext]
      ring

theorem monthStart_era (era : ℤ) : monthStart (12*(400*era+1)) = 146097*era := by
  have hyear : 12*(400*era+1)/12 = 400*era+1 := by omega
  have hmonth : (12*(400*era+1)%12).toNat = 0 := by omega
  unfold monthStart yearStart
  rw [hyear, hmonth, List.take_zero, List.sum_nil]
  omega

/-- Every day number has its month and its day in it. -/
theorem monthAndDay_spec (day : ℤ) :
    monthStart (monthAndDay day).1+(monthAndDay day).2 = day ∧ 0 ≤ (monthAndDay day).2 ∧
      (monthAndDay day).2 < monthLength (monthAndDay day).1 := by
  have hera := monthStart_era (day/146097)
  have hnext := monthStart_era (day/146097+1)
  have hmonths : 12*(400*(day/146097)+1)+(4800:ℕ) = 12*(400*(day/146097+1)+1) := by
    push_cast
    ring
  have hspec := locate_spec 4800 (12*(400*(day/146097)+1)) (day%146097) (by omega)
    (by rw [hmonths]; omega)
  refine ⟨hspec.1.trans ?_, hspec.2⟩
  rw [hera]
  omega

end Semestr4.GregorianCalendar
