import Semestr4.DirectoryListing

/-!
# The order in which dates are compared

Every date is compared as the same day of the month after it, 1900 years later.
Where that month is too short, the last days of a month are taken for the first
days of the next one.
-/

set_option autoImplicit false

namespace Semestr4.ListingOrder
open Semestr4.ByteText Semestr4.GregorianCalendar Semestr4.ListingDates
open Semestr4.DirectoryListing

variable {d e : Date}

def KeepsOrder (zone : ℤ) (d e : Date) : Prop :=
  (stringToDate zone d.text < stringToDate zone e.text ↔ d.Earlier e) ∧
  (stringToDate zone d.text = stringToDate zone e.text ↔ d = e)

def SelectsByDate (zone : ℤ) (realpath : Text → Text) (d e : Date) (visit : Visit) : Prop :=
  (fn ⟨less, d.text, zone, realpath⟩ visit ≠ [] ↔ e.Earlier d) ∧
  (fn ⟨equal, d.text, zone, realpath⟩ visit ≠ [] ↔ d = e) ∧
  (fn ⟨greater, d.text, zone, realpath⟩ visit ≠ [] ↔ d.Earlier e)

/-- The date is so late in its month that it is taken for the other date, in
the month after, or for a later one. -/
def Overruns (d e : Date) : Prop :=
  e.monthNumber = d.monthNumber+1 ∧ monthLength d.shiftedMonth+e.day ≤ d.day

def stamp (d : Date) : ℤ := monthStart d.shiftedMonth+d.day

theorem earlier_iff : d.Earlier e ↔
    d.monthNumber < e.monthNumber ∨ d.monthNumber = e.monthNumber ∧ d.day < e.day := by
  have hd := d.month_range
  have he := e.month_range
  unfold Date.Earlier Date.monthNumber
  omega

theorem date_eq_iff : d = e ↔ d.monthNumber = e.monthNumber ∧ d.day = e.day := by
  have hd := d.month_range
  have he := e.month_range
  constructor
  · rintro rfl
    exact ⟨rfl, rfl⟩
  · unfold Date.monthNumber
    rintro ⟨hmonth, hday⟩
    cases d with
    | mk year month day =>
      cases e with
      | mk year' month' day' =>
        simp only at hd he hmonth hday
        obtain rfl : year = year' := by omega
        obtain rfl : month = month' := by omega
        subst hday
        rfl

theorem stringToDate_lt_iff (zone : ℤ) :
    stringToDate zone d.text < stringToDate zone e.text ↔ stamp d < stamp e := by
  rw [stringToDate_text, stringToDate_text, stamp, stamp]
  omega

theorem stringToDate_eq_iff (zone : ℤ) :
    stringToDate zone d.text = stringToDate zone e.text ↔ stamp d = stamp e := by
  rw [stringToDate_text, stringToDate_text, stamp, stamp]
  omega

theorem stamp_same (h : d.monthNumber = e.monthNumber) : stamp e = stamp d+e.day-d.day := by
  unfold stamp Date.shiftedMonth
  rw [h]
  ring

theorem stamp_later (h : d.monthNumber < e.monthNumber) :
    stamp d < stamp e ↔ ¬ Overruns d e := by
  have hd := d.day_le
  have hd1 := d.day_range.1
  have he1 := e.day_range.1
  unfold Overruns stamp
  rcases Int.lt_or_eq_of_le (Int.add_one_le_of_lt h) with hlt | heq
  · -- at least one whole month in between
    have hfar := monthStart_later d.shiftedMonth e.shiftedMonth
      (by unfold Date.shiftedMonth; omega)
    have hgap : 2 ≤ e.shiftedMonth-d.shiftedMonth := by
      unfold Date.shiftedMonth
      omega
    constructor
    · intro _ hover
      omega
    · intro _
      omega
  · have hnext : e.shiftedMonth = d.shiftedMonth+1 := by
      unfold Date.shiftedMonth
      omega
    rw [hnext, monthStart_succ]
    constructor
    · rintro hlt ⟨-, hover⟩
      omega
    · intro hover
      by_contra hle
      exact hover ⟨heq.symm, by omega⟩

/-- Two dates keep their order exactly if none overruns the other. -/
theorem keepsOrder_iff (zone : ℤ) (d e : Date) :
    KeepsOrder zone d e ↔ ¬ Overruns d e ∧ ¬ Overruns e d := by
  unfold KeepsOrder
  rw [stringToDate_lt_iff, stringToDate_eq_iff, earlier_iff, date_eq_iff]
  have hno : ∀ {a b : Date}, a.monthNumber ≤ b.monthNumber → ¬ Overruns b a :=
    fun hle hover => by have := hover.1; omega
  rcases lt_trichotomy d.monthNumber e.monthNumber with hlt | heq | hgt
  · have hlater := stamp_later hlt
    have hback : ¬ Overruns e d := hno hlt.le
    rw [← hlater]
    constructor
    · intro h
      exact ⟨h.1.mpr (Or.inl hlt), hback⟩
    · rintro ⟨h, -⟩
      exact ⟨iff_of_true h (Or.inl hlt), iff_of_false h.ne fun hsame => hlt.ne hsame.1⟩
  · have hsame := stamp_same heq
    refine iff_of_true ⟨?_, ?_⟩ ⟨hno heq.ge, hno heq.le⟩
    · rw [hsame]
      omega
    · rw [hsame]
      omega
  · have hlater := stamp_later hgt
    have hback : ¬ Overruns d e := hno hgt.le
    rw [← hlater]
    constructor
    · intro h
      refine ⟨hback, ?_⟩
      have hnlt : ¬ stamp d < stamp e := fun hlt => by have := h.1.mp hlt; omega
      have hne : stamp d ≠ stamp e := fun heq => by have := h.2.mp heq; omega
      omega
    · rintro ⟨-, h⟩
      exact ⟨iff_of_false h.not_gt (by omega), iff_of_false h.ne' (by omega)⟩

theorem earlier_total : d.Earlier e ∨ d = e ∨ e.Earlier d := by
  rw [earlier_iff, earlier_iff, date_eq_iff]
  omega

theorem earlier_excludes (h : d.Earlier e) : ¬ e.Earlier d ∧ d ≠ e := by
  rw [earlier_iff] at h
  rw [earlier_iff, Ne, date_eq_iff]
  omega

theorem keepsOrder_iff_back (zone : ℤ) : KeepsOrder zone d e ↔
    (stringToDate zone e.text < stringToDate zone d.text ↔ e.Earlier d) ∧
    (stringToDate zone d.text = stringToDate zone e.text ↔ d = e) ∧
    (stringToDate zone d.text < stringToDate zone e.text ↔ d.Earlier e) := by
  constructor
  · rintro ⟨hlt, heq⟩
    refine ⟨?_, heq, hlt⟩
    constructor
    · intro hgt
      rcases earlier_total (d := d) (e := e) with h | h | h
      · exact absurd (hlt.mpr h) hgt.not_gt
      · exact absurd (heq.mpr h) hgt.ne'
      · exact h
    · intro h
      have hnot := earlier_excludes h
      have hnlt := hlt.not.mpr hnot.1
      have hne := heq.not.mpr hnot.2.symm
      omega
  · rintro ⟨-, heq, hlt⟩
    exact ⟨hlt, heq⟩

theorem fn_prints {env : Settings} {visit : Visit} (hfile : visit.flagType = .FTW_F) :
    (env.operator = less → (fn env visit ≠ [] ↔ 0 < difftime env visit.stats)) ∧
    (env.operator = equal → (fn env visit ≠ [] ↔ difftime env visit.stats = 0)) ∧
    (env.operator = greater → (fn env visit ≠ [] ↔ difftime env visit.stats < 0)) := by
  have hlg : less ≠ equal ∧ less ≠ greater ∧ greater ≠ equal := by decide
  refine ⟨fun h => ?_, fun h => ?_, fun h => ?_⟩
  · simp [fn, hfile, h, hlg.1, hlg.2.1]
  · simp [fn, hfile, h]
  · simp [fn, hfile, h, hlg.2.2]

theorem selectsByDate_iff (zone : ℤ) (realpath : Text → Text) {visit : Visit}
    (hfile : visit.flagType = .FTW_F) (hdate : OnDate zone visit.stats.mtime e) :
    SelectsByDate zone realpath d e visit ↔ KeepsOrder zone d e := by
  have hdiff : ∀ operator, difftime ⟨operator, d.text, zone, realpath⟩ visit.stats =
      stringToDate zone d.text-stringToDate zone e.text := by
    intro operator
    rw [difftime, stringToDate_onDate zone hdate]
  rw [keepsOrder_iff_back]
  unfold SelectsByDate
  rw [(fn_prints hfile).1 rfl, (fn_prints hfile).2.1 rfl, (fn_prints hfile).2.2 rfl, hdiff, hdiff,
    hdiff, sub_pos, sub_eq_zero, sub_neg]

/-- Two dates are compared in the order of the calendar, and the operators
select a file of one of them by the other, exactly if none of the two is so late
in its month that it is taken for the other or a later day. -/
theorem calendar_order_iff (zone : ℤ) (d e : Date) :
    (KeepsOrder zone d e ↔ ¬ Overruns d e ∧ ¬ Overruns e d) ∧
    ∀ realpath visit, visit.flagType = .FTW_F → OnDate zone visit.stats.mtime e →
      (SelectsByDate zone realpath d e visit ↔ ¬ Overruns d e ∧ ¬ Overruns e d) := by
  refine ⟨keepsOrder_iff zone d e, fun realpath visit hfile hdate => ?_⟩
  rw [selectsByDate_iff zone realpath hfile hdate]
  exact keepsOrder_iff zone d e

def firstDay : Date := ⟨2001, 1, 1, by decide, by decide, by decide⟩

def secondDay : Date := ⟨2001, 1, 2, by decide, by decide, by decide⟩

def oldFile : Visit := ⟨[47, 97], ⟨.regular, 0, 0, 978393600⟩, .FTW_F⟩

theorem calendar_order_iff_small :
    SelectsByDate 0 id firstDay secondDay oldFile ↔
      ¬ Overruns firstDay secondDay ∧ ¬ Overruns secondDay firstDay :=
  (calendar_order_iff 0 firstDay secondDay).2 id oldFile rfl (by unfold OnDate; decide +kernel)

def lastOfMarch : Date := ⟨2019, 3, 31, by decide, by decide, by decide⟩

def firstOfApril : Date := ⟨2019, 4, 1, by decide, by decide, by decide⟩

/-- The last of March is taken for the same day as the first of April. -/
theorem march_is_april :
    lastOfMarch.text = [50, 48, 49, 57, 45, 48, 51, 45, 51, 49] ∧
    lastOfMarch.Earlier firstOfApril ∧
    stringToDate 0 lastOfMarch.text = stringToDate 0 firstOfApril.text ∧
    ¬ KeepsOrder 0 lastOfMarch firstOfApril := by
  have hearlier : lastOfMarch.Earlier firstOfApril := by
    unfold Date.Earlier
    decide
  have hsame : stringToDate 0 lastOfMarch.text = stringToDate 0 firstOfApril.text := by
    decide +kernel
  refine ⟨by decide, hearlier, hsame, fun h => ?_⟩
  exact (earlier_excludes hearlier).2 (h.2.mp hsame)

end Semestr4.ListingOrder
