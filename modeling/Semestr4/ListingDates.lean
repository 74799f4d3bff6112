import Semestr4.GregorianCalendar
import Semestr4.ScanText

/-!
# The dates of the directory listing

A date is read from its text into the fields of `struct tm`, with the year and
the month as they are written, and made into seconds by `mktime`. The time of a
file goes through the same function, by way of the text of its local date. The
local time differs from the universal one by a constant.
-/

set_option autoImplicit false

namespace Semestr4.ListingDates
open Semestr4.ByteText Semestr4.DecimalText Semestr4.ScanText Semestr4.GregorianCalendar

/-- The fields `tm_year`, counted from 1900, `tm_mon`, counted from 0, and
`tm_mday`, counted from 1. -/
structure Tm where
  year : ℤ
  mon : ℤ
  mday : ℤ
  deriving DecidableEq, Repr

def hyphen : UInt8 := 45

def epoch : ℤ := monthStart (12*1970)

/-- Months and days out of range count on from the beginning of the year and of
the month. -/
def mktime (zone : ℤ) (t : Tm) : ℤ :=
  86400*(monthStart (12*(t.year+1900)+t.mon)+(t.mday-1)-epoch)-zone

def localtime (zone time : ℤ) : Tm :=
  let (month, day) := monthAndDay ((time+zone)/86400+epoch)
  ⟨month/12-1900, month%12, day+1⟩

/-- The conversion `%F`. -/
def strftime (t : Tm) : Text :=
  decimal (t.year+1900)++hyphen::padded 2 (t.mon+1).toNat++hyphen::padded 2 t.mday.toNat

/-- The three conversions of `%4d-%2d-%2d`. -/
def scanDate (date : Text) : Option (ℤ × ℤ × ℤ) := do
  let (year, rest) ← scanNumber 4 date
  let rest ← scanChar hyphen rest
  let (month, rest) ← scanNumber 2 rest
  let rest ← scanChar hyphen rest
  let (day, _) ← scanNumber 2 rest
  return (year, month, day)

def stringToDate (zone : ℤ) (date : Text) : ℤ :=
  match scanDate date with
  | some (year, month, day) => mktime zone ⟨year, month, day⟩
  | none => 0

def dateToString (zone time : ℤ) : Text := strftime (localtime zone time)

structure Date where
  year : ℕ
  month : ℕ
  day : ℕ
  year_le : year ≤ 9999
  month_range : 1 ≤ month ∧ month ≤ 12
  day_range : 1 ≤ day ∧ day ≤ monthLength (12*year+(month-1))
  deriving DecidableEq

def Date.text (d : Date) : Text :=
  padded 4 d.year++hyphen::padded 2 d.month++hyphen::padded 2 d.day

def Date.Earlier (d e : Date) : Prop :=
  d.year < e.year ∨ d.year = e.year ∧
    (d.month < e.month ∨ d.month = e.month ∧ d.day < e.day)

def Date.monthNumber (d : Date) : ℤ := 12*d.year+(d.month-1)

def Date.shiftedMonth (d : Date) : ℤ := d.monthNumber+12*1900+1

theorem hyphen_no_digit (rest : Text) : ∀ b ∈ (hyphen::rest).head?, isDigit b = false := by
  intro b hb
  rw [← Option.some.inj hb]
  rfl

theorem scanDate_written {year month day : Text} {y m d : ℕ} (hy : Written 4 year y)
    (hm : Written 2 month m) (hd : Written 2 day d) :
    scanDate (year++hyphen::month++hyphen::day) = some ((y:ℤ), (m:ℤ), (d:ℤ)) := by
  have hyear := scanNumber_written hy (hyphen_no_digit (month++hyphen::day))
  have hmonth := scanNumber_written hm (hyphen_no_digit day)
  have hday : scanNumber 2 (day++[]) = some ((d:ℤ), []) :=
    scanNumber_written hd (fun b hb => by cases hb)
  rw [List.append_nil] at hday
  rw [List.append_assoc, List.cons_append]
  simp [scanDate, hyear, hmonth, hday, scanChar]

theorem stringToDate_written (zone : ℤ) {year month day : Text} {y m d : ℕ}
    (hy : Written 4 year y) (hm : Written 2 month m) (hd : Written 2 day d) :
    stringToDate zone (year++hyphen::month++hyphen::day) =
      86400*(monthStart (12*y+(m-1)+12*1900+1)+(d-1)-epoch)-zone := by
  have hmonth : 12*((y:ℤ)+1900)+m = 12*y+(m-1)+12*1900+1 := by ring
  rw [stringToDate, scanDate_written hy hm hd]
  simp only [mktime, hmonth]

theorem Date.day_le (d : Date) : d.day ≤ 31 := by
  have hday := d.day_range.2
  have hrange := monthLength_range (12*d.year+(d.month-1))
  omega

theorem stringToDate_text (zone : ℤ) (d : Date) : stringToDate zone d.text =
    86400*(monthStart d.shiftedMonth+(d.day-1)-epoch)-zone := by
  have hday := d.day_le
  have hmonth := d.month_range.2
  have hyear := d.year_le
  exact stringToDate_written zone (padded_written (by decide) (by omega))
    (padded_written (by decide) (by omega)) (padded_written (by decide) (by omega))

/-- The date of a time, of a year that is written with at most four digits. -/
def OnDate (zone time : ℤ) (d : Date) : Prop :=
  (localtime zone time).year+1900 = d.year ∧ (localtime zone time).mon+1 = d.month ∧
    (localtime zone time).mday = d.day

theorem stringToDate_onDate (zone : ℤ) {time : ℤ} {d : Date} (h : OnDate zone time d) :
    stringToDate zone (dateToString zone time) = stringToDate zone d.text := by
  obtain ⟨hyear, hmonth, hday⟩ := h
  have hd := d.day_le
  have hm := d.month_range.2
  have hy := d.year_le
  rw [stringToDate_text, dateToString, strftime, hyear, hmonth, hday, decimal_natCast]
  exact stringToDate_written zone (digits_written (by decide) (by omega))
    (padded_written (by decide) (by omega)) (padded_written (by decide) (by omega))

theorem onDate_exists (zone time : ℤ) (h0 : 0 ≤ (localtime zone time).year+1900)
    (h1 : (localtime zone time).year+1900 ≤ 9999) : ∃ d, OnDate zone time d := by
  obtain ⟨-, hd0, hd1⟩ := monthAndDay_spec ((time+zone)/86400+epoch)
  simp only [localtime] at h0 h1
  generalize hday : (monthAndDay ((time+zone)/86400+epoch)).2 = day at hd0 hd1
  generalize hmonth : (monthAndDay ((time+zone)/86400+epoch)).1 = month at h0 h1 hd1
  have hnumber : 12*((month/12).toNat:ℤ)+(((month%12).toNat+1:ℕ)-1) = month := by omega
  refine ⟨⟨(month/12).toNat, (month%12).toNat+1, day.toNat+1, by omega, by omega, by omega, ?_⟩,
    ?_, ?_, ?_⟩
  · rw [hnumber]
    omega
  · simp only [localtime, hmonth]
    omega
  · simp only [localtime, hmonth]
    omega
  · simp only [localtime, hday]
    omega

end Semestr4.ListingDates
