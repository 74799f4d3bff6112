import Mathlib.Algebra.Ring.Nat
import Semestr4.DecimalText

/-!
# Scanning numbers of limited width

The conversion `%nd` of `sscanf` skips blanks and takes at most `n` characters,
of which the first may be a sign. Numbers can be written with a fixed count of
digits, leading zeros included.
-/

set_option autoImplicit false

namespace Semestr4.ScanText
open Semestr4.ByteText Semestr4.DecimalText

def sign (width : ℕ) (s : Text) : Bool × Text × ℕ :=
  match s with
  | [] => (false, [], width)
  | b::rest =>
    if b = 45 then (true, rest, width-1)
    else if b = 43 then (false, rest, width-1)
    else (false, b::rest, width)

/-- One conversion: the number and the rest of the input. -/
def scanNumber (width : ℕ) (s : Text) : Option (ℤ × Text) :=
  let (negative, s, width) := sign width (s.dropWhile isSpace)
  let taken := (s.take width).takeWhile isDigit
  if taken = [] then none
  else some (if negative then -number taken else number taken, s.drop taken.length)

def scanChar (c : UInt8) : Text → Option Text
  | [] => none
  | b::rest => if b = c then some rest else none

def padded : ℕ → ℕ → Text
  | 0, _ => []
  | k+1, n => padded k (n/10)++[UInt8.ofNat (48+n%10)]

theorem padded_length (k n : ℕ) : (padded k n).length = k := by
  induction k generalizing n with
  | zero => rfl
  | succ k ih => rw [padded, List.length_append, ih, List.length_singleton]

theorem padded_isDigit (k n : ℕ) : ∀ b ∈ padded k n, isDigit b = true := by
  induction k generalizing n with
  | zero => exact List.forall_mem_nil _
  | succ k ih =>
    intro b hb
    rcases List.mem_append.mp hb with hb | hb
    · exact ih (n/10) b hb
    · have hall : ∀ d < 10, isDigit (UInt8.ofNat (48+d)) = true := by decide
      rw [List.mem_singleton.mp hb]
      exact hall _ (Nat.mod_lt _ (by decide))

theorem number_padded (k n : ℕ) : number (padded k n) = n%10^k := by
  induction k generalizing n with
  | zero => rw [Nat.pow_zero, Nat.mod_one]; rfl
  | succ k ih =>
    have hlast : ∀ d < 10, (UInt8.ofNat (48+d)).toNat-48 = d := by decide
    rw [padded, number_snoc, ih, hlast _ (Nat.mod_lt _ (by decide)), Nat.pow_succ, Nat.mul_comm _ 10,
      Nat.mod_mul, Nat.add_comm]

structure Written (width : ℕ) (s : Text) (n : ℕ) : Prop where
  nonempty : s ≠ []
  digits : ∀ b ∈ s, isDigit b = true
  fits : s.length ≤ width
  value : number s = n

theorem padded_written {k n : ℕ} (hk : 0 < k) (hn : n < 10^k) : Written k (padded k n) n where
  nonempty := List.ne_nil_of_length_pos (by rw [padded_length]; exact hk)
  digits := padded_isDigit k n
  fits := (padded_length k n).le
  value := by rw [number_padded, Nat.mod_eq_of_lt hn]

theorem digits_written {k n : ℕ} (hk : 0 < k) (hn : n < 10^k) : Written k (digits n) n where
  nonempty := digits_ne_nil n
  digits := digits_isDigit n
  fits := by
    rw [DecimalText.digits, List.length_map]
    exact (Nat.length_toDigits_le_iff (by decide) hk).mpr hn
  value := number_digits n

theorem scanNumber_written {width n : ℕ} {s rest : Text} (h : Written width s n)
    (hrest : ∀ b ∈ rest.head?, isDigit b = false) :
    scanNumber width (s++rest) = some ((n:ℤ), rest) := by
  obtain ⟨hs, hdigits, hwidth, rfl⟩ := h
  have htake : (((s++rest).take width).takeWhile isDigit) = s := by
    have hstop : (rest.take (width-s.length)).takeWhile isDigit = [] := by
      rw [List.takeWhile_eq_nil_iff]
      intro hpos
      cases rest with
      | nil => exact absurd hpos (by simp)
      | cons c rest =>
        have hc : isDigit c = false := hrest c rfl
        simp [hc]
    rw [List.take_append, List.take_of_length_le hwidth, List.takeWhile_append_of_pos hdigits,
      hstop, List.append_nil]
  cases s with
  | nil => exact absurd rfl hs
  | cons b s =>
    obtain ⟨hspace, hminus, hplus, -⟩ := digit_no_sign (hdigits b (List.mem_cons_self ..))
    have hskip : ((b::s)++rest).dropWhile isSpace = (b::s)++rest := by
      simp [hspace]
    have hsign : sign width ((b::s)++rest) = (false, (b::s)++rest, width) := by
      rw [List.cons_append, sign, if_neg hminus, if_neg hplus]
    unfold scanNumber
    rw [hskip, hsign]
    simp only [htake, if_neg hs, List.drop_left]
    rfl

end Semestr4.ScanText
