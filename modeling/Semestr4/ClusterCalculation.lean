import Semestr4.CharArray
import Semestr4.ClusterClient

/-!
# The results of the cluster

A result is printed into ten bytes, which hold nine characters. A quotient has to
exist, and sums, differences and products are reduced to the range of `int` first.
-/

set_option autoImplicit false

namespace Semestr4.ClusterCalculation
open Semestr4.ByteText Semestr4.DecimalText Semestr4.CharArray Semestr4.ClusterClient

structure Operand where
  value : ℤ
  lower : -2^31 ≤ value
  upper : value < 2^31

inductive Operator where
  | plus
  | minus
  | times
  | divide
  deriving DecidableEq, Repr

def Operator.byte : Operator → UInt8
  | .plus => 43
  | .minus => 45
  | .times => 42
  | .divide => 47

/-- The exact value; a quotient is truncated. -/
def Operator.apply : Operator → ℤ → ℤ → ℤ
  | .plus, a, b => a+b
  | .minus, a, b => a-b
  | .times, a, b => a*b
  | .divide, a, b => a.tdiv b

def request (op : Operator) (a b : Operand) : Text :=
  decimal a.value++32::op.byte::32::(decimal b.value++[10])

/-- `result`, or nothing where the calculation faults or the text does not fit. -/
def result (e : Text) : Option (Chars 10) :=
  (calculate e).bind fun calculated => (zeros 10).strcpy (decimal calculated.1)

theorem decimal_not_mem {d : UInt8} (hd : isDigit d = false) (hsign : d ≠ 45) (z : ℤ) :
    d ∉ decimal z := by
  have hdigits : d ∉ digits z.natAbs := fun hmem => by
    simp [digits_isDigit _ d hmem] at hd
  rw [decimal]
  split
  · rw [List.mem_cons, not_or]
    exact ⟨hsign, hdigits⟩
  · exact hdigits

theorem decimal_ne_nil (z : ℤ) : decimal z ≠ [] := by
  rw [decimal]
  split
  · simp
  · exact digits_ne_nil _

theorem argument_decimal (a : Operand) : argument (decimal a.value) = a.value := by
  have hlower := a.lower
  have hupper := a.upper
  rw [argument, atoi_decimal, wrap]
  have hlong : max (-2^63) (min (2^63-1) a.value) = a.value := by
    rw [min_eq_right (by omega), max_eq_right (by omega)]
  rw [hlong]
  exact Int.bmod_eq_of_le (by omega) (by omega)

theorem calculate_request (op : Operator) (a b : Operand) :
    (calculate (request op a b)).map Prod.fst = operate op.byte a.value b.value := by
  have hfirst : strtok [32] (request op a b) =
      some (decimal a.value, op.byte::32::(decimal b.value++[10])) :=
    strtok_token (decimal_ne_nil _) (fun c hc hmem => by
      rw [List.mem_singleton.mp hmem] at hc
      exact decimal_not_mem (by decide) (by decide) _ hc) (List.mem_singleton_self _) _
  have hoperator : strtok [32] (op.byte::32::(decimal b.value++[10])) =
      some ([op.byte], decimal b.value++[10]) := by
    have hbyte : ∀ c ∈ [op.byte], c ∉ [32] := by
      cases op <;> simp [Operator.byte]
    exact strtok_token (List.cons_ne_nil _ _) hbyte (List.mem_singleton_self _) _
  have hsecond : strtok [32, 10] (decimal b.value++[10]) = some (decimal b.value, []) :=
    strtok_token (decimal_ne_nil _) (fun c hc hmem => by
      rcases List.mem_pair.mp hmem with rfl | rfl
      · exact decimal_not_mem (by decide) (by decide) _ hc
      · exact decimal_not_mem (by decide) (by decide) _ hc) (by simp) []
  simp only [calculate, hfirst, hoperator, hsecond, argument_decimal, List.headD_cons,
    Option.map_map, Function.comp_def, Option.map_id']

def Printable (z : ℤ) : Prop := -99999999 ≤ z ∧ z ≤ 999999999

theorem decimal_fits {z : ℤ} : (decimal z).length < 10 ↔ Printable z := by
  have hlength : ∀ k, 0 < k → ((digits z.natAbs).length ≤ k ↔ z.natAbs < 10^k) := fun k hk => by
    rw [digits, List.length_map, Nat.length_toDigits_le_iff (by decide) hk]
  have height := hlength 8 (by decide)
  have hnine := hlength 9 (by decide)
  rw [decimal, Printable]
  split
  · rw [List.length_cons]
    omega
  · omega

theorem wrap_printable {z : ℤ} : Printable (wrap z) ↔ ∃ k, Printable (z+k*2^32) := by
  constructor
  · intro h
    refine ⟨-z.bdiv (2^32), ?_⟩
    rw [wrap, Int.bmod_eq_self_sub_bdiv_mul] at h
    rwa [Int.neg_mul, ← Int.sub_eq_add_neg]
  · rintro ⟨k, hlower, hupper⟩
    have hwrap : wrap z = z+k*2^32 := by
      rw [wrap, ← Int.add_mul_bmod_self_right z k (2^32)]
      exact Int.bmod_eq_of_le (by omega) (by omega)
    rw [hwrap]
    exact ⟨hlower, hupper⟩

/-- The divisor is not zero and the quotient is printable, or the exact value is
printable up to a multiple of 2^32. -/
def Safe (op : Operator) (a b : ℤ) : Prop :=
  match op with
  | .divide => b ≠ 0 ∧ Printable (a.tdiv b)
  | _ => ∃ k, Printable (op.apply a b+k*2^32)

theorem strcpy_some {z : ℤ} : (∃ buffer, (zeros 10).strcpy (decimal z) = some buffer) ↔
    Printable z := by
  rw [← decimal_fits, Chars.strcpy]
  split
  · rename_i h
    exact iff_of_true ⟨_, rfl⟩ h
  · rename_i h
    exact iff_of_false (by simp) h

theorem result_some {e : Text} : (∃ buffer, result e = some buffer) ↔
    ∃ z, (calculate e).map Prod.fst = some z ∧ Printable z := by
  rw [result]
  cases calculate e with
  | none => simp
  | some calculated => simpa using strcpy_some

theorem operate_divide (a b : ℤ) : operate Operator.divide.byte a b =
    if b = 0 ∨ a = -2^31 ∧ b = -1 then none else some (a.tdiv b) := rfl

/-- The result is calculated and printed into the buffer if and only if it is safe. -/
theorem result_safe_iff (op : Operator) (a b : Operand) :
    (∃ buffer, result (request op a b) = some buffer) ↔ Safe op a.value b.value := by
  have hsome : ∀ z, (∃ r, some z = some r ∧ Printable r) ↔ Printable z := by simp
  rw [result_some, calculate_request]
  cases op with
  | plus => exact (hsome _).trans wrap_printable
  | minus => exact (hsome _).trans wrap_printable
  | times => exact (hsome _).trans wrap_printable
  | divide =>
    rw [operate_divide]
    split
    · rename_i h
      refine iff_of_false (by simp) ?_
      rintro ⟨hzero, -, hupper⟩
      obtain ⟨hlow, hone⟩ := h.resolve_left hzero
      rw [hlow, hone] at hupper
      exact absurd hupper (by decide)
    · rename_i h
      exact (hsome _).trans (and_iff_right (not_or.mp h).1).symm

def one : Operand := ⟨1, by decide, by decide⟩

def zero : Operand := ⟨0, by decide, by decide⟩

/-- A division by zero. -/
theorem division_faults : ¬∀ (op : Operator) (a b : Operand),
    ∃ buffer, result (request op a b) = some buffer := by
  intro h
  obtain ⟨buffer, hbuffer⟩ := h .divide one zero
  have hnone : result (request .divide one zero) = none := by decide +kernel
  rw [hnone] at hbuffer
  cases hbuffer

end Semestr4.ClusterCalculation
