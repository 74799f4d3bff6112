import Mathlib.Combinatorics.Colex
import Mathlib.Data.Nat.Bitwise

/-!
# Sums of flags

A flag is a number with one bit. Adding flags up gives the number with the bits
of all of them if and only if none is added twice.
-/

set_option autoImplicit false

namespace Semestr4.FlagSum

theorem testBit_iff_mem {n : ℕ} {s : Finset ℕ} :
    (∀ i, n.testBit i = true ↔ i ∈ s) ↔ n = ∑ i ∈ s, 2^i := by
  constructor
  · intro h
    have hs : n.bitIndices.toFinset = s := by
      ext i
      rw [List.mem_toFinset, Nat.mem_bitIndices, h i]
    rw [← hs, Finset.sum_toFinset_bitIndices_two_pow]
  · rintro rfl i
    rw [← Nat.mem_bitIndices, ← List.mem_toFinset, Finset.toFinset_bitIndices_sum_two_pow]

theorem sum_eq_iff {bits : List ℕ} :
    (bits.map (2^·)).sum = ∑ i ∈ bits.toFinset, 2^i ↔ bits.Nodup := by
  have hpos : ∀ i ∈ bits.toFinset, 1 ≤ bits.count i := fun i hi =>
    List.one_le_count_iff.mpr (List.mem_toFinset.mp hi)
  have hle : ∀ i ∈ bits.toFinset, 2^i ≤ bits.count i*2^i := fun i hi =>
    Nat.le_mul_of_pos_left _ (hpos i hi)
  have hsum : (bits.map (2^·)).sum = ∑ i ∈ bits.toFinset, bits.count i*2^i := by
    rw [Finset.sum_list_map_count]
    rfl
  rw [hsum, eq_comm, Finset.sum_eq_sum_iff_of_le hle, List.nodup_iff_count_le_one]
  constructor
  · intro h i
    by_cases hi : i ∈ bits.toFinset
    · have hone : 1*2^i = bits.count i*2^i := (Nat.one_mul _).trans (h i hi)
      exact (Nat.eq_of_mul_eq_mul_right (Nat.two_pow_pos i) hone).ge
    · rw [List.mem_toFinset] at hi
      rw [List.count_eq_zero_of_not_mem hi]
      exact Nat.zero_le 1
  · intro h i hi
    rw [Nat.le_antisymm (h i) (hpos i hi), Nat.one_mul]

/-- The sum of flags is their union if and only if they are all different. -/
theorem testBit_sum_iff {bits : List ℕ} :
    (∀ i, (bits.map (2^·)).sum.testBit i = true ↔ i ∈ bits) ↔ bits.Nodup := by
  rw [← sum_eq_iff, ← testBit_iff_mem]
  simp only [List.mem_toFinset]

theorem and_flag {n i : ℕ} : n &&& 2^i ≠ 0 ↔ n.testBit i = true := by
  rw [Nat.and_two_pow]
  cases n.testBit i <;> simp

end Semestr4.FlagSum
