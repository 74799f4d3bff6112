import Mathlib.Algebra.BigOperators.Group.Finset.Basic
import Mathlib.Algebra.Order.BigOperators.Group.Finset

/-!
# Permits of a counting semaphore

Each process holds a number of permits that its local state determines. The sum
over all processes changes with a local step by that step alone, and a total of
one leaves room for a single holder.
-/

set_option autoImplicit false

namespace Semestr4.Permits

variable {ι κ : Type*} [Fintype ι] [DecidableEq ι]

def held (permits : κ → ℕ) (states : ι → κ) : ℕ := ∑ i, permits (states i)

theorem held_update (permits : κ → ℕ) (states : ι → κ) (i : ι) (x : κ) :
    held permits (Function.update states i x) + permits (states i) =
      held permits states + permits x := by
  have hsplit : ∀ f : ι → κ, held permits f =
      permits (f i) + ∑ j ∈ Finset.univ.erase i, permits (f j) :=
    fun f => (Finset.add_sum_erase Finset.univ (fun j => permits (f j)) (Finset.mem_univ i)).symm
  have hrest : ∑ j ∈ Finset.univ.erase i, permits (Function.update states i x j) =
      ∑ j ∈ Finset.univ.erase i, permits (states j) := by
    apply Finset.sum_congr rfl
    intro j hj
    rw [Function.update_of_ne (Finset.ne_of_mem_erase hj)]
  rw [hsplit, hsplit states, hrest, Function.update_self]
  omega

omit [DecidableEq ι] in
theorem permits_le_held (permits : κ → ℕ) (states : ι → κ) (i : ι) :
    permits (states i) ≤ held permits states :=
  Finset.single_le_sum (f := fun j => permits (states j)) (fun _ _ => Nat.zero_le _)
    (Finset.mem_univ i)

theorem two_holders (permits : κ → ℕ) (states : ι → κ) {i j : ι} (hij : i ≠ j)
    (hi : 0 < permits (states i)) (hj : 0 < permits (states j)) : 2 ≤ held permits states := by
  have hpair : ∑ k ∈ ({i, j} : Finset ι), permits (states k) ≤ held permits states :=
    Finset.sum_le_sum_of_subset (Finset.subset_univ _)
  rw [Finset.sum_pair hij] at hpair
  omega

omit [DecidableEq ι] in
theorem exists_holder (permits : κ → ℕ) (states : ι → κ) (h : 0 < held permits states) :
    ∃ i, 0 < permits (states i) := by
  obtain ⟨i, -, hi⟩ := Finset.exists_ne_zero_of_sum_ne_zero (Nat.ne_of_gt h)
  exact ⟨i, Nat.pos_of_ne_zero hi⟩

end Semestr4.Permits
