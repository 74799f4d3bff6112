import Mathlib.Algebra.BigOperators.Group.Finset.Basic

/-!
# Sums over pairs

A map that is its own inverse pairs the elements of a set. Each pair is added at
its smaller element, and what is paired with itself is left over.
-/

set_option autoImplicit false

namespace Semestr4.PairedSums

variable {α M : Type*} [LinearOrder α] [AddCommMonoid M] {s : Finset α} {σ : α → α}

theorem sum_larger (hmem : ∀ x ∈ s, σ x ∈ s) (hinv : ∀ x ∈ s, σ (σ x) = x) (f : α → M) :
    ∑ x ∈ s with σ x < x, f x = ∑ x ∈ s with x < σ x, f (σ x) := by
  apply Finset.sum_nbij' σ σ
  · intro x hx
    rw [Finset.mem_filter] at hx ⊢
    exact ⟨hmem x hx.1, by rw [hinv x hx.1]; exact hx.2⟩
  · intro x hx
    rw [Finset.mem_filter] at hx ⊢
    exact ⟨hmem x hx.1, by rw [hinv x hx.1]; exact hx.2⟩
  · exact fun x hx => hinv x (Finset.mem_filter.mp hx).1
  · exact fun x hx => hinv x (Finset.mem_filter.mp hx).1
  · intro x hx
    rw [hinv x (Finset.mem_filter.mp hx).1]

theorem sum_trichotomy (f : α → M) : ∑ x ∈ s, f x =
    ∑ x ∈ s with x < σ x, f x+∑ x ∈ s with σ x < x, f x+∑ x ∈ s with σ x = x, f x := by
  simp only [Finset.sum_filter, ← Finset.sum_add_distrib]
  apply Finset.sum_congr rfl
  intro x _
  rcases lt_trichotomy x (σ x) with h | h | h
  · rw [if_pos h, if_neg h.asymm, if_neg h.ne', add_zero, add_zero]
  · rw [if_neg h.not_lt, if_neg h.symm.not_lt, if_pos h.symm, zero_add, zero_add]
  · rw [if_neg h.asymm, if_pos h, if_neg h.ne, zero_add, add_zero]

theorem sum_pairs (hmem : ∀ x ∈ s, σ x ∈ s) (hinv : ∀ x ∈ s, σ (σ x) = x) (f : α → M) :
    ∑ x ∈ s, f x = ∑ x ∈ s with x < σ x, (f x+f (σ x))+∑ x ∈ s with σ x = x, f x := by
  rw [@sum_trichotomy _ _ _ _ s σ, sum_larger hmem hinv, Finset.sum_add_distrib]

end Semestr4.PairedSums
