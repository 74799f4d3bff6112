import Mathlib.Data.List.Perm.Basic
import Mathlib.Order.Lattice

/-!
# Stable insertion

A list is a stable sorting of another one by a key when it is a rearrangement
in the order of the keys in which entries of one key keep their order. Entries
with a greater key come from behind the place of insertion, all others from
before it, so that insertion after equal keys is stable.
-/

set_option autoImplicit false

namespace Semestr4.StableInsertion

variable {α κ : Type*} [LinearOrder κ] {key : α → κ}

structure StablySorted (key : α → κ) (before after : List α) : Prop where
  rearranged : after.Perm before
  ordered : after.Pairwise fun a b => key a ≤ key b
  stable : ∀ k, after.filter (fun a => key a = k) = before.filter (fun a => key a = k)

/-- The place of `x` between two parts of a list: behind it greater keys only,
and right before it none. -/
structure Place (key : α → κ) (x : α) (front back : List α) : Prop where
  greater : ∀ b ∈ back, key x < key b
  last : ∀ a ∈ front.getLast?, key a ≤ key x

theorem stablySorted_single (key : α → κ) (x : α) : StablySorted key [x] [x] :=
  ⟨List.Perm.refl _, List.pairwise_singleton _ x, fun _ => rfl⟩

theorem stablySorted_nil (key : α → κ) : StablySorted key [] [] :=
  ⟨List.Perm.refl _, List.Pairwise.nil, fun _ => rfl⟩

theorem ordered_le_last {front : List α} (h : front.Pairwise fun a b => key a ≤ key b) {x : α}
    (hlast : ∀ a ∈ front.getLast?, key a ≤ key x) : ∀ a ∈ front, key a ≤ key x := by
  intro a ha
  obtain ⟨init, l, rfl⟩ : ∃ init l, front = init++[l] :=
    ⟨front.dropLast, front.getLast (List.ne_nil_of_mem ha),
      (List.dropLast_append_getLast (List.ne_nil_of_mem ha)).symm⟩
  have hl : key l ≤ key x := hlast l (by simp)
  rcases List.mem_append.mp ha with hinit | hmem
  · exact le_trans ((List.pairwise_append.mp h).2.2 a hinit l (List.mem_singleton_self l)) hl
  · rw [List.mem_singleton.mp hmem]
    exact hl

theorem filter_greater {back : List α} {k : κ} (h : ∀ b ∈ back, k < key b) :
    back.filter (fun a => key a = k) = [] := by
  rw [List.filter_eq_nil_iff]
  intro b hb
  have hlt := h b hb
  simp [hlt.ne']

/-- Inserting the next entry at its place keeps a stable sorting. -/
theorem StablySorted.insert {before front back : List α} {x : α}
    (h : StablySorted key before (front++back)) (hx : Place key x front back) :
    StablySorted key (before++[x]) (front++x::back) := by
  obtain ⟨hfront, hback, hcross⟩ := List.pairwise_append.mp h.ordered
  have hle := ordered_le_last hfront hx.last
  constructor
  · have hcons : (front++x::back).Perm (x::before) :=
      List.perm_middle.trans (h.rearranged.cons x)
    exact hcons.trans (List.perm_append_singleton x before).symm
  · refine List.pairwise_append.mpr ⟨hfront, List.pairwise_cons.mpr ⟨?_, hback⟩, ?_⟩
    · exact fun b hb => (hx.greater b hb).le
    · intro a ha b hb
      rcases List.mem_cons.mp hb with rfl | hb
      · exact hle a ha
      · exact hcross a ha b hb
  · intro k
    have hold := h.stable k
    rw [List.filter_append] at hold
    rw [List.filter_append, List.filter_append, ← hold, List.filter_cons]
    by_cases hk : key x = k
    · -- nothing behind the place has this key
      have hnone : back.filter (fun a => key a = k) = [] :=
        filter_greater fun b hb => hk ▸ hx.greater b hb
      simp [hk, hnone]
    · simp [hk]

end Semestr4.StableInsertion
