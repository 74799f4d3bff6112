import Mathlib.Data.List.Induction
import Mathlib.Order.Basic

/-!
# The last match of a search

A loop that keeps a candidate and replaces it by every entry that matches ends
with the last match, or with the candidate it began with. If the match is not
changed by what was found, this is not a minimum.
-/

set_option autoImplicit false

namespace Semestr4.LastMatch

variable {α : Type*} {p : α → Prop} [DecidablePred p]

def lastMatch (p : α → Prop) [DecidablePred p] (candidate : α) (l : List α) : α :=
  l.foldl (fun best a => if p a then a else best) candidate

theorem lastMatch_snoc (candidate a : α) (l : List α) :
    lastMatch p candidate (l++[a]) = if p a then a else lastMatch p candidate l := by
  rw [lastMatch, List.foldl_append]
  rfl

theorem lastMatch_cons_neg {candidate a : α} (h : ¬ p a) (l : List α) :
    lastMatch p candidate (a::l) = lastMatch p candidate l := by
  rw [lastMatch, List.foldl_cons, if_neg h]
  rfl

theorem lastMatch_congr {q : α → Prop} [DecidablePred q] {candidate : α} {l : List α}
    (h : ∀ a ∈ l, p a ↔ q a) : lastMatch p candidate l = lastMatch q candidate l := by
  induction l using List.reverseRecOn with
  | nil => rfl
  | append_singleton l a ih =>
    rw [lastMatch_snoc, lastMatch_snoc, ih fun b hb => h b (List.mem_append_left [a] hb)]
    exact if_congr (h a (by simp)) rfl rfl

theorem lastMatch_none {candidate : α} {l : List α} (h : ∀ a ∈ l, ¬ p a) :
    lastMatch p candidate l = candidate := by
  induction l using List.reverseRecOn with
  | nil => rfl
  | append_singleton l a ih =>
    rw [lastMatch_snoc, if_neg (h a (by simp))]
    exact ih fun b hb => h b (List.mem_append_left [a] hb)

theorem lastMatch_mem (candidate : α) (l : List α) :
    lastMatch p candidate l = candidate ∨ lastMatch p candidate l ∈ l := by
  induction l using List.reverseRecOn with
  | nil => exact Or.inl rfl
  | append_singleton l a ih =>
    rw [lastMatch_snoc]
    split
    · exact Or.inr (by simp)
    · exact ih.imp_right (List.mem_append_left [a])

/-- What the search ends with where there is a match. -/
theorem lastMatch_some [Preorder α] (candidate : α) {l : List α} (hl : l.Pairwise (· < ·))
    (h : ∃ a ∈ l, p a) :
    lastMatch p candidate l ∈ l ∧ p (lastMatch p candidate l) ∧
      ∀ b ∈ l, lastMatch p candidate l < b → ¬ p b := by
  induction l using List.reverseRecOn with
  | nil =>
    obtain ⟨a, ha, -⟩ := h
    cases ha
  | append_singleton l a ih =>
    obtain ⟨hinit, -, hlast⟩ := List.pairwise_append.mp hl
    rw [lastMatch_snoc]
    by_cases ha : p a
    · rw [if_pos ha]
      refine ⟨by simp, ha, fun b hb hlt => ?_⟩
      rcases List.mem_append.mp hb with hb | hb
      · exact absurd hlt (hlast b hb a (List.mem_singleton_self a)).not_gt
      · rw [List.mem_singleton.mp hb] at hlt
        exact absurd hlt (lt_irrefl a)
    · rw [if_neg ha]
      have hbefore : ∃ b ∈ l, p b := by
        obtain ⟨b, hb, hp⟩ := h
        rcases List.mem_append.mp hb with hb | hb
        · exact ⟨b, hb, hp⟩
        · rw [List.mem_singleton.mp hb] at hp
          exact absurd hp ha
      obtain ⟨hmem, hp, hlater⟩ := ih hinit hbefore
      refine ⟨List.mem_append_left [a] hmem, hp, fun b hb hlt => ?_⟩
      rcases List.mem_append.mp hb with hb | hb
      · exact hlater b hb hlt
      · rwa [List.mem_singleton.mp hb]

end Semestr4.LastMatch
