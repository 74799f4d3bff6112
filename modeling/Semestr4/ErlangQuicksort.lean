import Semestr4.ErlangTerm

/-!
# Quicksort

The function has a clause for a list with a first element and none for the empty
list, and every call ends in calls on the empty list.
-/

set_option autoImplicit false

namespace Semestr4.ErlangQuicksort
open Semestr4.ErlangTerm

inductive Raised where
  | functionClause
  deriving DecidableEq, Repr

def lessThan (list : List Term) (arg : Term) : List Term := list.filter fun x => x.Less arg

def grtEqThan (list : List Term) (arg : Term) : List Term := list.filter fun x => ¬x.Less arg

def qs : List Term → Except Raised (List Term)
  | pivot::tail => do
    let smaller ← qs (lessThan tail pivot)
    let larger ← qs (grtEqThan tail pivot)
    return smaller++[pivot]++larger
  -- no clause of the source matches
  | [] => .error .functionClause
termination_by list => list.length
decreasing_by
  · exact Nat.lt_succ_of_le (List.length_filter_le _ tail)
  · exact Nat.lt_succ_of_le (List.length_filter_le _ tail)

theorem qs_raises (list : List Term) : qs list = .error .functionClause := by
  fun_induction qs list with
  | case1 pivot tail ihless ihmore =>
    rw [ihless]
    rfl
  | case2 => rfl

def Sorts (list : List ℤ) : Prop := ∃ sorted : List ℤ,
  qs (list.map Term.int) = .ok (sorted.map Term.int) ∧ sorted.Pairwise (· ≤ ·) ∧ sorted.Perm list

theorem never_sorts (list : List ℤ) : ¬Sorts list := by
  rintro ⟨sorted, hqs, -⟩
  rw [qs_raises] at hqs
  cases hqs

theorem empty_not_sorted : ¬∀ list : List ℤ, Sorts list := by
  intro h
  obtain ⟨sorted, hqs, -⟩ := h []
  rw [List.map_nil, qs] at hqs
  cases hqs

end Semestr4.ErlangQuicksort
