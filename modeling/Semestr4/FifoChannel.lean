import Mathlib.Data.List.Basic

/-!
# Bounded first-in first-out channels

A channel is the list of what it holds. Its automaton accepts a put while there
is room and a take of the front element only. An accepted history therefore
takes out exactly what was put in, in the order of the puts, less what is held.
-/

set_option autoImplicit false

namespace Semestr4.FifoChannel

variable {α : Type*}

inductive Use (α : Type*) where
  | put (x : α)
  | take (x : α)
  deriving DecidableEq, Repr

def Use.putValue : Use α → Option α
  | .put x => some x
  | .take _ => none

def Use.takenValue : Use α → Option α
  | .put _ => none
  | .take x => some x

def puts (us : List (Use α)) : List α := us.filterMap Use.putValue

def takes (us : List (Use α)) : List α := us.filterMap Use.takenValue

def use [DecidableEq α] (cap : ℕ) (held : List α) : Use α → Option (List α)
  | .put x => if held.length < cap then some (held++[x]) else none
  | .take x => match held with
    | [] => none
    | y::rest => if y = x then some rest else none

theorem use_account [DecidableEq α] {cap : ℕ} {held held' : List α} {u : Use α}
    (h : use cap held u = some held') :
    takes [u] ++ held' = held ++ puts [u] := by
  cases u with
  | put x =>
    simp only [use, Option.ite_none_right_eq_some, Option.some.injEq] at h
    simp [takes, puts, Use.takenValue, Use.putValue, ← h.2]
  | take x =>
    cases held with
    | nil => simp [use] at h
    | cons y rest =>
      simp only [use, Option.ite_none_right_eq_some, Option.some.injEq] at h
      simp [takes, puts, Use.takenValue, Use.putValue, h.1, h.2]

/-- Nothing is lost, duplicated or reordered by an accepted history. -/
theorem fifo_account [DecidableEq α] {cap : ℕ} {us : List (Use α)} {held held' : List α}
    (h : us.foldlM (use cap) held = some held') :
    takes us ++ held' = held ++ puts us := by
  induction us generalizing held with
  | nil => simp_all [takes, puts]
  | cons u us ih =>
    rw [List.foldlM_cons] at h
    obtain ⟨mid, hu, hr⟩ := Option.bind_eq_some_iff.mp h
    have hstep := use_account hu
    have hrest := ih hr
    calc takes (u::us) ++ held' = takes [u] ++ (takes us ++ held') := by
          simp [takes, List.filterMap_cons]; split <;> simp
      _ = (takes [u] ++ mid) ++ puts us := by rw [hrest, List.append_assoc]
      _ = held ++ puts (u::us) := by
          rw [hstep]; simp [puts, List.filterMap_cons]; split <;> simp

end Semestr4.FifoChannel
