import Mathlib.Data.List.Infix

/-!
# Loops that stop early

A loop over a list that leaves at the first element whose test fails or raises,
with the elements it has come to.
-/

set_option autoImplicit false

namespace Semestr4.StoppedLoop

variable {α ε : Type*}

/-- The elements passed, and the one at which the loop stopped. -/
def loop (test : α → Except ε Bool) : List α → Except ε Bool×List α
  | [] => (.ok true, [])
  | x::rest => match test x with
    | .error e => (.error e, [x])
    | .ok false => (.ok false, [x])
    | .ok true => ((loop test rest).1, x::(loop test rest).2)

theorem loop_pass {test : α → Except ε Bool} {x : α} (hx : test x = .ok true) (rest : List α) :
    loop test (x::rest) = ((loop test rest).1, x::(loop test rest).2) := by
  rw [loop, hx]

theorem loop_stop {test : α → Except ε Bool} {x : α} (hx : test x ≠ .ok true) (rest : List α) :
    loop test (x::rest) = (test x, [x]) := by
  rw [loop]
  cases htest : test x with
  | error e => rfl
  | ok passed =>
    cases passed with
    | false => rfl
    | true => exact absurd htest hx

theorem eq_loop {f : List α → Except ε Bool} {test : α → Except ε Bool} (hnil : f [] = .ok true)
    (hcons : ∀ x rest, f (x::rest) = do
      let passed ← test x
      if passed then f rest else return false) (xs : List α) : f xs = (loop test xs).1 := by
  induction xs with
  | nil => exact hnil
  | cons x rest ih =>
    rw [hcons]
    cases hx : test x with
    | error e =>
      rw [loop_stop (by simp [hx]), hx]
      rfl
    | ok passed =>
      cases passed with
      | false =>
        rw [loop_stop (by simp [hx]), hx]
        rfl
      | true =>
        rw [loop_pass hx, ← ih]
        rfl

theorem loop_seen (test : α → Except ε Bool) (xs : List α) : (loop test xs).2 <+: xs := by
  induction xs with
  | nil => exact List.prefix_refl _
  | cons x rest ih =>
    by_cases hx : test x = .ok true
    · rw [loop_pass hx]
      exact List.prefix_cons_inj x |>.mpr ih
    · rw [loop_stop hx]
      exact List.prefix_cons_inj x |>.mpr List.nil_prefix

theorem loop_all {test : α → Except ε Bool} {xs : List α} (h : (loop test xs).1 = .ok true) :
    (loop test xs).2 = xs := by
  induction xs with
  | nil => rfl
  | cons x rest ih =>
    by_cases hx : test x = .ok true
    · rw [loop_pass hx] at h ⊢
      exact congrArg (x::·) (ih h)
    · rw [loop_stop hx] at h
      exact absurd h hx

end Semestr4.StoppedLoop
