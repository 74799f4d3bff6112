import Semestr4.ScheduledRun

/-!
# A handshake by levels between two clocks

A sender offers an item and holds it until it sees the receiver busy. The
receiver takes what is offered when it is free, is busy for as long as it likes,
and then is free again. Neither counts anything: if the receiver is done before
the sender has looked, the item still stands there and is taken once more.
-/

set_option autoImplicit false

namespace Semestr4.LevelHandshake
open Semestr4.ScheduledRun

variable {α : Type*}

/-- The item offered while the start line is high, and the busy line. -/
structure Link (α : Type*) where
  offered : Option α
  busy : Bool

inductive Move (α : Type*) where
  | offer (a : α)
  | lower
  | take
  | finish

inductive Event (α : Type*) where
  | offered (a : α)
  | taken (a : α)

def step : Step (Link α) (Move α) (Event α)
  | ⟨none, false⟩, .offer a => some (⟨some a, false⟩, [.offered a])
  | ⟨_, true⟩, .lower => some (⟨none, true⟩, [])
  | ⟨some a, false⟩, .take => some (⟨some a, true⟩, [.taken a])
  | ⟨x, true⟩, .finish => some (⟨x, false⟩, [])
  | _, _ => none

def free : Link α := ⟨none, false⟩

def offers (es : List (Event α)) : List α :=
  es.filterMap fun e => match e with
    | .offered a => some a
    | .taken _ => none

def takes (es : List (Event α)) : List α :=
  es.filterMap fun e => match e with
    | .offered _ => none
    | .taken a => some a

/-- The item that stands before a free receiver. -/
def standing : Link α → List α
  | ⟨some a, false⟩ => [a]
  | _ => []

/-- What was taken, with the item that stands there, is what was offered. -/
def Exact (es : List (Event α)) (s : Link α) : Prop := takes es++standing s = offers es

/-- The receiver is done only after the sender has seen it busy. -/
def Seen (s : Link α) : Move α → Prop
  | .finish => s.offered = none
  | _ => True

/-- The second list has every item of the first at its place, once or more. -/
inductive Repeats : List α → List α → Prop where
  | nil : Repeats [] []
  | fresh {xs ys : List α} (x : α) (h : Repeats xs ys) : Repeats (xs++[x]) (ys++[x])
  | again {xs ys : List α} (x : α) (h : Repeats (xs++[x]) ys) : Repeats (xs++[x]) (ys++[x])

theorem offers_append (es fs : List (Event α)) : offers (es++fs) = offers es++offers fs :=
  List.filterMap_append

theorem takes_append (es fs : List (Event α)) : takes (es++fs) = takes es++takes fs :=
  List.filterMap_append

theorem step_cases {s t : Link α} {m : Move α} {fs : List (Event α)}
    (h : step s m = some (t, fs)) :
    (∃ a, m = .offer a ∧ s = ⟨none, false⟩ ∧ t = ⟨some a, false⟩ ∧ fs = [.offered a]) ∨
    (m = .lower ∧ s.busy = true ∧ t = ⟨none, true⟩ ∧ fs = []) ∨
    (∃ a, m = .take ∧ s = ⟨some a, false⟩ ∧ t = ⟨some a, true⟩ ∧ fs = [.taken a]) ∨
    (m = .finish ∧ s.busy = true ∧ t = ⟨s.offered, false⟩ ∧ fs = []) := by
  unfold step at h
  split at h <;> simp only [Option.some.injEq, Prod.mk.injEq, reduceCtorEq] at h
  · exact .inl ⟨_, rfl, rfl, h.1.symm, h.2.symm⟩
  · exact .inr (.inl ⟨rfl, rfl, h.1.symm, h.2.symm⟩)
  · exact .inr (.inr (.inl ⟨_, rfl, rfl, h.1.symm, h.2.symm⟩))
  · exact .inr (.inr (.inr ⟨rfl, rfl, h.1.symm, h.2.symm⟩))

theorem exact_step {es fs : List (Event α)} {s t : Link α} {m : Move α} (h : Exact es s)
    (hm : Seen s m) (hs : step s m = some (t, fs)) : Exact (es++fs) t := by
  obtain ⟨offered, busy⟩ := s
  rw [Exact, offers_append, takes_append] at *
  rcases step_cases hs with ⟨a, rfl, hl, rfl, rfl⟩ | ⟨rfl, hl, rfl, rfl⟩ | ⟨a, rfl, hl, rfl, rfl⟩ |
    ⟨rfl, hl, rfl, rfl⟩
  · cases hl
    simpa [standing, takes, offers] using h
  · cases hl
    simpa [standing, takes, offers] using h
  · cases hl
    simpa [standing, takes, offers] using h
  · cases hl
    cases hm
    simpa [standing, takes, offers] using h

/-- Everything offered is taken, in order, though perhaps more than once. -/
def AtLeast (es : List (Event α)) (s : Link α) : Prop :=
  match s with
  | ⟨none, _⟩ => Repeats (offers es) (takes es)
  | ⟨some a, busy⟩ => ∃ before, offers es = before++[a] ∧
      (Repeats (offers es) (takes es) ∨ busy = false ∧ Repeats before (takes es))

theorem atLeast_step {es fs : List (Event α)} {s t : Link α} {m : Move α} (h : AtLeast es s)
    (hs : step s m = some (t, fs)) : AtLeast (es++fs) t := by
  obtain ⟨offered, busy⟩ := s
  rcases step_cases hs with ⟨a, rfl, hl, rfl, rfl⟩ | ⟨rfl, hl, rfl, rfl⟩ | ⟨a, rfl, hl, rfl, rfl⟩ |
    ⟨rfl, hl, rfl, rfl⟩
  · cases hl
    refine ⟨offers es, by simp [offers], .inr ⟨rfl, ?_⟩⟩
    simpa [AtLeast, takes] using h
  · cases hl
    cases offered with
    | none => simpa [AtLeast] using h
    | some a =>
      obtain ⟨before, -, hr | ⟨hb, -⟩⟩ := h
      · simpa [AtLeast] using hr
      · cases hb
  · cases hl
    obtain ⟨before, hbefore, hr⟩ := h
    refine ⟨before, by simpa [offers] using hbefore, .inl ?_⟩
    rw [show offers (es++[.taken a]) = offers es by simp [offers],
      show takes (es++[.taken a]) = takes es++[a] by simp [takes], hbefore]
    rcases hr with hr | ⟨-, hr⟩
    · exact .again a (hbefore ▸ hr)
    · exact .fresh a hr
  · cases hl
    cases offered with
    | none => simpa [AtLeast] using h
    | some a =>
      obtain ⟨before, hbefore, hr | ⟨hb, -⟩⟩ := h
      · exact ⟨before, by simpa using hbefore, .inl (by simpa using hr)⟩
      · cases hb

theorem run_atLeast (ms : List (Move α)) (s : Link α) (es : List (Event α))
    (hr : run step ms free = some (s, es)) : AtLeast es s :=
  run_induction step free AtLeast .nil (fun _ _ _ _ _ h hs => atLeast_step h hs) ms s es hr

/-- In no run an item is lost or out of its place: one that stands before a free
receiver may be new, and then it is not among what was taken. -/
theorem run_repeats (ms : List (Move α)) (s : Link α) (es : List (Event α))
    (hr : run step ms free = some (s, es)) :
    Repeats (offers es) (takes es) ∨ Repeats (offers es) (takes es++standing s) := by
  have h := run_atLeast ms s es hr
  obtain ⟨offered, busy⟩ := s
  cases offered with
  | none => exact .inl h
  | some a =>
    obtain ⟨before, hbefore, h | ⟨rfl, h⟩⟩ := h
    · exact .inl h
    · exact .inr (hbefore ▸ .fresh a h)

/-- A receiver that is done too early finds an item it already has. -/
theorem finish_unseen {es fs : List (Event α)} {s t : Link α} {m : Move α} (h : Exact es s)
    (hs : step s m = some (t, fs)) (ht : Exact (es++fs) t) : Seen s m := by
  obtain ⟨offered, busy⟩ := s
  rcases step_cases hs with ⟨a, rfl, -⟩ | ⟨rfl, -⟩ | ⟨a, rfl, -⟩ | ⟨rfl, hl, rfl, rfl⟩
  · trivial
  · trivial
  · trivial
  · cases hl
    cases offered with
    | none => rfl
    | some a => simp [Exact, standing] at h ht; simp [← h] at ht

end Semestr4.LevelHandshake
