import Mathlib.Logic.Function.Basic
import Semestr4.ScheduledRun

/-!
# Threads around one mutex with condition variables

Each thread calls the body of its loop again and again. A body runs under the
mutex in one piece. It ends by leaving the mutex, or by sleeping on a condition
as its last act, so that a thread woken later only takes the mutex once more,
releases it and calls its body again. A broadcast wakes every sleeper of the
condition, and any sleeper may also wake for no reason.
-/

set_option autoImplicit false

namespace Semestr4.ConditionMonitor
open Semestr4.ScheduledRun

variable {σ ι κ ρ ρ' ε : Type*}

inductive Phase (κ : Type*) where
  | ready
  | asleep (c : κ)
  | woken
  | returned
  deriving DecidableEq, Repr

inductive Exit (κ ρ : Type*) where
  | waits (c : κ)
  | returns (r : ρ)
  deriving DecidableEq, Repr

structure Outcome (σ κ ρ ε : Type*) where
  shared : σ
  exit : Exit κ ρ
  signals : List κ := []
  events : List ε := []

structure World (σ ι κ : Type*) where
  shared : σ
  phase : ι → Phase κ

inductive Action (ι : Type*) where
  | enter (t : ι)
  | wake (t : ι)
  | resume (t : ι)
  deriving DecidableEq, Repr

def Exit.map (f : ρ → ρ') : Exit κ ρ → Exit κ ρ'
  | .waits c => .waits c
  | .returns r => .returns (f r)

/-- The loop around the body stops when the result says so. -/
def Exit.phase : Exit κ Bool → Phase κ
  | .waits c => .asleep c
  | .returns true => .returned
  | .returns false => .ready

def Phase.signalled [DecidableEq κ] (cs : List κ) : Phase κ → Phase κ
  | .asleep c => if c ∈ cs then .woken else .asleep c
  | p => p

def enter [DecidableEq ι] [DecidableEq κ] (w : World σ ι κ) (t : ι)
    (o : Outcome σ κ Bool ε) : World σ ι κ where
  shared := o.shared
  phase := Function.update (fun u => (w.phase u).signalled o.signals) t o.exit.phase

def step [DecidableEq ι] [DecidableEq κ] (body : ι → σ → Outcome σ κ Bool ε) :
    Step (World σ ι κ) (Action ι) ε
  | w, .enter t =>
    if w.phase t = .ready then some (enter w t (body t w.shared), (body t w.shared).events)
    else none
  | w, .wake t => match w.phase t with
    | .asleep _ => some ({ w with phase := Function.update w.phase t .woken }, [])
    | _ => none
  | w, .resume t =>
    if w.phase t = .woken then some ({ w with phase := Function.update w.phase t .ready }, [])
    else none

def start (s : σ) : World σ ι κ := ⟨s, fun _ => .ready⟩

@[simp] theorem signalled_asleep [DecidableEq κ] {cs : List κ} {p : Phase κ} {c : κ} :
    p.signalled cs = .asleep c ↔ p = .asleep c ∧ c ∉ cs := by
  cases p with
  | asleep d =>
    simp only [Phase.signalled]
    split
    · rename_i h
      constructor
      · intro hw
        cases hw
      · rintro ⟨⟨⟩, hn⟩
        exact absurd h hn
    · rename_i h
      constructor
      · rintro ⟨⟩
        exact ⟨rfl, h⟩
      · rintro ⟨⟨⟩, -⟩
        rfl
  | _ => simp [Phase.signalled]

@[simp] theorem signalled_returned [DecidableEq κ] {cs : List κ} {p : Phase κ} :
    p.signalled cs = .returned ↔ p = .returned := by
  cases p with
  | asleep d => simp only [Phase.signalled]; split <;> simp
  | _ => simp [Phase.signalled]

theorem phase_asleep {x : Exit κ Bool} {c : κ} : x.phase = .asleep c ↔ x = .waits c := by
  cases x with
  | waits d => simp [Exit.phase]
  | returns r => cases r <;> simp [Exit.phase]

theorem phase_returned {x : Exit κ Bool} : x.phase = .returned ↔ x = .returns true := by
  cases x with
  | waits d => simp [Exit.phase]
  | returns r => cases r <;> simp [Exit.phase]

section Steps

variable [DecidableEq ι] [DecidableEq κ] {body : ι → σ → Outcome σ κ Bool ε}

/-- A step either runs the body of a ready thread, or moves one thread between
sleeping, woken and ready and touches nothing else. -/
theorem step_cases {w v : World σ ι κ} {a : Action ι} {es : List ε}
    (h : step body w a = some (v, es)) :
    (∃ t, w.phase t = .ready ∧ v = enter w t (body t w.shared) ∧
      es = (body t w.shared).events) ∨
    (v.shared = w.shared ∧ es = [] ∧ ∃ t p, v.phase = Function.update w.phase t p ∧
      w.phase t ≠ .returned ∧ (p = .woken ∨ p = .ready)) := by
  cases a with
  | enter t =>
    simp only [step, Option.ite_none_right_eq_some, Option.some.injEq, Prod.mk.injEq] at h
    exact Or.inl ⟨t, h.1, h.2.1.symm, h.2.2.symm⟩
  | wake t =>
    right
    simp only [step] at h
    split at h
    · rename_i c hc
      simp only [Option.some.injEq, Prod.mk.injEq] at h
      obtain ⟨rfl, rfl⟩ := h
      exact ⟨rfl, rfl, t, .woken, rfl, by simp [hc], Or.inl rfl⟩
    · exact absurd h (by simp)
  | resume t =>
    right
    simp only [step, Option.ite_none_right_eq_some, Option.some.injEq, Prod.mk.injEq] at h
    obtain ⟨hp, rfl, rfl⟩ := h
    exact ⟨rfl, rfl, t, .ready, rfl, by simp [hp], Or.inr rfl⟩

/-- What every body keeps, with the events it emits, holds after every schedule. -/
theorem shared_induction (P : List ε → σ → Prop) (s₀ : σ) (h0 : P [] s₀)
    (hbody : ∀ es s t, P es s → P (es ++ (body t s).events) (body t s).shared)
    (as : List (Action ι)) (w : World σ ι κ) (es : List ε)
    (hr : run (step body) as (start s₀) = some (w, es)) : P es w.shared := by
  refine run_induction (step body) (start s₀) (fun es w => P es w.shared) h0 ?_ as w es hr
  intro es w a v fs hp hs
  rcases step_cases hs with ⟨t, -, rfl, rfl⟩ | ⟨hsh, rfl, -⟩
  · exact hbody es w.shared t hp
  · rw [hsh, List.append_nil]
    exact hp

/-- A phase `W` is found on a thread only while `Q` holds of the shared data,
when entering `W` makes `Q` true and no body makes `Q` false without signalling
the threads in `W` out of it. The bodies may use an invariant `I`. -/
theorem phase_induction (I : σ → Prop) (K : ι → Prop) (W : Phase κ → Prop) (Q : σ → Prop) (s₀ : σ)
    (h0 : I s₀) (hI : ∀ s t, I s → I (body t s).shared)
    (hready : ¬ W .ready) (hwoken : ¬ W .woken) (hsig : ∀ cs (p : Phase κ), W (p.signalled cs) → W p)
    (hself : ∀ s t, I s → K t → W (body t s).exit.phase → Q (body t s).shared)
    (hother : ∀ s t (p : Phase κ), I s → Q s → W (p.signalled (body t s).signals) → Q (body t s).shared)
    {w : World σ ι κ} (hr : Reachable (step body) (start s₀) w) (t : ι) (hk : K t)
    (ht : W (w.phase t)) : Q w.shared := by
  have h : I w.shared ∧ ∀ t, K t → W (w.phase t) → Q w.shared := by
    refine Reachable.induction (P := fun w => I w.shared ∧ ∀ t, K t → W (w.phase t) → Q w.shared)
      ⟨h0, fun t _ ht => absurd ht hready⟩ ?_ hr
    rintro w a v fs ⟨hi, hq⟩ hs
    rcases step_cases hs with ⟨u, -, rfl, -⟩ | ⟨hsh, -, u, p, hv, -, hp⟩
    · refine ⟨hI _ _ hi, ?_⟩
      intro t hk ht
      by_cases htu : t = u
      · subst htu
        simp only [enter, Function.update_self] at ht
        exact hself _ _ hi hk ht
      · simp only [enter, Function.update_of_ne htu] at ht
        exact hother _ _ _ hi (hq t hk (hsig _ _ ht)) ht
    · rw [hsh]
      refine ⟨hi, ?_⟩
      intro t hk ht
      by_cases htu : t = u
      · subst htu
        rw [hv, Function.update_self] at ht
        rcases hp with rfl | rfl
        · exact absurd ht hwoken
        · exact absurd ht hready
      · rw [hv, Function.update_of_ne htu] at ht
        exact hq t hk ht
  exact h.2 t hk ht

/-- Sleepers of `c` of a given kind are found only while `Q` holds: a body that
falls asleep on `c` leaves `Q` true, and one that makes `Q` false broadcasts on
`c`. -/
theorem asleep_induction (I : σ → Prop) (K : ι → Prop) (c : κ) (Q : σ → Prop) (s₀ : σ) (h0 : I s₀)
    (hI : ∀ s t, I s → I (body t s).shared)
    (hwait : ∀ s t, I s → K t → (body t s).exit = .waits c → Q (body t s).shared)
    (hwake : ∀ s t, I s → Q s → c ∉ (body t s).signals → Q (body t s).shared)
    {w : World σ ι κ} (hr : Reachable (step body) (start s₀) w) (t : ι) (hk : K t)
    (ht : w.phase t = .asleep c) : Q w.shared := by
  refine phase_induction I K (fun p => p = .asleep c) Q s₀ h0 hI (by simp) (by simp)
    (fun cs p h => (signalled_asleep.mp h).1) ?_ ?_ hr t hk ht
  · intro s t hi hk hx
    exact hwait s t hi hk (phase_asleep.mp hx)
  · intro s t p hi hq hx
    exact hwake s t hi hq (signalled_asleep.mp hx).2

/-- A thread of a given kind has returned only once `Q` holds, when returning
establishes `Q` and no body destroys it. -/
theorem returned_induction (I : σ → Prop) (K : ι → Prop) (Q : σ → Prop) (s₀ : σ) (h0 : I s₀)
    (hI : ∀ s t, I s → I (body t s).shared)
    (hexit : ∀ s t, I s → K t → (body t s).exit = .returns true → Q (body t s).shared)
    (hstable : ∀ s t, I s → Q s → Q (body t s).shared)
    {w : World σ ι κ} (hr : Reachable (step body) (start s₀) w) (t : ι) (hk : K t)
    (ht : w.phase t = .returned) : Q w.shared := by
  refine phase_induction I K (fun p => p = .returned) Q s₀ h0 hI (by simp) (by simp)
    (fun cs p h => signalled_returned.mp h) ?_ ?_ hr t hk ht
  · intro s t hi hk hx
    exact hexit s t hi hk (phase_returned.mp hx)
  · intro s t p hi hq _
    exact hstable s t hi hq

end Steps

end Semestr4.ConditionMonitor
