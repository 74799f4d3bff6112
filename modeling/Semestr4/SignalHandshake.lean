import Mathlib.Data.Int.Notation
import Semestr4.ScheduledRun

/-!
# Signals that are acknowledged

The parent sends its child a signal and pauses, as often as it is told. The
handler of the child counts the signal and sends one back, which the handler of
the parent counts. A pause only ends with a handler that ran during the pause,
and nothing keeps the answer from coming between the signal and the pause.
-/

set_option autoImplicit false

namespace Semestr4.SignalHandshake
open Semestr4.ScheduledRun

inductive ParentPc where
  /-- `i < numberOfSignals` -/
  | test
  /-- `SENT++` -/
  | count
  /-- `kill(CHILD, SIGUSR1)` -/
  | kill
  /-- `pause()`, not yet called -/
  | pause
  | blocked
  | finished
  deriving DecidableEq, Repr

/-- The next statement of a running handler. The parent only counts. -/
inductive Handler where
  | count
  | answer
  | leave
  deriving DecidableEq, Repr

structure State where
  numberOfSignals : ℤ
  i : ℕ
  pc : ParentPc
  sent : ℕ
  receivedParent : ℕ
  receivedChild : ℕ
  parentPending : Bool
  childPending : Bool
  parentHandler : Option Handler
  childHandler : Option Handler
  deriving DecidableEq, Repr

inductive Choice where
  | parent
  | deliverParent
  | parentHandler
  | deliverChild
  | childHandler
  deriving DecidableEq, Repr

/-- An answer reaches the parent, too early or during its pause. -/
inductive Event where
  | early
  | awaited
  deriving DecidableEq, Repr

def initial (numberOfSignals : ℤ) : State where
  numberOfSignals := numberOfSignals
  i := 0
  pc := .test
  sent := 0
  receivedParent := 0
  receivedChild := 0
  parentPending := false
  childPending := false
  parentHandler := none
  childHandler := none

def parentStep (s : State) : Option State :=
  match s.pc with
  | .test => some { s with pc := if s.i < s.numberOfSignals then .count else .finished }
  | .count => some { s with sent := s.sent+1, pc := .kill }
  | .kill => some { s with childPending := true, pc := .pause }
  | .pause => some { s with pc := .blocked }
  | .blocked => none
  | .finished => none

/-- A handler that leaves ends the pause that it interrupted. -/
def parentHandlerStep (s : State) : Handler → Option State
  | .count => some { s with receivedParent := s.receivedParent+1, parentHandler := some .leave }
  | .answer => none
  | .leave =>
    if s.pc = .blocked then some { s with parentHandler := none, i := s.i+1, pc := .test }
    else some { s with parentHandler := none }

def childHandlerStep (s : State) : Handler → State
  | .count => { s with receivedChild := s.receivedChild+1, childHandler := some .answer }
  | .answer => { s with parentPending := true, childHandler := some .leave }
  | .leave => { s with childHandler := none }

/-- A signal is blocked while its handler runs. -/
def step : Step State Choice Event
  | s, .parent =>
    if s.parentHandler = none then (parentStep s).map fun t => (t, []) else none
  | s, .deliverParent =>
    if s.parentPending ∧ s.parentHandler = none then
      some ({ s with parentPending := false, parentHandler := some .count },
        if s.pc = .blocked then [.awaited] else [.early])
    else none
  | s, .parentHandler => (s.parentHandler.bind (parentHandlerStep s)).map fun t => (t, [])
  | s, .deliverChild =>
    if s.childPending ∧ s.childHandler = none then
      some ({ s with childPending := false, childHandler := some .count }, [])
    else none
  | s, .childHandler => s.childHandler.map fun x => (childHandlerStep s x, [])

/-- The answer is delivered while the parent is in its pause. -/
def Waiting (s : State) (a : Choice) : Prop := a = .deliverParent → s.pc = .blocked

def Stuck (s : State) : Prop :=
  s.pc = .blocked ∧ s.parentPending = false ∧ s.childPending = false ∧
    s.parentHandler = none ∧ s.childHandler = none

inductive Stage where
  | idle
  | sent
  | counted
  | answering
  | answered
  | acknowledging
  | leaving
  | early
  deriving DecidableEq

def Stage.childDone : Stage → ℕ
  | .idle => 0
  | .sent => 0
  | .counted => 0
  | _ => 1

def Stage.parentDone : Stage → ℕ
  | .leaving => 1
  | .early => 1
  | _ => 0

def Stage.parentHandler : Stage → Option Handler
  | .acknowledging => some .count
  | .leaving => some .leave
  | _ => none

def Stage.childHandler : Stage → Option Handler → Prop
  | .counted, x => x = some .count
  | .answering, x => x = some .answer
  | _, x => x = none ∨ x = some .leave

def ParentPc.between : ParentPc → Bool
  | .pause => true
  | .blocked => true
  | _ => false

def ParentPc.sentNow : ParentPc → ℕ
  | .kill => 1
  | .pause => 1
  | .blocked => 1
  | _ => 0

def InLoop (s : State) : Prop :=
  match s.pc with
  | .test => s.i = 0 ∨ (s.i : ℤ) ≤ s.numberOfSignals
  | .finished => s.numberOfSignals ≤ s.i ∧ (s.i = 0 ∨ (s.i : ℤ) ≤ s.numberOfSignals)
  | _ => s.i < s.numberOfSignals

structure Round (s : State) (g : Stage) : Prop where
  childPending : s.childPending = true ↔ g = .sent
  parentPending : s.parentPending = true ↔ g = .answered
  parentHandler : s.parentHandler = g.parentHandler
  childHandler : g.childHandler s.childHandler
  receivedChild : s.receivedChild = s.i+g.childDone
  receivedParent : s.receivedParent = s.i+g.parentDone
  between : s.pc.between = true ↔ g ≠ .idle
  sent : s.sent = s.i+s.pc.sentNow
  inLoop : InLoop s

/-- The answer has come, or is coming, too early for the pause of its round. -/
def Doomed (pc : ParentPc) (g : Stage) : Prop :=
  g = .early ∨ (pc = .pause ∧ (g = .acknowledging ∨ g = .leaving))

theorem Round.idle {s : State} {g : Stage} (h : Round s g) (hpc : s.pc.between = false) :
    g = .idle := by
  by_contra hg
  rw [h.between.mpr hg] at hpc
  cases hpc

theorem initial_round (n : ℤ) : Round (initial n) .idle := by
  constructor <;> simp [initial, Stage.parentHandler, Stage.childHandler, Stage.childDone,
    Stage.parentDone, ParentPc.between, ParentPc.sentNow, InLoop]

theorem not_doomed_idle (pc : ParentPc) : ¬ Doomed pc .idle := by
  simp [Doomed]

theorem round_parent {s t : State} {g : Stage} (h : Round s g) (hx : s.parentHandler = none)
    (hs : parentStep s = some t) : ∃ g', Round t g' ∧ (Doomed t.pc g' ↔ Doomed s.pc g) := by
  have hsent := h.sent
  have hloop := h.inLoop
  have hbetween := h.between
  unfold parentStep at hs
  cases hpc : s.pc with
  | test =>
    rw [hpc] at hs hsent hbetween
    simp only [InLoop, hpc] at hloop
    obtain rfl := h.idle (by rw [hpc]; rfl)
    simp only [Option.some.injEq] at hs
    subst hs
    refine ⟨.idle, ⟨h.childPending, h.parentPending, h.parentHandler, h.childHandler,
      h.receivedChild, h.receivedParent, ?_, ?_, ?_⟩,
      iff_of_false (not_doomed_idle _) (not_doomed_idle _)⟩
    · by_cases hi : (s.i : ℤ) < s.numberOfSignals <;> simp [hi, ParentPc.between]
    · by_cases hi : (s.i : ℤ) < s.numberOfSignals <;> simpa [hi, ParentPc.sentNow] using hsent
    · by_cases hi : (s.i : ℤ) < s.numberOfSignals
      · simp [InLoop, hi]
      · simp only [InLoop, hi, if_false]
        exact ⟨by omega, hloop⟩
  | count =>
    rw [hpc] at hs hsent hbetween
    simp only [InLoop, hpc] at hloop
    obtain rfl := h.idle (by rw [hpc]; rfl)
    cases hs
    exact ⟨.idle, ⟨h.childPending, h.parentPending, h.parentHandler, h.childHandler,
      h.receivedChild, h.receivedParent, by simp [ParentPc.between],
      by simpa [ParentPc.sentNow] using hsent, hloop⟩,
      iff_of_false (not_doomed_idle _) (not_doomed_idle _)⟩
  | kill =>
    rw [hpc] at hs hsent hbetween
    simp only [InLoop, hpc] at hloop
    obtain rfl := h.idle (by rw [hpc]; rfl)
    have hpp := h.parentPending
    cases hs
    exact ⟨.sent, ⟨by simp, by simpa using hpp, h.parentHandler, h.childHandler,
      h.receivedChild, h.receivedParent, by simp [ParentPc.between],
      by simpa [ParentPc.sentNow] using hsent, hloop⟩,
      iff_of_false (by simp [Doomed]) (not_doomed_idle _)⟩
  | pause =>
    rw [hpc] at hs hsent hbetween
    simp only [InLoop, hpc] at hloop
    have hg : g ≠ .acknowledging ∧ g ≠ .leaving := by
      have hph := h.parentHandler
      rw [hx] at hph
      constructor <;> rintro rfl <;> cases hph
    cases hs
    exact ⟨g, ⟨h.childPending, h.parentPending, h.parentHandler, h.childHandler,
      h.receivedChild, h.receivedParent, by simpa [ParentPc.between] using hbetween,
      by simpa [ParentPc.sentNow] using hsent, hloop⟩, by simp [Doomed, hg]⟩
  | blocked => simp [hpc] at hs
  | finished => simp [hpc] at hs

theorem acknowledging_of {g : Stage} (h : g.parentHandler = some .count) : g = .acknowledging := by
  cases g <;> first | rfl | cases h

theorem leaving_of {g : Stage} (h : g.parentHandler = some .leave) : g = .leaving := by
  cases g <;> first | rfl | cases h

theorem counted_of {g : Stage} (h : g.childHandler (some .count)) : g = .counted := by
  cases g <;> first | rfl | simp [Stage.childHandler] at h

theorem answering_of {g : Stage} (h : g.childHandler (some .answer)) : g = .answering := by
  cases g <;> first | rfl | simp [Stage.childHandler] at h

theorem round_deliverParent {s : State} {g : Stage} (h : Round s g)
    (hx : s.parentPending = true) :
    ∃ g', Round { s with parentPending := false, parentHandler := some .count } g' ∧
      (Doomed s.pc g' ↔ Doomed s.pc g ∨ s.pc ≠ .blocked) := by
  obtain rfl := h.parentPending.mp hx
  have hb : s.pc.between = true := h.between.mpr (by decide)
  have hcp := h.childPending
  refine ⟨.acknowledging, ⟨by simpa using hcp, by simp, rfl, h.childHandler, h.receivedChild,
    h.receivedParent, iff_of_true hb (by decide), h.sent, h.inLoop⟩, ?_⟩
  cases hpc : s.pc <;> simp_all [Doomed, ParentPc.between]

theorem round_parentHandler {s t : State} {g : Stage} {x : Handler} (h : Round s g)
    (hx : s.parentHandler = some x) (hs : parentHandlerStep s x = some t) :
    ∃ g', Round t g' ∧ (Doomed t.pc g' ↔ Doomed s.pc g) := by
  have hg := h.parentHandler
  rw [hx] at hg
  have hcp := h.childPending
  have hpp := h.parentPending
  have hrp := h.receivedParent
  cases x with
  | count =>
    obtain rfl := acknowledging_of hg.symm
    cases hs
    refine ⟨.leaving, ⟨by simpa using hcp, by simpa using hpp, rfl, h.childHandler,
      h.receivedChild, ?_, ?_, h.sent, h.inLoop⟩, ?_⟩
    · simp [hrp, Stage.parentDone]
    · exact iff_of_true (h.between.mpr (by decide)) (by decide)
    · simp [Doomed]
  | answer => cases hs
  | leave =>
    obtain rfl := leaving_of hg.symm
    have hb : s.pc.between = true := h.between.mpr (by decide)
    have hsent := h.sent
    have hloop := h.inLoop
    have hrc := h.receivedChild
    simp only [parentHandlerStep] at hs
    by_cases hpc : s.pc = .blocked
    · -- the pause of this round is over
      rw [if_pos hpc] at hs
      cases hs
      rw [hpc] at hsent
      simp only [InLoop, hpc] at hloop
      refine ⟨.idle, ⟨by simpa using hcp, by simpa using hpp, rfl, h.childHandler, ?_, ?_, ?_, ?_,
        ?_⟩, ?_⟩
      · simp [hrc, Stage.childDone]
      · simp [hrp, Stage.parentDone]
      · simp [ParentPc.between]
      · simp [hsent, ParentPc.sentNow]
      · right
        push_cast
        omega
      · simp [Doomed, hpc]
    · rw [if_neg hpc] at hs
      cases hs
      refine ⟨.early, ⟨by simpa using hcp, by simpa using hpp, rfl, h.childHandler, hrc, hrp,
        iff_of_true hb (by decide), hsent, hloop⟩, ?_⟩
      have hpause : s.pc = .pause := by cases hp : s.pc <;> simp_all [ParentPc.between]
      simp [Doomed, hpause]

theorem round_deliverChild {s : State} {g : Stage} (h : Round s g) (hx : s.childPending = true) :
    ∃ g', Round { s with childPending := false, childHandler := some .count } g' ∧
      (Doomed s.pc g' ↔ Doomed s.pc g) := by
  obtain rfl := h.childPending.mp hx
  have hb : s.pc.between = true := h.between.mpr (by decide)
  have hpp := h.parentPending
  exact ⟨.counted, ⟨by simp, by simpa using hpp, h.parentHandler, rfl, h.receivedChild,
    h.receivedParent, iff_of_true hb (by decide), h.sent, h.inLoop⟩, by simp [Doomed]⟩

theorem round_childHandler {s : State} {g : Stage} {x : Handler} (h : Round s g)
    (hx : s.childHandler = some x) :
    ∃ g', Round (childHandlerStep s x) g' ∧ (Doomed s.pc g' ↔ Doomed s.pc g) := by
  have hg := h.childHandler
  rw [hx] at hg
  have hcp := h.childPending
  have hpp := h.parentPending
  have hrc := h.receivedChild
  cases x with
  | count =>
    obtain rfl := counted_of hg
    have hb : s.pc.between = true := h.between.mpr (by decide)
    refine ⟨.answering, ⟨by simpa [childHandlerStep] using hcp,
      by simpa [childHandlerStep] using hpp, h.parentHandler, rfl, ?_,
      h.receivedParent, iff_of_true hb (by decide), h.sent, h.inLoop⟩, by simp [Doomed]⟩
    simp [childHandlerStep, hrc, Stage.childDone]
  | answer =>
    obtain rfl := answering_of hg
    have hb : s.pc.between = true := h.between.mpr (by decide)
    exact ⟨.answered, ⟨by simpa [childHandlerStep] using hcp, by simp [childHandlerStep], h.parentHandler,
      Or.inr rfl, hrc, h.receivedParent, iff_of_true hb (by decide), h.sent, h.inLoop⟩,
      by simp [Doomed]⟩
  | leave =>
    refine ⟨g, ⟨hcp, hpp, h.parentHandler, ?_, hrc, h.receivedParent, h.between, h.sent,
      h.inLoop⟩, Iff.rfl⟩
    cases g <;> simp_all [Stage.childHandler, childHandlerStep]

/-- A step leads a round on, and spoils it if the answer is delivered before the
pause. -/
theorem step_round {s t : State} {a : Choice} {fs : List Event} {g : Stage} (h : Round s g)
    (hs : step s a = some (t, fs)) :
    ∃ g', Round t g' ∧ (Doomed t.pc g' ↔ Doomed s.pc g ∨ Event.early ∈ fs) := by
  cases a with
  | parent =>
    simp only [step, Option.ite_none_right_eq_some, Option.map_eq_some_iff, Prod.mk.injEq] at hs
    obtain ⟨hx, t', ht, rfl, rfl⟩ := hs
    simpa using round_parent h hx ht
  | deliverParent =>
    simp only [step, Option.ite_none_right_eq_some, Option.some.injEq, Prod.mk.injEq] at hs
    obtain ⟨⟨hx, -⟩, rfl, rfl⟩ := hs
    have hr := round_deliverParent h hx
    by_cases hpc : s.pc = .blocked <;> simpa [hpc] using hr
  | parentHandler =>
    simp only [step, Option.map_eq_some_iff, Option.bind_eq_some_iff, Prod.mk.injEq] at hs
    obtain ⟨t', ⟨x, hx, ht⟩, rfl, rfl⟩ := hs
    simpa using round_parentHandler h hx ht
  | deliverChild =>
    simp only [step, Option.ite_none_right_eq_some, Option.some.injEq, Prod.mk.injEq] at hs
    obtain ⟨⟨hx, -⟩, rfl, rfl⟩ := hs
    simpa using round_deliverChild h hx
  | childHandler =>
    simp only [step, Option.map_eq_some_iff, Prod.mk.injEq] at hs
    obtain ⟨x, hx, rfl, rfl⟩ := hs
    have hpc : (childHandlerStep s x).pc = s.pc := by cases x <;> rfl
    simpa [hpc] using round_childHandler h hx

theorem waiting_shows (s : State) (a : Choice) (t : State) (fs : List Event)
    (hs : step s a = some (t, fs)) : Waiting s a ↔ ∀ e ∈ fs, ¬ e = .early := by
  cases a with
  | deliverParent =>
    simp only [step, Option.ite_none_right_eq_some, Option.some.injEq, Prod.mk.injEq] at hs
    obtain ⟨-, -, rfl⟩ := hs
    by_cases hpc : s.pc = .blocked <;> simp [Waiting, hpc]
  | parent =>
    simp only [step, Option.ite_none_right_eq_some, Option.map_eq_some_iff, Prod.mk.injEq] at hs
    obtain ⟨-, t', -, -, rfl⟩ := hs
    simp [Waiting]
  | parentHandler =>
    simp only [step, Option.map_eq_some_iff, Prod.mk.injEq] at hs
    obtain ⟨t', -, -, rfl⟩ := hs
    simp [Waiting]
  | deliverChild =>
    simp only [step, Option.ite_none_right_eq_some, Option.some.injEq, Prod.mk.injEq] at hs
    obtain ⟨-, -, rfl⟩ := hs
    simp [Waiting]
  | childHandler =>
    simp only [step, Option.map_eq_some_iff, Prod.mk.injEq] at hs
    obtain ⟨x, -, -, rfl⟩ := hs
    simp [Waiting]

theorem step_numberOfSignals {s t : State} {a : Choice} {fs : List Event}
    (hs : step s a = some (t, fs)) : t.numberOfSignals = s.numberOfSignals := by
  cases a with
  | parent =>
    simp only [step, Option.ite_none_right_eq_some, Option.map_eq_some_iff, Prod.mk.injEq] at hs
    obtain ⟨-, t', ht, rfl, -⟩ := hs
    unfold parentStep at ht
    split at ht <;> cases ht <;> rfl
  | deliverParent =>
    simp only [step, Option.ite_none_right_eq_some, Option.some.injEq, Prod.mk.injEq] at hs
    obtain ⟨-, rfl, -⟩ := hs
    rfl
  | parentHandler =>
    simp only [step, Option.map_eq_some_iff, Option.bind_eq_some_iff, Prod.mk.injEq] at hs
    obtain ⟨t', ⟨x, -, ht⟩, rfl, -⟩ := hs
    cases x with
    | count => cases ht; rfl
    | answer => cases ht
    | leave =>
      simp only [parentHandlerStep] at ht
      split at ht <;> cases ht <;> rfl
  | deliverChild =>
    simp only [step, Option.ite_none_right_eq_some, Option.some.injEq, Prod.mk.injEq] at hs
    obtain ⟨-, rfl, -⟩ := hs
    rfl
  | childHandler =>
    simp only [step, Option.map_eq_some_iff, Prod.mk.injEq] at hs
    obtain ⟨x, -, rfl, -⟩ := hs
    cases x <;> rfl

theorem run_round {n : ℤ} {as : List Choice} {s : State} {es : List Event}
    (hr : run step as (initial n) = some (s, es)) :
    s.numberOfSignals = n ∧ ∃ g, Round s g ∧ (Doomed s.pc g ↔ Event.early ∈ es) := by
  refine run_induction step (initial n) (fun es s => s.numberOfSignals = n ∧
    ∃ g, Round s g ∧ (Doomed s.pc g ↔ Event.early ∈ es)) ?_ ?_ as s es hr
  · exact ⟨rfl, .idle, initial_round n, by simp [not_doomed_idle]⟩
  · rintro es s a t fs ⟨hn, g, hg, hd⟩ hs
    obtain ⟨g', hg', hd'⟩ := step_round hg hs
    exact ⟨(step_numberOfSignals hs).trans hn, g', hg', by rw [hd', hd, List.mem_append]⟩

theorem stuck_iff {s : State} {g : Stage} (h : Round s g) :
    Stuck s ↔ s.pc = .blocked ∧ s.childHandler = none ∧ Doomed s.pc g := by
  have hph := h.parentHandler
  have hch := h.childHandler
  constructor
  · rintro ⟨hpc, hpp, hcp, hx, hy⟩
    refine ⟨hpc, hy, Or.inl ?_⟩
    have hb : g ≠ .idle := h.between.mp (by rw [hpc]; rfl)
    have hsent : g ≠ .sent := fun hg => by simp [h.childPending.mpr hg] at hcp
    have hanswered : g ≠ .answered := fun hg => by simp [h.parentPending.mpr hg] at hpp
    rw [hx] at hph
    rw [hy] at hch
    cases g with
    | early => rfl
    | idle => exact absurd rfl hb
    | sent => exact absurd rfl hsent
    | answered => exact absurd rfl hanswered
    | counted => cases hch
    | answering => cases hch
    | acknowledging => cases hph
    | leaving => cases hph
  · rintro ⟨hpc, hy, hd⟩
    obtain rfl : g = .early := by
      rcases hd with hd | ⟨hp, -⟩
      · exact hd
      · rw [hpc] at hp
        cases hp
    have hpp := h.parentPending
    have hcp := h.childPending
    exact ⟨hpc, by simpa using hpp, by simpa using hcp, hph, hy⟩

/-- The parent is left waiting exactly in runs in which an answer was delivered
before the pause of its round, and in such runs the loop never ends. When it
ends, all signals are counted on both sides, if the number of signals was not
negative. -/
theorem handshake_iff (n : ℤ) (as : List Choice) (s : State) (es : List Event)
    (hr : run step as (initial n) = some (s, es)) :
    (Stuck s ↔ s.pc = .blocked ∧ s.childHandler = none ∧ ¬ Meets step Waiting (initial n) as) ∧
    (s.pc = .finished → Meets step Waiting (initial n) as ∧
      ((s.sent = n ∧ s.receivedParent = n ∧ s.receivedChild = n) ↔ 0 ≤ n)) := by
  obtain ⟨hn, g, hg, hd⟩ := run_round hr
  have hm : Meets step Waiting (initial n) as ↔ ¬ Doomed s.pc g := by
    rw [meets_iff_events waiting_shows hr, hd]
    exact ⟨fun h he => h _ he rfl, fun h e he heq => h (heq ▸ he)⟩
  constructor
  · rw [stuck_iff hg, hm, not_not]
  · intro hpc
    obtain rfl := hg.idle (by rw [hpc]; rfl)
    have hsent := hg.sent
    have hrp := hg.receivedParent
    have hrc := hg.receivedChild
    have hloop := hg.inLoop
    simp only [InLoop, hpc] at hloop
    simp only [hpc, ParentPc.sentNow] at hsent
    simp only [Stage.parentDone] at hrp
    simp only [Stage.childDone] at hrc
    exact ⟨hm.mpr (not_doomed_idle _), by omega⟩

def awaited : List Choice :=
  [.parent, .parent, .parent, .parent, .deliverChild, .childHandler, .childHandler,
    .deliverParent, .parentHandler, .parentHandler, .parent]

theorem handshake_iff_small : ∃ s es, run step awaited (initial 1) = some (s, es) ∧
    s.pc = .finished ∧ s.sent = 1 ∧ s.receivedParent = 1 ∧ s.receivedChild = 1 := by
  have hr : run step awaited (initial 1) = some (_, _) := rfl
  have h := ((handshake_iff 1 awaited _ _ hr).2 rfl).2.mpr (by decide)
  exact ⟨_, _, hr, rfl, by exact_mod_cast h.1, by exact_mod_cast h.2.1, by exact_mod_cast h.2.2⟩

/-- The answer to the only signal is handled before the parent pauses. -/
theorem answer_before_pause : ¬ ∀ (n : ℤ) (s : State), 0 ≤ n → Reachable step (initial n) s →
    ¬ Stuck s ∧ (s.pc = .finished → s.sent = n ∧ s.receivedParent = n ∧ s.receivedChild = n) := by
  intro h
  have hr : run step [.parent, .parent, .parent, .deliverChild, .childHandler, .childHandler,
      .deliverParent, .parentHandler, .parentHandler, .childHandler, .parent] (initial 1) =
        some (_, _) := rfl
  exact (h 1 _ (by decide) ⟨_, _, hr⟩).1 ⟨rfl, rfl, rfl, rfl, rfl⟩

end Semestr4.SignalHandshake
