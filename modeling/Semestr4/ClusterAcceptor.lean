import Mathlib.Data.List.Count
import Mathlib.Logic.Function.Basic
import Semestr4.ScheduledRun

/-!
# The connections of the cluster server

The monitor listens on a network socket and on a local one and is told of new
connections by edge-triggered events: a socket is reported once after one or
more arrivals. For each report it accepts a single connection, reads the first
message of it, and may from then on also be told of data on it. Clients are
numbered by their descriptors.
-/

set_option autoImplicit false

namespace Semestr4.ClusterAcceptor
open Semestr4.ScheduledRun

inductive Socket where
  | net
  | unix
  deriving DecidableEq, Repr

inductive Source where
  | socket (k : Socket)
  | client (fd : ℕ)
  deriving DecidableEq, Repr

inductive Pc where
  | initNet
  | addNet
  | initLocal
  | addLocal
  /-- `epoll_wait` -/
  | wait
  /-- the loop over the events that are left -/
  | serve (events : List Source)
  /-- `recv` on the connection that was accepted -/
  | receive (events : List Source)
  | sleep
  deriving DecidableEq, Repr

structure Listener where
  listening : Bool
  added : Bool
  backlog : ℕ
  deriving DecidableEq, Repr

structure State where
  pc : Pc
  listeners : Socket → Listener
  /-- the events that are not yet reported -/
  ready : List Source
  clients : List ℕ

inductive Choice where
  | connect (k : Socket)
  | monitor
  /-- the first message of the accepted client, that may register it -/
  | message (fd : ℕ) (registers : Bool)
  | data (fd : ℕ)
  | drop (fd : ℕ)
  deriving DecidableEq, Repr

inductive Event where
  | merged (k : Socket)
  | accepted (k : Socket)
  deriving DecidableEq, Repr

def maxEvents : ℕ := 100

def initial : State := ⟨.initNet, fun _ => ⟨false, false, 0⟩, [], []⟩

def State.set (s : State) (k : Socket) (l : Listener) : State :=
  { s with listeners := Function.update s.listeners k l }

/-- An event that is pending is not repeated. -/
def notify (ready : List Source) (x : Source) : List Source :=
  if x ∈ ready then ready else ready++[x]

/-- `EPOLL_CTL_ADD`, which finds connections that are already there. -/
def State.add (s : State) (k : Socket) : State :=
  let l := s.listeners k
  { s.set k { l with added := true } with
    ready := if 0 < l.backlog then notify s.ready (.socket k) else s.ready }

/-- The event of the socket is not yet reported. Before the socket is added, the
first connection that waits there will be reported. -/
def State.Unreported (s : State) (k : Socket) : Prop :=
  if (s.listeners k).added then .socket k ∈ s.ready else 0 < (s.listeners k).backlog

instance (s : State) (k : Socket) : Decidable (s.Unreported k) :=
  inferInstanceAs (Decidable
    (if (s.listeners k).added then .socket k ∈ s.ready else 0 < (s.listeners k).backlog))

def connect (s : State) (k : Socket) : Option (State × List Event) :=
  let l := s.listeners k
  if l.listening then
    some ({ s.set k { l with backlog := l.backlog+1 } with
      ready := if l.added then notify s.ready (.socket k) else s.ready },
      if s.Unreported k then [.merged k] else [])
  else none

/-- `accept` on the network socket blocks, on the local socket it fails. -/
def accept (s : State) (k : Socket) (events : List Source) : Option (State × List Event) :=
  let l := s.listeners k
  if 0 < l.backlog then
    some ({ s.set k { l with backlog := l.backlog-1 } with pc := .receive events }, [.accepted k])
  else if k = .unix then some ({ s with pc := .serve events }, [])
  else none

def monitor (s : State) : Option (State × List Event) :=
  match s.pc with
  | .initNet =>
    some ({ s.set .net { s.listeners .net with listening := true } with pc := .addNet }, [])
  | .addNet => some ({ s.add .net with pc := .initLocal }, [])
  | .initLocal =>
    some ({ s.set .unix { s.listeners .unix with listening := true } with pc := .addLocal }, [])
  | .addLocal => some ({ s.add .unix with pc := .wait }, [])
  | .wait =>
    if s.ready = [] then none
    else some ({ s with pc := .serve (s.ready.take maxEvents), ready := s.ready.drop maxEvents }, [])
  | .serve [] => some ({ s with pc := .sleep }, [])
  | .serve (.socket k::events) => accept s k events
  | .serve (.client _::events) => some ({ s with pc := .serve events }, [])
  | .receive _ => none
  | .sleep => some ({ s with pc := .wait }, [])

def step : Step State Choice Event
  | s, .connect k => connect s k
  | s, .monitor => monitor s
  | s, .message fd registers => match s.pc with
    | .receive events => some ({ s with
        pc := .serve events
        clients := if registers then fd::s.clients else s.clients }, [])
    | _ => none
  | s, .data fd =>
    if fd ∈ s.clients then some ({ s with ready := notify s.ready (.client fd) }, []) else none
  | s, .drop fd => some ({ s with
      clients := s.clients.filter (· ≠ fd)
      ready := s.ready.filter (· ≠ .client fd) }, [])

/-- No connection arrives while an event of its socket is not yet reported. -/
def Alone (s : State) : Choice → Prop
  | .connect k => ¬ s.Unreported k
  | _ => True

def State.Idle (s : State) : Prop := s.pc = .wait ∧ s.ready = []

def Pc.events : Pc → List Source
  | .serve events => events
  | .receive events => events
  | _ => []

def State.noticed (s : State) (k : Socket) : ℕ :=
  if (s.listeners k).added then s.ready.count (.socket k)+s.pc.events.count (.socket k)
  else if 0 < (s.listeners k).backlog then 1 else 0

theorem count_notify_self (ready : List Source) (x : Source) :
    (notify ready x).count x = if x ∈ ready then ready.count x else 1 := by
  unfold notify
  by_cases h : x ∈ ready
  · simp [h]
  · simp [h, List.count_eq_zero_of_not_mem h]

theorem count_notify_other (ready : List Source) {x y : Source} (h : y ≠ x) :
    (notify ready x).count y = ready.count y := by
  unfold notify
  by_cases hx : x ∈ ready
  · simp [hx]
  · simp [hx, Ne.symm h]

def Pc.added : Pc → Socket → Bool
  | .initNet, _ => false
  | .addNet, _ => false
  | .initLocal, k => k = .net
  | .addLocal, k => k = .net
  | _, _ => true

structure Invariant (es : List Event) (s : State) : Prop where
  backlog : ∀ k, (s.listeners k).backlog = s.noticed k+es.count (.merged k)
  once : ∀ k, s.ready.count (.socket k) ≤ 1
  early : ∀ k, (s.listeners k).added = false →
    s.ready.count (.socket k) = 0 ∧ s.pc.events.count (.socket k) = 0
  added : ∀ k, (s.listeners k).added = s.pc.added k

theorem initial_invariant : Invariant [] initial := by
  constructor <;> intro k <;> simp [initial, State.noticed, Pc.added, Pc.events]

theorem set_same (s : State) (k : Socket) (l : Listener) : (s.set k l).listeners k = l :=
  Function.update_self ..

theorem set_other (s : State) {j k : Socket} (l : Listener) (h : j ≠ k) :
    (s.set k l).listeners j = s.listeners j :=
  Function.update_of_ne h ..

@[simp] theorem set_pc (s : State) (k : Socket) (l : Listener) : (s.set k l).pc = s.pc := rfl

@[simp] theorem set_ready (s : State) (k : Socket) (l : Listener) :
    (s.set k l).ready = s.ready := rfl

theorem Invariant.congr {es : List Event} {s t : State} (hi : Invariant es s)
    (hl : ∀ k, (t.listeners k).added = (s.listeners k).added ∧
      (t.listeners k).backlog = (s.listeners k).backlog)
    (hr : ∀ k, t.ready.count (.socket k) = s.ready.count (.socket k))
    (he : ∀ k, t.pc.events.count (.socket k) = s.pc.events.count (.socket k))
    (ha : ∀ k, t.pc.added k = s.pc.added k) : Invariant es t := by
  refine ⟨fun k => ?_, fun k => ?_, fun k h => ?_, fun k => ?_⟩
  · rw [State.noticed, (hl k).1, (hl k).2, hr, he]
    exact hi.backlog k
  · rw [hr]
    exact hi.once k
  · rw [hr, he]
    exact hi.early k (by rwa [(hl k).1] at h)
  · rw [(hl k).1, ha]
    exact hi.added k

theorem listening_invariant {s : State} {k : Socket} {es : List Event} {pc : Pc}
    (hi : Invariant es s) (he : pc.events = s.pc.events) (ha : pc.added = s.pc.added) :
    Invariant es { s.set k { s.listeners k with listening := true } with pc := pc } := by
  refine hi.congr (fun j => ?_) (fun j => rfl) (fun j => by rw [he]) (fun j => by rw [ha])
  by_cases hj : j = k
  · subst hj
    simp [set_same]
  · simp [set_other s _ hj]

def arrived (s : State) (k : Socket) : State :=
  { s.set k { s.listeners k with backlog := (s.listeners k).backlog+1 } with
    ready := if (s.listeners k).added then notify s.ready (.socket k) else s.ready }

def arrival (s : State) (k : Socket) : List Event := if s.Unreported k then [.merged k] else []

theorem arrived_ready_other (s : State) {j k : Socket} (h : j ≠ k) :
    (arrived s k).ready.count (.socket j) = s.ready.count (.socket j) := by
  simp only [arrived]
  split
  · exact count_notify_other _ (by simpa using h)
  · rfl

theorem arrived_added (s : State) (j k : Socket) :
    ((arrived s k).listeners j).added = (s.listeners j).added := by
  by_cases hj : j = k
  · subst hj
    simp only [arrived, set_same]
  · simp only [arrived, set_other s _ hj]

theorem arrival_other (s : State) {j k : Socket} (h : j ≠ k) :
    (arrival s k).count (.merged j) = 0 := by
  unfold arrival
  split <;> simp [Ne.symm h]

theorem arrived_noticed {s : State} {k : Socket} :
    (arrived s k).noticed k+(s.listeners k).backlog+(arrival s k).count (.merged k) =
      s.noticed k+((arrived s k).listeners k).backlog := by
  have hpc : (arrived s k).pc = s.pc := rfl
  have hback : ((arrived s k).listeners k).backlog = (s.listeners k).backlog+1 := by
    simp only [arrived, set_same]
  have hmerged : (arrival s k).count (.merged k) = if s.Unreported k then 1 else 0 := by
    unfold arrival
    split <;> simp
  rw [State.noticed, State.noticed, arrived_added, hpc, hback, hmerged]
  cases ha : (s.listeners k).added with
  | true =>
    have hready : (arrived s k).ready = notify s.ready (.socket k) := by simp [arrived, ha]
    have hun : s.Unreported k ↔ Source.socket k ∈ s.ready := by simp [State.Unreported, ha]
    simp only [hready, count_notify_self, hun, if_true]
    by_cases hm : Source.socket k ∈ s.ready
    · simp only [if_pos hm]
      omega
    · simp only [if_neg hm, List.count_eq_zero_of_not_mem hm]
      omega
  | false =>
    have hun : s.Unreported k ↔ 0 < (s.listeners k).backlog := by simp [State.Unreported, ha]
    simp only [hun, Bool.false_eq_true, if_false, Nat.succ_pos, if_true]
    omega

theorem connect_invariant {s t : State} {k : Socket} {es fs : List Event} (hi : Invariant es s)
    (hs : connect s k = some (t, fs)) : Invariant (es++fs) t := by
  simp only [connect, Option.ite_none_right_eq_some, Option.some.injEq, Prod.mk.injEq] at hs
  obtain ⟨-, rfl, rfl⟩ := hs
  change Invariant (es++arrival s k) (arrived s k)
  refine ⟨fun j => ?_, fun j => ?_, fun j h => ?_, fun j => ?_⟩
  · rw [List.count_append]
    by_cases hj : j = k
    · subst hj
      have hb := hi.backlog j
      have hn := @arrived_noticed s j
      omega
    · rw [arrival_other s hj, State.noticed, arrived_added, arrived_ready_other s hj]
      simp only [arrived, set_other s _ hj]
      exact hi.backlog j
  · by_cases hj : j = k
    · subst hj
      have ho := hi.once j
      simp only [arrived]
      split
      · rw [count_notify_self]
        split
        · exact ho
        · exact Nat.le_refl 1
      · exact ho
    · rw [arrived_ready_other s hj]
      exact hi.once j
  · rw [arrived_added] at h
    have hcount : (arrived s k).ready.count (.socket j) = s.ready.count (.socket j) := by
      by_cases hj : j = k
      · subst hj
        simp [arrived, h]
      · exact arrived_ready_other s hj
    rw [hcount]
    exact hi.early j h
  · rw [arrived_added]
    exact hi.added j

theorem accept_invariant {s t : State} {k : Socket} {events : List Source} {es fs : List Event}
    (hi : Invariant es s) (hpc : s.pc = .serve (.socket k::events))
    (hs : accept s k events = some (t, fs)) : Invariant (es++fs) t := by
  have ha : (s.listeners k).added = true := by
    rw [hi.added, hpc]
    rfl
  have hb := hi.backlog k
  simp only [State.noticed, ha, if_true, hpc, Pc.events, List.count_cons_self] at hb
  -- each report is of a connection that is still there
  have hpos : 0 < (s.listeners k).backlog := by omega
  simp only [accept, if_pos hpos, Option.some.injEq, Prod.mk.injEq] at hs
  obtain ⟨rfl, rfl⟩ := hs
  have hmerged : ∀ j, (es++[Event.accepted k]).count (.merged j) = es.count (.merged j) := by
    simp
  refine ⟨fun j => ?_, fun j => ?_, fun j h => ?_, fun j => ?_⟩
  · rw [hmerged]
    by_cases hj : j = k
    · subst hj
      simp only [State.noticed, set_same, set_ready, ha, if_true, Pc.events]
      omega
    · have hbj := hi.backlog j
      have hne : Source.socket k ≠ .socket j := by simpa using Ne.symm hj
      simp only [State.noticed, hpc, Pc.events, List.count_cons_of_ne hne] at hbj
      simpa only [State.noticed, set_other s _ hj, set_ready, Pc.events] using hbj
  · exact hi.once j
  · have hj : j ≠ k := by
      rintro rfl
      simp only [set_same, ha] at h
      cases h
    simp only [set_other s _ hj] at h
    have he := hi.early j h
    have hne : Source.socket k ≠ .socket j := by simpa using Ne.symm hj
    simpa only [set_ready, Pc.events, hpc, List.count_cons_of_ne hne] using he
  · have hadd : (s.listeners j).added = true := by
      rw [hi.added, hpc]
      rfl
    by_cases hj : j = k
    · subst hj
      simpa only [set_same, Pc.added] using hadd
    · simpa only [set_other s _ hj, Pc.added] using hadd

theorem add_count (s : State) {j k : Socket} (h : j ≠ k) :
    (s.add k).ready.count (.socket j) = s.ready.count (.socket j) := by
  simp only [State.add]
  split
  · exact count_notify_other _ (by simpa using h)
  · rfl

theorem add_count_self {s : State} {k : Socket} (h : s.ready.count (.socket k) = 0) :
    (s.add k).ready.count (.socket k) = if 0 < (s.listeners k).backlog then 1 else 0 := by
  simp only [State.add]
  split
  · rw [count_notify_self, if_neg (List.count_eq_zero.mp h)]
  · exact h

theorem add_invariant {s : State} {k : Socket} {es : List Event} {pc : Pc}
    (hi : Invariant es s) (hk : (s.listeners k).added = false) (hevents : s.pc.events = [])
    (hevents' : pc.events = []) (hadded : ∀ j, pc.added j = if j = k then true else s.pc.added j) :
    Invariant es { s.add k with pc := pc } := by
  refine ⟨fun j => ?_, fun j => ?_, fun j h => ?_, fun j => ?_⟩
  · have hb := hi.backlog j
    by_cases hj : j = k
    · subst hj
      have hl : (s.add j).listeners j = { s.listeners j with added := true } := set_same s j _
      simp only [State.noticed, hk, Bool.false_eq_true, if_false] at hb
      simp only [State.noticed, hl, if_true, hevents', List.count_nil,
        add_count_self (hi.early j hk).1]
      exact hb
    · have hl : (s.add k).listeners j = s.listeners j := set_other s _ hj
      simp only [State.noticed, hevents, hevents', hl, add_count s hj] at hb ⊢
      exact hb
  · by_cases hj : j = k
    · subst hj
      simp only [add_count_self (hi.early j hk).1]
      split
      · exact Nat.le_refl 1
      · exact Nat.zero_le 1
    · simp only [add_count s hj]
      exact hi.once j
  · have hj : j ≠ k := by
      rintro rfl
      simp only [State.add, set_same] at h
      cases h
    have hl : (s.add k).listeners j = s.listeners j := set_other s _ hj
    simp only [hl] at h
    simp only [add_count s hj, hevents']
    exact ⟨(hi.early j h).1, rfl⟩
  · simp only [hadded]
    by_cases hj : j = k
    · subst hj
      simp [State.add, set_same]
    · have hl : (s.add k).listeners j = s.listeners j := set_other s _ hj
      simp only [hl, if_neg hj]
      exact hi.added j

theorem wait_invariant {s : State} {es : List Event} (hi : Invariant es s) (hpc : s.pc = .wait) :
    Invariant es { s with
      pc := .serve (s.ready.take maxEvents)
      ready := s.ready.drop maxEvents } := by
  have hsplit : ∀ k, (s.ready.drop maxEvents).count (.socket k)+
      (s.ready.take maxEvents).count (.socket k) = s.ready.count (.socket k) := by
    intro k
    rw [Nat.add_comm, ← List.count_append, List.take_append_drop]
  have hnone : ∀ k, s.pc.events.count (.socket k) = 0 := by
    simp [hpc, Pc.events]
  refine ⟨fun k => ?_, fun k => ?_, fun k h => ?_, fun k => ?_⟩
  · have hb := hi.backlog k
    rw [State.noticed, hnone k, Nat.add_zero] at hb
    simpa only [State.noticed, Pc.events, hsplit k] using hb
  · exact Nat.le_trans (Nat.le.intro (hsplit k)) (hi.once k)
  · have hadded := hi.added k
    rw [hpc] at hadded
    rw [hadded] at h
    cases h
  · have hadded := hi.added k
    rw [hpc] at hadded
    exact hadded

theorem monitor_invariant {s t : State} {es fs : List Event} (hi : Invariant es s)
    (hs : monitor s = some (t, fs)) : Invariant (es++fs) t := by
  have hadded := hi.added
  cases hpc : s.pc with
  | initNet | initLocal =>
    simp only [monitor, hpc, Option.some.injEq, Prod.mk.injEq] at hs
    obtain ⟨rfl, rfl⟩ := hs
    rw [List.append_nil]
    exact listening_invariant hi (by rw [hpc]; rfl) (by rw [hpc]; rfl)
  | addNet | addLocal =>
    simp only [monitor, hpc, Option.some.injEq, Prod.mk.injEq] at hs
    obtain ⟨rfl, rfl⟩ := hs
    rw [List.append_nil]
    refine add_invariant hi ?_ (by rw [hpc]; rfl) rfl ?_
    · rw [hadded, hpc]
      rfl
    · intro j
      rw [hpc]
      cases j <;> rfl
  | wait =>
    simp only [monitor, hpc, Option.ite_none_left_eq_some, Option.some.injEq,
      Prod.mk.injEq] at hs
    obtain ⟨-, rfl, rfl⟩ := hs
    rw [List.append_nil]
    exact wait_invariant hi hpc
  | serve events =>
    cases events with
    | nil =>
      simp only [monitor, hpc, Option.some.injEq, Prod.mk.injEq] at hs
      obtain ⟨rfl, rfl⟩ := hs
      rw [List.append_nil]
      exact hi.congr (fun k => ⟨rfl, rfl⟩) (fun k => rfl) (fun k => by rw [hpc]; rfl)
        (fun k => by rw [hpc]; rfl)
    | cons x events =>
      cases x with
      | socket k =>
        simp only [monitor, hpc] at hs
        exact accept_invariant hi hpc hs
      | client fd =>
        simp only [monitor, hpc, Option.some.injEq, Prod.mk.injEq] at hs
        obtain ⟨rfl, rfl⟩ := hs
        rw [List.append_nil]
        refine hi.congr (fun k => ⟨rfl, rfl⟩) (fun k => rfl) (fun k => ?_)
          (fun k => by rw [hpc]; rfl)
        rw [hpc]
        exact (List.count_cons_of_ne (by simp)).symm
  | receive events =>
    simp [monitor, hpc] at hs
  | sleep =>
    simp only [monitor, hpc, Option.some.injEq, Prod.mk.injEq] at hs
    obtain ⟨rfl, rfl⟩ := hs
    rw [List.append_nil]
    exact hi.congr (fun k => ⟨rfl, rfl⟩) (fun k => rfl) (fun k => by rw [hpc]; rfl)
      (fun k => by rw [hpc]; rfl)

theorem step_invariant {s t : State} {choice : Choice} {es fs : List Event} (hi : Invariant es s)
    (hs : step s choice = some (t, fs)) : Invariant (es++fs) t := by
  cases choice with
  | connect k => exact connect_invariant hi hs
  | monitor => exact monitor_invariant hi hs
  | message fd registers =>
    simp only [step] at hs
    split at hs
    · rename_i events hpc
      cases hs
      rw [List.append_nil]
      exact hi.congr (fun k => ⟨rfl, rfl⟩) (fun k => rfl) (fun k => by rw [hpc]; rfl)
        (fun k => by rw [hpc]; rfl)
    · cases hs
  | data fd =>
    simp only [step, Option.ite_none_right_eq_some, Option.some.injEq, Prod.mk.injEq] at hs
    obtain ⟨-, rfl, rfl⟩ := hs
    rw [List.append_nil]
    exact hi.congr (fun k => ⟨rfl, rfl⟩) (fun k => count_notify_other _ (by simp))
      (fun k => rfl) (fun k => rfl)
  | drop fd =>
    simp only [step, Option.some.injEq, Prod.mk.injEq] at hs
    obtain ⟨rfl, rfl⟩ := hs
    rw [List.append_nil]
    exact hi.congr (fun k => ⟨rfl, rfl⟩) (fun k => List.count_filter (by simp))
      (fun k => rfl) (fun k => rfl)

theorem run_invariant {as : List Choice} {s : State} {es : List Event}
    (hr : run step as initial = some (s, es)) : Invariant es s :=
  run_induction step initial Invariant initial_invariant
    (fun _ _ _ _ _ hi hs => step_invariant hi hs) as s es hr

def Event.Merged : Event → Prop
  | .merged _ => True
  | .accepted _ => False

theorem accept_merged {s t : State} {k : Socket} {events : List Source} {fs : List Event}
    (hs : accept s k events = some (t, fs)) : ∀ e ∈ fs, ¬ e.Merged := by
  simp only [accept] at hs
  split at hs
  · cases hs
    simp [Event.Merged]
  · split at hs
    · cases hs
      simp
    · cases hs

theorem monitor_merged {s t : State} {fs : List Event} (hs : monitor s = some (t, fs)) :
    ∀ e ∈ fs, ¬ e.Merged := by
  cases hpc : s.pc with
  | wait =>
    simp only [monitor, hpc, Option.ite_none_left_eq_some] at hs
    cases hs.2
    simp
  | serve events =>
    cases events with
    | nil =>
      simp only [monitor, hpc] at hs
      cases hs
      simp
    | cons x events =>
      cases x with
      | socket k =>
        simp only [monitor, hpc] at hs
        exact accept_merged hs
      | client fd =>
        simp only [monitor, hpc] at hs
        cases hs
        simp
  | receive events => simp [monitor, hpc] at hs
  | _ =>
    simp only [monitor, hpc] at hs
    cases hs
    simp

theorem alone_shows {s t : State} {choice : Choice} {fs : List Event}
    (hs : step s choice = some (t, fs)) : Alone s choice ↔ ∀ e ∈ fs, ¬ e.Merged := by
  cases choice with
  | connect k =>
    simp only [step, connect, Option.ite_none_right_eq_some, Option.some.injEq,
      Prod.mk.injEq] at hs
    obtain ⟨-, -, rfl⟩ := hs
    by_cases h : s.Unreported k
    · simp [Alone, h, Event.Merged]
    · simp [Alone, h]
  | monitor => exact iff_of_true trivial (monitor_merged hs)
  | message fd registers =>
    simp only [step] at hs
    split at hs
    · cases hs
      simp [Alone]
    · cases hs
  | data fd =>
    simp only [step, Option.ite_none_right_eq_some, Option.some.injEq, Prod.mk.injEq] at hs
    obtain ⟨-, -, rfl⟩ := hs
    simp [Alone]
  | drop fd =>
    simp only [step, Option.some.injEq, Prod.mk.injEq] at hs
    obtain ⟨-, rfl⟩ := hs
    simp [Alone]

/-- What waits while the monitor is blocked are the connections whose event was
merged into an earlier one. -/
theorem idle_backlog {s : State} {es : List Event} (hi : Invariant es s) (h : s.Idle)
    (k : Socket) : (s.listeners k).backlog = es.count (.merged k) := by
  have hadded : (s.listeners k).added = true := by
    rw [hi.added, h.1]
    rfl
  rw [hi.backlog k, State.noticed, if_pos hadded, h.1, h.2]
  exact Nat.zero_add _

/-- A connection is left waiting behind a blocked monitor exactly if some
connection arrived before the last event of its socket was reported. -/
theorem none_waits_iff {as : List Choice} {s : State} {es : List Event}
    (hr : run step as initial = some (s, es)) (h : s.Idle) :
    (∀ k, (s.listeners k).backlog = 0) ↔ Meets step Alone initial as := by
  rw [meets_iff_events (fun _ _ _ _ hs => alone_shows hs) hr]
  simp only [idle_backlog (run_invariant hr) h, List.count_eq_zero]
  constructor
  · intro hnone e he hm
    cases e with
    | merged k => exact hnone k he
    | accepted k => exact hm
  · intro hnone k hk
    exact hnone _ hk trivial

def inTurn : List Choice :=
  [.monitor, .monitor, .monitor, .monitor, .connect .net, .monitor, .monitor, .connect .net,
    .message 5 true, .monitor, .monitor, .monitor, .monitor, .message 6 true, .monitor, .monitor]

theorem none_waits_iff_inTurn : ∃ s es, run step inTurn initial = some (s, es) ∧ s.Idle ∧
    ((∀ k, (s.listeners k).backlog = 0) ↔ Meets step Alone initial inTurn) := by
  have hr : run step inTurn initial = some (_, _) := rfl
  exact ⟨_, _, hr, ⟨rfl, rfl⟩, none_waits_iff hr ⟨rfl, rfl⟩⟩

/-- Two connections arrive before their event is reported. -/
theorem second_connection_waits : ¬ ∀ (as : List Choice) (s : State) (es : List Event),
    run step as initial = some (s, es) → s.Idle → ∀ k, (s.listeners k).backlog = 0 := by
  intro h
  have hr : run step [.monitor, .monitor, .monitor, .monitor, .connect .net, .connect .net,
      .monitor, .monitor, .message 5 true, .monitor, .monitor] initial = some (_, _) := rfl
  have hnet := h _ _ _ hr ⟨rfl, rfl⟩ .net
  revert hnet
  decide

end Semestr4.ClusterAcceptor
