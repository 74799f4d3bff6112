import Mathlib.Data.Int.Basic
import Semestr4.ScheduledRun

/-!
# The sleeping barber over a System V semaphore

One barber and a family of client processes share a record, a message queue and
a semaphore of value one. Each round of `barberLogic` and `clientLogic`, from
taking the semaphore to giving it back, is one step. A client's variable
`client` and its count of shaves are private. Sending never blocks.
-/

set_option autoImplicit false

namespace Semestr4.BarberMachine
open Semestr4.ScheduledRun

inductive Status where
  | sleep
  | wakes
  | sits
  | sitsFirst
  | start
  | end_
  | leaves
  | invites
  deriving DecidableEq, Repr

structure Data where
  waitingClients : ℤ
  queueLength : ℤ
  status : Status
  clientPid : ℤ
  barberPid : ℤ
  deriving DecidableEq, Repr

/-- The private variables of a client process: the flag `client` and the index
of the shave it is at. -/
structure Client where
  client : ℤ
  i : ℤ
  deriving DecidableEq, Repr

/-- What the processes are started with. Process ids are positive and belong to
one client each. `msgPid` is what the barber's message holds before it is set. -/
structure Shop (ι : Type*) where
  pid : ι → ℤ
  pid_pos : ∀ c, 0 < pid c
  pid_injective : Function.Injective pid
  numberOfShaves : ι → ℤ
  queueLength : ℤ
  barberPid : ℤ
  msgPid : ℤ

/-- `queue` lists the process ids of the messages not received yet. -/
structure State (ι : Type*) where
  data : Data
  queue : List ℤ
  msgPid : ℤ
  clients : ι → Client

inductive Event where
  | barberWakesUp
  | barberStartsCutting (pid : ℤ)
  | barberEndsCutting (pid : ℤ)
  | barberInvites (pid : ℤ)
  | barberFallsAsleep
  | clientWakesBarber (pid : ℤ)
  | clientSits (pid : ℤ)
  | clientLeaves (pid : ℤ)
  | clientLeavesFull (pid : ℤ)
  | clientWaits (pid : ℤ)
  deriving DecidableEq, Repr

inductive Process (ι : Type*) where
  | barber
  | client (c : ι)
  deriving DecidableEq, Repr

variable {ι : Type*}

/-- The non-blocking receive, which fails on an empty queue. -/
def msgrcv : List ℤ → Option (ℤ × List ℤ)
  | [] => none
  | pid::rest => some (pid, rest)

def msgsnd (queue : List ℤ) (pid : ℤ) : List ℤ := queue ++ [pid]

/-- A round of `barberLogic`. A failed receive leaves the old message. -/
def barberLogic (getpid : ℤ) (s : State ι) : State ι × List Event :=
  if s.data.status = .wakes ∧ s.data.barberPid = getpid then
    ({ s with data := { s.data with status := .sitsFirst } }, [.barberWakesUp])
  else if s.data.status = .start ∧ s.data.barberPid = getpid then
    ({ s with data := { s.data with status := .end_ } },
      [.barberStartsCutting s.data.clientPid])
  else if s.data.status = .end_ ∧ s.data.barberPid = getpid then
    ({ s with data := { s.data with status := .leaves } },
      [.barberEndsCutting s.data.clientPid])
  else if s.data.status = .invites ∧ s.data.barberPid = getpid then
    if s.data.waitingClients > 0 then
      let msg := (msgrcv s.queue).getD (s.msgPid, s.queue)
      ({ s with
          data := { s.data with clientPid := msg.1, status := .sits }
          queue := msg.2
          msgPid := msg.1 }, [.barberInvites msg.1])
    else
      ({ s with data := { s.data with status := .sleep, clientPid := 0 } },
        [.barberFallsAsleep])
  else (s, [])

inductive BarberDoes (s : State ι) : State ι → List Event → Prop
  | wakesUp (h : s.data.status = .wakes) :
      BarberDoes s { s with data := { s.data with status := .sitsFirst } } [.barberWakesUp]
  | startsCutting (h : s.data.status = .start) :
      BarberDoes s { s with data := { s.data with status := .end_ } }
        [.barberStartsCutting s.data.clientPid]
  | endsCutting (h : s.data.status = .end_) :
      BarberDoes s { s with data := { s.data with status := .leaves } }
        [.barberEndsCutting s.data.clientPid]
  | invites (h : s.data.status = .invites) (hw : 0 < s.data.waitingClients) (pid : ℤ)
      (rest : List ℤ) (hm : (msgrcv s.queue).getD (s.msgPid, s.queue) = (pid, rest)) :
      BarberDoes s
        { s with
          data := { s.data with clientPid := pid, status := .sits }, queue := rest, msgPid := pid }
        [.barberInvites pid]
  | fallsAsleep (h : s.data.status = .invites) (hw : s.data.waitingClients ≤ 0) :
      BarberDoes s { s with data := { s.data with status := .sleep, clientPid := 0 } }
        [.barberFallsAsleep]
  | nothing : BarberDoes s s []

theorem barber_does (getpid : ℤ) (s : State ι) :
    BarberDoes s (barberLogic getpid s).1 (barberLogic getpid s).2 := by
  unfold barberLogic
  split
  · rename_i h
    exact .wakesUp h.1
  split
  · rename_i h
    exact .startsCutting h.1
  split
  · rename_i h
    exact .endsCutting h.1
  split
  · rename_i h
    split
    · rename_i hw
      exact .invites h.1 hw _ _ rfl
    · rename_i hw
      exact .fallsAsleep h.1 (by omega)
  · exact .nothing

variable [DecidableEq ι]

/-- A round of the service loop of `clientLogic`. Leaving the loop counts the
shave, and a client whose shaves are used up has exited. -/
def clientLogic (shop : Shop ι) (s : State ι) (c : ι) : State ι × List Event :=
  let getpid := shop.pid c
  let own := s.clients c
  if s.data.status = .sleep ∧ s.data.clientPid = 0 ∧ own.client = 0 then
    ({ s with data := { s.data with clientPid := getpid, status := .wakes } },
      [.clientWakesBarber getpid])
  else if s.data.status = .sitsFirst ∧ s.data.clientPid = getpid then
    ({ s with
        data := { s.data with status := .start }
        clients := Function.update s.clients c { own with client := getpid } },
      [.clientSits getpid])
  else if s.data.status = .sits ∧ s.data.clientPid = getpid then
    ({ s with
        data := { s.data with
          status := .start, waitingClients := s.data.waitingClients-1 } },
      [.clientSits getpid])
  else if s.data.status = .leaves ∧ s.data.clientPid = getpid then
    ({ s with
        data := { s.data with status := .invites, clientPid := 0 }
        clients := Function.update s.clients c { client := 0, i := own.i+1 } },
      [.clientLeaves getpid])
  else if own.client = 0 ∧ s.data.clientPid ≠ 0 then
    if s.data.queueLength ≤ s.data.waitingClients then
      ({ s with clients := Function.update s.clients c { own with i := own.i+1 } },
        [.clientLeavesFull getpid])
    else
      ({ s with
          data := { s.data with waitingClients := s.data.waitingClients+1 }
          queue := msgsnd s.queue getpid
          clients := Function.update s.clients c { own with client := getpid } },
        [.clientWaits getpid])
  else (s, [])

/-- A client takes part while its loop over the shaves is not finished. -/
def machine (shop : Shop ι) : Step (State ι) (Process ι) Event
  | s, .barber => some (barberLogic shop.barberPid s)
  | s, .client c =>
    if (s.clients c).i < shop.numberOfShaves c then some (clientLogic shop s c) else none

def initial (shop : Shop ι) : State ι where
  data := {
    waitingClients := 0
    queueLength := shop.queueLength
    status := .invites
    clientPid := 0
    barberPid := shop.barberPid }
  queue := []
  msgPid := shop.msgPid
  clients := fun _ => { client := 0, i := 0 }

def smallShop (queueLength : ℤ) : Shop Unit where
  pid _ := 2
  pid_pos _ := by decide
  pid_injective _ _ _ := rfl
  numberOfShaves _ := 1
  queueLength := queueLength
  barberPid := 1
  msgPid := 0

/-- The barber reacts at once, and the client is shaved and leaves. -/
def wakeAndShave : List (Process Unit) :=
  [.barber, .client (), .barber, .client (), .barber, .barber, .client ()]

inductive ClientDoes (shop : Shop ι) (s : State ι) (c : ι) : State ι → List Event → Prop
  | wakesBarber (h : s.data.status = .sleep) (hp : s.data.clientPid = 0)
      (hc : (s.clients c).client = 0) :
      ClientDoes shop s c
        { s with data := { s.data with clientPid := shop.pid c, status := .wakes } }
        [.clientWakesBarber (shop.pid c)]
  | sitsFirst (h : s.data.status = .sitsFirst) (hp : s.data.clientPid = shop.pid c) :
      ClientDoes shop s c
        { s with
          data := { s.data with status := .start }
          clients := Function.update s.clients c
            { s.clients c with client := shop.pid c } }
        [.clientSits (shop.pid c)]
  | sits (h : s.data.status = .sits) (hp : s.data.clientPid = shop.pid c) :
      ClientDoes shop s c
        { s with
          data := { s.data with
            status := .start, waitingClients := s.data.waitingClients-1 } }
        [.clientSits (shop.pid c)]
  | leaves (h : s.data.status = .leaves) (hp : s.data.clientPid = shop.pid c) :
      ClientDoes shop s c
        { s with
          data := { s.data with status := .invites, clientPid := 0 }
          clients := Function.update s.clients c
            { client := 0, i := (s.clients c).i+1 } }
        [.clientLeaves (shop.pid c)]
  | leavesFull (hc : (s.clients c).client = 0) (hp : s.data.clientPid ≠ 0)
      (hf : s.data.clientPid = shop.pid c → s.data.status ≠ .sitsFirst)
      (hq : s.data.queueLength ≤ s.data.waitingClients) :
      ClientDoes shop s c
        { s with
          clients := Function.update s.clients c
            { s.clients c with i := (s.clients c).i+1 } }
        [.clientLeavesFull (shop.pid c)]
  | waits (hc : (s.clients c).client = 0) (hp : s.data.clientPid ≠ 0)
      (hf : s.data.clientPid = shop.pid c → s.data.status ≠ .sitsFirst)
      (hq : s.data.waitingClients < s.data.queueLength) :
      ClientDoes shop s c
        { s with
          data := { s.data with waitingClients := s.data.waitingClients+1 }
          queue := msgsnd s.queue (shop.pid c)
          clients := Function.update s.clients c
            { s.clients c with client := shop.pid c } }
        [.clientWaits (shop.pid c)]
  | nothing : ClientDoes shop s c s []

theorem client_does (shop : Shop ι) (s : State ι) (c : ι) :
    ClientDoes shop s c (clientLogic shop s c).1 (clientLogic shop s c).2 := by
  simp only [clientLogic]
  split
  · rename_i h
    exact .wakesBarber h.1 h.2.1 h.2.2
  split
  · rename_i h
    exact .sitsFirst h.1 h.2
  rename_i hfirst
  split
  · rename_i h
    exact .sits h.1 h.2
  split
  · rename_i h
    exact .leaves h.1 h.2
  split
  · rename_i h
    have hf : s.data.clientPid = shop.pid c → s.data.status ≠ .sitsFirst :=
      fun hp hs => hfirst ⟨hs, hp⟩
    split
    · rename_i hq
      exact .leavesFull h.1 h.2 hf hq
    · rename_i hq
      exact .waits h.1 h.2 hf (by omega)
  · exact .nothing

theorem machine_cases {shop : Shop ι} {s t : State ι} {a : Process ι} {es : List Event}
    (h : machine shop s a = some (t, es)) :
    (a = .barber ∧ BarberDoes s t es) ∨
    ∃ c, a = .client c ∧ (s.clients c).i < shop.numberOfShaves c ∧ ClientDoes shop s c t es := by
  cases a with
  | barber =>
    left
    simp only [machine, Option.some.injEq] at h
    have hd := barber_does shop.barberPid s
    rw [h] at hd
    exact ⟨rfl, hd⟩
  | client c =>
    right
    simp only [machine, Option.ite_none_right_eq_some, Option.some.injEq] at h
    have hd := client_does shop s c
    rw [h.2] at hd
    exact ⟨c, rfl, h.1, hd⟩

end Semestr4.BarberMachine
