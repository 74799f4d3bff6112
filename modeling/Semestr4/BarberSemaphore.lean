import Semestr4.BarberMachine
import Semestr4.Permits

/-!
# The sleeping barber over a POSIX semaphore

The same protocol, statement by statement: each condition, assignment and call
is a step of its own, so that the sections the semaphore should keep apart can
be seen to overlap. `main` opens the semaphore with value one and then posts it
once more, so that two processes fit in between `sem_wait` and `sem_post`.
-/

set_option autoImplicit false

namespace Semestr4.BarberSemaphore
open Semestr4.ScheduledRun Semestr4.BarberMachine Semestr4.Permits

inductive BarberPc where
  | setBarberPid
  | semWait
  | ifWakes
  | setSitsFirst
  | printWakesUp
  | ifStart
  | setEnd
  | printStartsCutting
  | ifEnd
  | setLeaves
  | printEndsCutting
  | ifInvites
  | ifWaiting
  | receive
  | setInvited
  | setSits
  | printInvites
  | setSleep
  | clearClientPid
  | printFallsAsleep
  | semPost
  deriving DecidableEq, Repr

/-- The next statement of `clientLogic`. The last post of a shave is apart from
the one that goes on with its loop. -/
inductive ClientPc where
  | testShaves
  | usleep
  | semWait
  | ifSleep
  | setWaker
  | setWakes
  | printWakes
  | ifSitsFirst
  | setStartFirst
  | setSeated
  | printSitsFirst
  | ifSits
  | setStart
  | decrement
  | printSits
  | ifLeaves
  | setInvites
  | clearClientPid
  | clearClient
  | printLeaves
  | ifNew
  | ifFull
  | printFull
  | setQueued
  | setMessage
  | increment
  | send
  | printWaits
  | postContinue
  | postBreak
  | exited
  deriving DecidableEq, Repr

structure BarberState where
  pc : BarberPc
  msgPid : ℤ
  deriving DecidableEq, Repr

structure ClientState where
  pc : ClientPc
  client : ℤ
  i : ℤ
  msgPid : ℤ
  deriving DecidableEq, Repr

structure State (ι : Type*) where
  data : Data
  queue : List ℤ
  sem : ℕ
  barber : BarberState
  clients : ι → ClientState

variable {ι : Type*}

structure Effect where
  data : Data
  queue : List ℤ
  sem : ℕ
  events : List Event := []

/-- One statement of `barberLogic`. Waiting on a semaphore of value zero blocks. -/
def barberStatement (getpid : ℤ) (data : Data) (queue : List ℤ) (sem : ℕ) (own : BarberState) :
    Option (BarberState × Effect) :=
  let goto (pc : BarberPc) := some ({ own with pc := pc }, Effect.mk data queue sem [])
  let assign (data : Data) (pc : BarberPc) :=
    some ({ own with pc := pc }, Effect.mk data queue sem [])
  let print (event : Event) := some ({ own with pc := .semPost }, Effect.mk data queue sem [event])
  match own.pc with
  | .setBarberPid => assign { data with barberPid := getpid } .semWait
  | .semWait =>
    if sem = 0 then none else some ({ own with pc := .ifWakes }, Effect.mk data queue (sem-1) [])
  | .ifWakes =>
    if data.status = .wakes ∧ data.barberPid = getpid then goto .setSitsFirst else goto .ifStart
  | .setSitsFirst => assign { data with status := .sitsFirst } .printWakesUp
  | .printWakesUp => print .barberWakesUp
  | .ifStart =>
    if data.status = .start ∧ data.barberPid = getpid then goto .setEnd else goto .ifEnd
  | .setEnd => assign { data with status := .end_ } .printStartsCutting
  | .printStartsCutting => print (.barberStartsCutting data.clientPid)
  | .ifEnd =>
    if data.status = .end_ ∧ data.barberPid = getpid then goto .setLeaves else goto .ifInvites
  | .setLeaves => assign { data with status := .leaves } .printEndsCutting
  | .printEndsCutting => print (.barberEndsCutting data.clientPid)
  | .ifInvites =>
    if data.status = .invites ∧ data.barberPid = getpid then goto .ifWaiting else goto .semPost
  | .ifWaiting => if data.waitingClients > 0 then goto .receive else goto .setSleep
  | .receive => match msgrcv queue with
    | some (pid, rest) =>
      some ({ pc := .setInvited, msgPid := pid }, Effect.mk data rest sem [])
    | none => goto .setInvited
  | .setInvited => assign { data with clientPid := own.msgPid } .setSits
  | .setSits => assign { data with status := .sits } .printInvites
  | .printInvites => print (.barberInvites own.msgPid)
  | .setSleep => assign { data with status := .sleep } .clearClientPid
  | .clearClientPid => assign { data with clientPid := 0 } .printFallsAsleep
  | .printFallsAsleep => print .barberFallsAsleep
  | .semPost => some ({ own with pc := .semWait }, Effect.mk data queue (sem+1) [])

/-- One statement of `clientLogic`. An exited client has none left. -/
def clientStatement (getpid numberOfShaves : ℤ) (data : Data) (queue : List ℤ) (sem : ℕ)
    (own : ClientState) : Option (ClientState × Effect) :=
  let goto (pc : ClientPc) := some ({ own with pc := pc }, Effect.mk data queue sem [])
  let assign (data : Data) (pc : ClientPc) :=
    some ({ own with pc := pc }, Effect.mk data queue sem [])
  let print (event : Event) (pc : ClientPc) :=
    some ({ own with pc := pc }, Effect.mk data queue sem [event])
  match own.pc with
  | .testShaves => if own.i < numberOfShaves then goto .usleep else goto .exited
  | .usleep => goto .semWait
  | .semWait =>
    if sem = 0 then none else some ({ own with pc := .ifSleep }, Effect.mk data queue (sem-1) [])
  | .ifSleep =>
    if data.status = .sleep ∧ data.clientPid = 0 ∧ own.client = 0 then goto .setWaker
    else goto .ifSitsFirst
  | .setWaker => assign { data with clientPid := getpid } .setWakes
  | .setWakes => assign { data with status := .wakes } .printWakes
  | .printWakes => print (.clientWakesBarber getpid) .postContinue
  | .ifSitsFirst =>
    if data.status = .sitsFirst ∧ data.clientPid = getpid then goto .setStartFirst
    else goto .ifSits
  | .setStartFirst => assign { data with status := .start } .setSeated
  | .setSeated =>
    some ({ own with pc := .printSitsFirst, client := getpid }, Effect.mk data queue sem [])
  | .printSitsFirst => print (.clientSits getpid) .postContinue
  | .ifSits =>
    if data.status = .sits ∧ data.clientPid = getpid then goto .setStart else goto .ifLeaves
  | .setStart => assign { data with status := .start } .decrement
  | .decrement => assign { data with waitingClients := data.waitingClients-1 } .printSits
  | .printSits => print (.clientSits getpid) .postContinue
  | .ifLeaves =>
    if data.status = .leaves ∧ data.clientPid = getpid then goto .setInvites else goto .ifNew
  | .setInvites => assign { data with status := .invites } .clearClientPid
  | .clearClientPid => assign { data with clientPid := 0 } .clearClient
  | .clearClient =>
    some ({ own with pc := .printLeaves, client := 0 }, Effect.mk data queue sem [])
  | .printLeaves => print (.clientLeaves getpid) .postBreak
  | .ifNew =>
    if own.client = 0 ∧ data.clientPid ≠ 0 then goto .ifFull else goto .postContinue
  | .ifFull => if data.queueLength ≤ data.waitingClients then goto .printFull else goto .setQueued
  | .printFull => print (.clientLeavesFull getpid) .postBreak
  | .setQueued =>
    some ({ own with pc := .setMessage, client := getpid }, Effect.mk data queue sem [])
  | .setMessage =>
    some ({ own with pc := .increment, msgPid := getpid }, Effect.mk data queue sem [])
  | .increment => assign { data with waitingClients := data.waitingClients+1 } .send
  | .send =>
    some ({ own with pc := .printWaits }, Effect.mk data (msgsnd queue own.msgPid) sem [])
  | .printWaits => print (.clientWaits getpid) .postContinue
  | .postContinue => some ({ own with pc := .usleep }, Effect.mk data queue (sem+1) [])
  | .postBreak =>
    some ({ own with pc := .testShaves, i := own.i+1 }, Effect.mk data queue (sem+1) [])
  | .exited => none

def machine [DecidableEq ι] (shop : Shop ι) : Step (State ι) (Process ι) Event
  | s, .barber =>
    (barberStatement shop.barberPid s.data s.queue s.sem s.barber).map fun p =>
      ({ data := p.2.data, queue := p.2.queue, sem := p.2.sem, barber := p.1,
          clients := s.clients }, p.2.events)
  | s, .client c =>
    (clientStatement (shop.pid c) (shop.numberOfShaves c) s.data s.queue s.sem
      (s.clients c)).map fun p =>
      ({ data := p.2.data, queue := p.2.queue, sem := p.2.sem, barber := s.barber,
          clients := Function.update s.clients c p.1 }, p.2.events)

/-- The barber about to enter `barberLogic` and the clients `clientLogic`, over
a semaphore of the given value. The record's `barberPid` is not set yet. -/
def initial (shop : Shop ι) (sem : ℕ) (unset : ℤ) : State ι where
  data := {
    waitingClients := 0
    queueLength := shop.queueLength
    status := .invites
    clientPid := 0
    barberPid := unset }
  queue := []
  sem := sem
  barber := { pc := .setBarberPid, msgPid := shop.msgPid }
  clients := fun c => { pc := .testShaves, client := 0, i := 0, msgPid := shop.pid c }

def semOpen (value : ℕ) : ℕ := value

def semPost (sem : ℕ) : ℕ := sem+1

/-- What `main` leaves of a fresh semaphore is opened with one and posted. -/
def main (shop : Shop ι) (unset : ℤ) : State ι := initial shop (semPost (semOpen 1)) unset

def BarberPc.permits : BarberPc → ℕ
  | .setBarberPid => 0
  | .semWait => 0
  | _ => 1

def ClientPc.permits : ClientPc → ℕ
  | .testShaves => 0
  | .usleep => 0
  | .semWait => 0
  | .exited => 0
  | _ => 1

/-- The permits a process holds: one between `sem_wait` and the matching
`sem_post`, none elsewhere. -/
def permitsOf (s : State ι) : Process ι → ℕ
  | .barber => s.barber.pc.permits
  | .client c => (s.clients c).pc.permits

def Inside (s : State ι) (p : Process ι) : Prop := permitsOf s p = 1

def Exclusive (s : State ι) : Prop := ∀ p q, Inside s p → Inside s q → p = q

def Waits (s : State ι) : Process ι → Prop
  | .barber => s.barber.pc = .semWait
  | .client c => (s.clients c).pc = .semWait

def TakesFromTwo (s : State ι) (p : Process ι) : Prop := Waits s p → s.sem ≠ 1

theorem BarberPc.permits_le (pc : BarberPc) : pc.permits ≤ 1 := by
  cases pc <;> decide

theorem ClientPc.permits_le (pc : ClientPc) : pc.permits ≤ 1 := by
  cases pc <;> decide

theorem permitsOf_le (s : State ι) (p : Process ι) : permitsOf s p ≤ 1 := by
  cases p with
  | barber => exact BarberPc.permits_le _
  | client c => exact ClientPc.permits_le _

theorem waits_outside {s : State ι} {p : Process ι} (h : Waits s p) : permitsOf s p = 0 := by
  cases p with
  | barber =>
    simp only [Waits] at h
    simp [permitsOf, h, BarberPc.permits]
  | client c =>
    simp only [Waits] at h
    simp [permitsOf, h, ClientPc.permits]

theorem barber_permit {getpid : ℤ} {data : Data} {queue : List ℤ} {sem : ℕ} {own : BarberState}
    {p : BarberState × Effect} (h : barberStatement getpid data queue sem own = some p) :
    p.2.sem + p.1.pc.permits = sem + own.pc.permits ∧ (own.pc = .semWait ↔ p.2.sem < sem) := by
  cases hpc : own.pc with
  | semWait =>
    simp only [barberStatement, hpc, Option.ite_none_left_eq_some, Option.some.injEq] at h
    obtain ⟨hsem, rfl⟩ := h
    simp only [BarberPc.permits, true_iff]
    omega
  | _ =>
    simp only [barberStatement, hpc] at h
    (repeat' split at h) <;> simp only [Option.some.injEq] at h <;> subst h <;>
      simp [BarberPc.permits]

theorem client_permit {getpid numberOfShaves : ℤ} {data : Data} {queue : List ℤ} {sem : ℕ}
    {own : ClientState} {p : ClientState × Effect}
    (h : clientStatement getpid numberOfShaves data queue sem own = some p) :
    p.2.sem + p.1.pc.permits = sem + own.pc.permits ∧ (own.pc = .semWait ↔ p.2.sem < sem) := by
  cases hpc : own.pc with
  | semWait =>
    simp only [clientStatement, hpc, Option.ite_none_left_eq_some, Option.some.injEq] at h
    obtain ⟨hsem, rfl⟩ := h
    simp only [ClientPc.permits, true_iff]
    omega
  | exited => simp [clientStatement, hpc] at h
  | _ =>
    simp only [clientStatement, hpc] at h
    (repeat' split at h) <;> simp only [Option.some.injEq] at h <;> subst h <;>
      simp [ClientPc.permits]

section
variable [Fintype ι]

def inside (s : State ι) : ℕ :=
  s.barber.pc.permits + held (fun own : ClientState => own.pc.permits) s.clients

theorem inside_initial (shop : Shop ι) (sem : ℕ) (unset : ℤ) :
    inside (initial shop sem unset) = 0 := by
  simp [inside, initial, BarberPc.permits, ClientPc.permits, held]

theorem exclusive_of_inside {s : State ι} (h : inside s ≤ 1) : Exclusive s := by
  classical
  have hclient : ∀ c, (s.clients c).pc.permits ≤ held (fun own : ClientState => own.pc.permits)
      s.clients := permits_le_held (fun own : ClientState => own.pc.permits) s.clients
  -- the barber and a client inside make two permits
  have hmixed : ∀ c, Inside s .barber → Inside s (.client c) → False := by
    intro c hb hc
    have hle := hclient c
    change s.barber.pc.permits = 1 at hb
    change (s.clients c).pc.permits = 1 at hc
    unfold inside at h
    omega
  intro p q hp hq
  cases p with
  | barber =>
    cases q with
    | barber => rfl
    | client d => exact absurd hq (hmixed d hp)
  | client c =>
    cases q with
    | barber => exact absurd hp (hmixed c hq)
    | client d =>
      by_contra hne
      have hcd : c ≠ d := fun he => hne (by rw [he])
      have htwo := two_holders (fun own : ClientState => own.pc.permits) s.clients hcd
        (Nat.lt_of_lt_of_eq Nat.zero_lt_one hp.symm) (Nat.lt_of_lt_of_eq Nat.zero_lt_one hq.symm)
      unfold inside at h
      omega

theorem exists_inside {s : State ι} (h : 0 < inside s) : ∃ p, Inside s p := by
  by_cases hb : s.barber.pc.permits = 1
  · exact ⟨.barber, hb⟩
  · have hle := s.barber.pc.permits_le
    unfold inside at h
    obtain ⟨c, hc⟩ := exists_holder (fun own : ClientState => own.pc.permits) s.clients (by omega)
    have hcle := (s.clients c).pc.permits_le
    refine ⟨.client c, ?_⟩
    show (s.clients c).pc.permits = 1
    omega

end

variable [DecidableEq ι]

theorem machine_cases {shop : Shop ι} {s t : State ι} {a : Process ι} {es : List Event}
    (h : machine shop s a = some (t, es)) :
    (a = .barber ∧ ∃ p,
      barberStatement shop.barberPid s.data s.queue s.sem s.barber = some p ∧
      t = { data := p.2.data, queue := p.2.queue, sem := p.2.sem, barber := p.1,
            clients := s.clients }) ∨
    ∃ c p, a = .client c ∧
      clientStatement (shop.pid c) (shop.numberOfShaves c) s.data s.queue s.sem (s.clients c) =
        some p ∧
      t = { data := p.2.data, queue := p.2.queue, sem := p.2.sem, barber := s.barber,
            clients := Function.update s.clients c p.1 } := by
  cases a with
  | barber =>
    simp only [machine, Option.map_eq_some_iff, Prod.mk.injEq] at h
    obtain ⟨p, hp, ht, -⟩ := h
    exact Or.inl ⟨rfl, p, hp, ht.symm⟩
  | client c =>
    simp only [machine, Option.map_eq_some_iff, Prod.mk.injEq] at h
    obtain ⟨p, hp, ht, -⟩ := h
    exact Or.inr ⟨c, p, rfl, hp, ht.symm⟩

theorem step_permits {shop : Shop ι} {s t : State ι} {a : Process ι} {es : List Event}
    (h : machine shop s a = some (t, es)) :
    t.sem + permitsOf t a = s.sem + permitsOf s a ∧ (Waits s a ↔ t.sem < s.sem) ∧
      ∀ p, p ≠ a → permitsOf t p = permitsOf s p := by
  rcases machine_cases h with ⟨rfl, p, hp, rfl⟩ | ⟨c, p, rfl, hp, rfl⟩
  · refine ⟨(barber_permit hp).1, (barber_permit hp).2, ?_⟩
    intro q hq
    cases q with
    | barber => exact absurd rfl hq
    | client c => rfl
  · refine ⟨?_, (client_permit hp).2, ?_⟩
    · simpa [permitsOf] using (client_permit hp).1
    · intro q hq
      cases q with
      | barber => rfl
      | client d =>
        have hd : d ≠ c := fun he => hq (by rw [he])
        simp [permitsOf, Function.update_of_ne hd]

variable [Fintype ι]

theorem inside_step {shop : Shop ι} {s t : State ι} {a : Process ι} {es : List Event}
    (h : machine shop s a = some (t, es)) : t.sem + inside t = s.sem + inside s := by
  rcases machine_cases h with ⟨rfl, p, hp, rfl⟩ | ⟨c, p, rfl, hp, rfl⟩
  · have hb := (barber_permit hp).1
    simp only [inside]
    omega
  · have hc := (client_permit hp).1
    have hu := held_update (fun own : ClientState => own.pc.permits) s.clients c p.1
    simp only [inside]
    omega

/-- The semaphore counts: what it holds and the processes inside make up the
value it was left with. -/
theorem permits_law {shop : Shop ι} {sem : ℕ} {unset : ℤ} {s : State ι}
    (hr : Reachable (machine shop) (initial shop sem unset) s) : s.sem + inside s = sem := by
  refine Reachable.induction (P := fun s => s.sem + inside s = sem) ?_ ?_ hr
  · rw [inside_initial]
    rfl
  · intro s a t fs hs hm
    rw [inside_step hm]
    exact hs

theorem exclusive_of_one {shop : Shop ι} {unset : ℤ} {s : State ι}
    (hr : Reachable (machine shop) (initial shop (semOpen 1) unset) s) : Exclusive s := by
  have h := permits_law hr
  have hv : semOpen 1 = 1 := rfl
  exact exclusive_of_inside (by omega)

theorem takes_lost {shop : Shop ι} {s t : State ι} {a : Process ι} {es : List Event}
    (h : machine shop s a = some (t, es)) (htotal : s.sem + inside s = 2) (ht : Exclusive t) :
    TakesFromTwo s a := by
  intro hw hone
  obtain ⟨hself, hwaits, hothers⟩ := step_permits h
  have hlt := hwaits.mp hw
  have hout := waits_outside hw
  obtain ⟨p, hp⟩ := exists_inside (s := s) (by omega)
  have hpa : p ≠ a := by
    intro he
    rw [he] at hp
    exact absurd (hout.symm.trans hp) (by decide)
  apply hpa
  apply ht p a
  · exact (hothers p hpa).trans hp
  · show permitsOf t a = 1
    have hle := permitsOf_le t a
    omega

theorem inside_keeps {shop : Shop ι} {s t : State ι} {a : Process ι} {es : List Event}
    (h : machine shop s a = some (t, es)) (htotal : s.sem + inside s = 2) (hs : inside s ≤ 1)
    (hC : TakesFromTwo s a) : inside t ≤ 1 := by
  obtain ⟨hself, hwaits, -⟩ := step_permits h
  have hstep := inside_step h
  by_cases hw : Waits s a
  · have hne := hC hw
    have hout := waits_outside hw
    have hle := permitsOf_le t a
    omega
  · have hnot := mt hwaits.mpr hw
    omega

theorem main_total {shop : Shop ι} {unset : ℤ} {s : State ι}
    (hr : Reachable (machine shop) (main shop unset) s) : s.sem + inside s = 2 :=
  permits_law hr

/-- Along a run from `main`, the processes stay apart exactly if no step takes
the semaphore at value one. -/
theorem run_exclusive_iff (shop : Shop ι) (unset : ℤ) (as : List (Process ι)) (s : State ι)
    (es : List Event) (hr : run (machine shop) as (main shop unset) = some (s, es)) :
    Throughout (machine shop) Exclusive (main shop unset) as ↔
      Meets (machine shop) TakesFromTwo (main shop unset) as := by
  apply throughout_iff_meets (I := fun s => s.sem + inside s = 2 ∧ inside s ≤ 1) ?_ ?_ ?_ ?_ hr
  · exact ⟨main_total (Reachable.start _ _), by simp [main, inside_initial]⟩
  · exact fun s hs => exclusive_of_inside hs.2
  · intro s a t fs hs hC h
    have hstep := inside_step h
    exact ⟨by omega, inside_keeps h hs.1 hs.2 hC⟩
  · intro s a t fs hreach h ht
    exact takes_lost h (main_total hreach) ht

def overlap (c : ι) : List (Process ι) :=
  [.barber, .barber, .client c, .client c, .client c]

omit [Fintype ι] in
theorem machine_client {shop : Shop ι} {s : State ι} {c : ι} {own own' : ClientState}
    {effect : Effect} (hown : s.clients c = own)
    (h : clientStatement (shop.pid c) (shop.numberOfShaves c) s.data s.queue s.sem own =
      some (own', effect)) :
    ∃ t, machine shop s (.client c) = some (t, effect.events) ∧ t.sem = effect.sem ∧
      t.barber = s.barber ∧ t.clients c = own' := by
  have hstep := congrArg (Option.map fun p : ClientState × Effect =>
    ((⟨p.2.data, p.2.queue, p.2.sem, s.barber, Function.update s.clients c p.1⟩ : State ι),
      p.2.events)) h
  subst hown
  exact ⟨_, hstep, rfl, rfl, Function.update_self ..⟩

omit [Fintype ι] in
theorem client_enters {shop : Shop ι} {s : State ι} {c : ι} (hsem : s.sem ≠ 0)
    {own : ClientState} (hown : s.clients c = own) (hpc : own.pc = .testShaves)
    (hi : own.i < shop.numberOfShaves c) :
    ∃ t es, run (machine shop) [.client c, .client c, .client c] s = some (t, es) ∧
      t.barber = s.barber ∧ Inside t (.client c) := by
  have htested : clientStatement (shop.pid c) (shop.numberOfShaves c) s.data s.queue s.sem own =
      some ({ own with pc := .usleep }, Effect.mk s.data s.queue s.sem []) := by
    simp only [clientStatement, hpc, if_pos hi]
  obtain ⟨t₁, htest, hsem₁, hbarber₁, hown₁⟩ := machine_client hown htested
  obtain ⟨t₂, hsleep, hsem₂, hbarber₂, hown₂⟩ := machine_client hown₁
    (show _ = some ({ own with pc := .semWait }, Effect.mk t₁.data t₁.queue t₁.sem []) from rfl)
  have hopen : t₂.sem ≠ 0 := by rwa [hsem₂, hsem₁]
  obtain ⟨t₃, hwait, -, hbarber₃, hown₃⟩ := machine_client hown₂
    (show _ = some ({ own with pc := .ifSleep }, Effect.mk t₂.data t₂.queue (t₂.sem-1) [])
      from if_neg hopen)
  refine ⟨t₃, _, run_cons.mpr ⟨t₁, _, _, htest, run_cons.mpr ⟨t₂, _, _, hsleep,
    run_cons.mpr ⟨t₃, _, _, hwait, rfl, rfl⟩, rfl⟩, rfl⟩, ?_, ?_⟩
  · rw [hbarber₃, hbarber₂, hbarber₁]
  · rw [Inside, permitsOf, hown₃]
    rfl

omit [Fintype ι] in
theorem overlap_inside (shop : Shop ι) (unset : ℤ) (c : ι) (hc : 0 < shop.numberOfShaves c) :
    ∃ s es, run (machine shop) (overlap c) (main shop unset) = some (s, es) ∧
      Inside s .barber ∧ Inside s (.client c) := by
  -- the barber takes one of the two permits
  obtain ⟨t, hbarber, hinside, hsem, hown⟩ : ∃ t,
      run (machine shop) [.barber, .barber] (main shop unset) = some (t, []) ∧
      Inside t .barber ∧ t.sem ≠ 0 ∧ t.clients = (main shop unset).clients :=
    ⟨_, rfl, rfl, Nat.one_ne_zero, rfl⟩
  obtain ⟨s, es, hclient, hsame, hs⟩ := client_enters hsem (congrFun hown c) rfl hc
  refine ⟨s, _, run_append.mpr ⟨t, _, _, hbarber, hclient, rfl⟩, ?_, hs⟩
  rwa [Inside, permitsOf, hsame]

def Idle (own : ClientState) : Prop := (own.pc = .testShaves ∧ own.i = 0) ∨ own.pc = .exited

theorem idle_statement {getpid numberOfShaves : ℤ} {data : Data} {queue : List ℤ} {sem : ℕ}
    {own : ClientState} {p : ClientState × Effect} (hn : numberOfShaves ≤ 0) (hi : Idle own)
    (h : clientStatement getpid numberOfShaves data queue sem own = some p) : Idle p.1 := by
  rcases hi with ⟨hpc, hzero⟩ | hpc
  · have hdone : ¬ 0 < numberOfShaves := by omega
    simp only [clientStatement, hpc, hzero, if_neg hdone, Option.some.injEq] at h
    subst h
    exact Or.inr rfl
  · simp [clientStatement, hpc] at h

omit [Fintype ι] in
theorem all_idle {shop : Shop ι} {unset : ℤ} (hn : ∀ c, shop.numberOfShaves c ≤ 0) {s : State ι}
    (hr : Reachable (machine shop) (main shop unset) s) (c : ι) : Idle (s.clients c) := by
  refine Reachable.induction (P := fun s => ∀ c, Idle (s.clients c)) ?_ ?_ hr c
  · exact fun d => Or.inl ⟨rfl, rfl⟩
  · intro s a t fs hs h d
    rcases machine_cases h with ⟨rfl, p, hp, rfl⟩ | ⟨c, p, rfl, hp, rfl⟩
    · exact hs d
    · by_cases hdc : d = c
      · subst hdc
        simpa using idle_statement (hn d) (hs d) hp
      · simpa [Function.update_of_ne hdc] using hs d

omit [Fintype ι] in
/-- Whatever the schedule, the barber stays alone between `sem_wait` and
`sem_post` only where no client wants a shave. -/
theorem always_exclusive_iff (shop : Shop ι) (unset : ℤ) :
    (∀ s, Reachable (machine shop) (main shop unset) s → Exclusive s) ↔
      ∀ c, shop.numberOfShaves c ≤ 0 := by
  constructor
  · intro hall c
    by_contra hc
    obtain ⟨s, es, hr, hbarber, hclient⟩ := overlap_inside shop unset c (by omega)
    have hsame := hall s ⟨overlap c, es, hr⟩ _ _ hbarber hclient
    cases hsame
  · intro hn s hr
    have hout : ∀ c, ¬ Inside s (.client c) := by
      intro c hc
      rcases all_idle hn hr c with ⟨hpc, -⟩ | hpc <;>
        simp [Inside, permitsOf, hpc, ClientPc.permits] at hc
    intro p q hp hq
    cases p with
    | barber =>
      cases q with
      | barber => rfl
      | client d => exact absurd hq (hout d)
    | client c => exact absurd hp (hout c)

/-- From the state `main` leaves, a run keeps the processes apart exactly if
nobody takes the semaphore at value one, and all runs do so exactly if no client
wants a shave. -/
theorem exclusive_iff (shop : Shop ι) (unset : ℤ) :
    (∀ as s es, run (machine shop) as (main shop unset) = some (s, es) →
      (Throughout (machine shop) Exclusive (main shop unset) as ↔
        Meets (machine shop) TakesFromTwo (main shop unset) as)) ∧
    ((∀ s, Reachable (machine shop) (main shop unset) s → Exclusive s) ↔
      ∀ c, shop.numberOfShaves c ≤ 0) :=
  ⟨fun as s es hr => run_exclusive_iff shop unset as s es hr, always_exclusive_iff shop unset⟩

/-- One client suffices: it enters while the barber is inside. -/
theorem barber_and_client_inside : ∃ s es,
    run (machine (smallShop 1)) (overlap ()) (main (smallShop 1) 0) = some (s, es) ∧
    Inside s .barber ∧ Inside s (.client ()) ∧ ¬ Exclusive s := by
  refine ⟨_, _, rfl, rfl, rfl, ?_⟩
  intro h
  have hsame := h .barber (.client ()) rfl rfl
  cases hsame

theorem exclusive_iff_small :
    (∃ s es, run (machine (smallShop 1)) (overlap ()) (main (smallShop 1) 0) = some (s, es)) ∧
    (Throughout (machine (smallShop 1)) Exclusive (main (smallShop 1) 0) (overlap ()) ↔
      Meets (machine (smallShop 1)) TakesFromTwo (main (smallShop 1) 0) (overlap ())) := by
  have hr : run (machine (smallShop 1)) (overlap ()) (main (smallShop 1) 0) = some (_, _) := rfl
  exact ⟨⟨_, _, hr⟩, (exclusive_iff (smallShop 1) 0).1 _ _ _ hr⟩

end Semestr4.BarberSemaphore
