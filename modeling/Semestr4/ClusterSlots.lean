import Mathlib.Logic.Function.Basic
import Semestr4.ClusterServer
import Semestr4.ScheduledRun

/-!
# Registrations and removals by two threads

The monitor writes the three fields of a slot that it found free, while another
thread pings the clients and clears the fields of those that do not answer.
Nothing keeps the two apart, so each assignment is a step of its own.
-/

set_option autoImplicit false

namespace Semestr4.ClusterSlots
open Semestr4.ByteText Semestr4.ClusterServer Semestr4.ScheduledRun

/-- A connection that asks to register. An empty name is not one: the server
reads it through a null pointer and ends. -/
structure Request where
  name : Text
  clientFD : ℕ
  named : name ≠ []
  deriving DecidableEq

inductive Field where
  | name
  | fd
  | num
  deriving DecidableEq, Repr

inductive Monitor where
  | idle
  /-- compare with the name of slot `j` -/
  | scan (client : Request) (j : ℕ) (flag : Bool)
  /-- look whether slot `j` is free -/
  | find (client : Request) (j : ℕ)
  | assign (field : Field) (client : Request) (j : ℕ)
  | count
  deriving DecidableEq

inductive Ping where
  | test (i : ℕ)
  | clear (field : Field) (i : ℕ)
  deriving DecidableEq, Repr

structure State where
  clients : ℕ → Node
  numOfClients : ℕ
  monitor : Monitor
  ping : Ping

inductive Choice where
  | request (client : Request)
  | monitor
  /-- `failed`: the ping could not be sent -/
  | ping (failed : Bool)
  deriving DecidableEq

inductive Event where
  | registered (j : ℕ) (node : Node)
  deriving DecidableEq

def initial : State := ⟨fun _ => free, 0, .idle, .test 0⟩

def State.set (s : State) (j : ℕ) (node : Node) : State :=
  { s with clients := Function.update s.clients j node }

def Request.node (client : Request) (num : ℕ) : Node := ⟨client.name, client.clientFD, num⟩

def monitor (s : State) : Option (State × List Event) :=
  match s.monitor with
  | .idle => none
  | .scan client j flag =>
    some ({ s with
      monitor :=
        if j < clusterSize then .scan client (j+1) (flag && (s.clients j).name ≠ client.name)
        else if flag then .find client 0
        else .idle }, [])
  | .find client j =>
    some ({ s with
      monitor :=
        if j < clusterSize then
          if (s.clients j).fd = -1 then .assign .name client j else .find client (j+1)
        else .count }, [])
  | .assign .name client j =>
    some ({ s.set j { s.clients j with name := client.name } with
      monitor := .assign .fd client j }, [])
  | .assign .fd client j =>
    some ({ s.set j { s.clients j with fd := client.clientFD } with
      monitor := .assign .num client j }, [])
  | .assign .num client j =>
    some ({ s.set j { s.clients j with num := s.numOfClients } with
      monitor := .count }, [.registered j (client.node s.numOfClients)])
  | .count => some ({ s with numOfClients := s.numOfClients+1, monitor := .idle }, [])

def ping (s : State) (failed : Bool) : State :=
  match s.ping with
  | .test i =>
    { s with
      ping :=
        if i < clusterSize then
          if (s.clients i).fd ≠ -1 ∧ failed then .clear .fd i else .test (i+1)
        else .test 0 }
  | .clear .fd i =>
    { s.set i { s.clients i with fd := -1 } with ping := .clear .name i }
  | .clear .name i =>
    { s.set i { s.clients i with name := [] } with ping := .clear .num i }
  | .clear .num i =>
    { s.set i { s.clients i with num := -1 } with ping := .test (i+1) }

def step : Step State Choice Event
  | s, .request client =>
    if s.monitor = .idle then some ({ s with monitor := .scan client 0 true }, []) else none
  | s, .monitor => monitor s
  | s, .ping failed => some (ping s failed, [])

/-- The monitor does not write a name that is about to be cleared. It writes a
number in a slot that is in use and stays so, or that is being cleared with its
descriptor cleared already. -/
def Apart (s : State) : Choice → Prop
  | .monitor => match s.monitor with
    | .assign .name _ j => s.ping ≠ .clear .name j
    | .assign .num _ j =>
      (s.clients j).fd = -1 ↔ s.ping = .clear .name j ∨ s.ping = .clear .num j
    | _ => True
  | _ => True

def last (es : List Event) (j : ℕ) : Option Node :=
  (es.filterMap fun
    | .registered i node => if i = j then some node else none).getLast?

def State.Outside (s : State) : Prop :=
  (∀ field client j, s.monitor ≠ .assign field client j) ∧ ∀ field i, s.ping ≠ .clear field i

structure Registry (es : List Event) (s : State) : Prop where
  used : ∀ j < clusterSize, (s.clients j).fd ≠ -1 →
    (s.clients j).name ≠ [] ∧ 0 ≤ (s.clients j).num ∧ last es j = some (s.clients j)
  free : ∀ j < clusterSize, (s.clients j).fd = -1 →
    (s.clients j).name = [] ∧ (s.clients j).num = -1
  names : ∀ i < clusterSize, ∀ j < clusterSize, (s.clients i).fd ≠ -1 → (s.clients j).fd ≠ -1 →
    (s.clients i).name = (s.clients j).name → i = j

def Monitor.on : Monitor → ℕ → Option (Field × Request)
  | .assign field client i, j => if i = j then some (field, client) else none
  | _, _ => none

def Ping.on : Ping → ℕ → Option Field
  | .clear field i, j => if i = j then some field else none
  | _, _ => none

/-- What a slot holds before the next assignment of each thread to it, if any. -/
def Consistent (registered : Option Node) (node : Node) :
    Option (Field × Request) → Option Field → Prop
  | none, none => node = free ∨
    node.fd ≠ -1 ∧ node.name ≠ [] ∧ 0 ≤ node.num ∧ registered = some node
  | none, some .fd => node.fd ≠ -1
  | none, some .name => node.fd = -1
  | none, some .num => node.fd = -1 ∧ node.name = []
  | some (.name, _), none => node = free
  | some (.name, _), some .fd => False
  | some (.name, _), some .name => node.fd = -1
  | some (.name, _), some .num => node.fd = -1 ∧ node.name = []
  | some (.fd, client), none => node = ⟨client.name, -1, -1⟩
  | some (.fd, client), some .num => node.fd = -1 ∧ node.name = client.name
  | some (.fd, _), some _ => False
  | some (.num, client), none => node = free ∨ node = ⟨client.name, client.clientFD, -1⟩
  | some (.num, client), some .fd => node.fd = client.clientFD ∧ node.name = client.name
  | some (.num, _), some .name => node.fd = -1
  | some (.num, client), some .num => node.fd = -1 ∧ node.name = [] ∨
    node.fd = client.clientFD ∧ node.name = client.name

section Slot
variable {registered : Option Node} {node : Node} {client : Request}
  {monitor : Option (Field × Request)} {ping : Option Field}

theorem descriptor_ne (client : Request) : (client.clientFD : ℤ) ≠ -1 := by omega

theorem Consistent.claim (h : Consistent registered node none ping) (hfd : node.fd = -1) :
    Consistent registered node (some (.name, client)) ping := by
  match ping, h with
  | none, h => exact h.resolve_right (fun hused => hused.1 hfd)
  | some .fd, h => exact h hfd
  | some .name, h => exact h
  | some .num, h => exact h

theorem Consistent.assignName (h : Consistent registered node (some (.name, client)) ping)
    (hping : ping ≠ some .name) :
    Consistent registered { node with name := client.name } (some (.fd, client)) ping := by
  match ping, h with
  | none, h =>
    subst h
    rfl
  | some .name, _ => exact hping rfl
  | some .num, h => exact ⟨h.1, rfl⟩

theorem Consistent.assignFd (h : Consistent registered node (some (.fd, client)) ping) :
    Consistent registered { node with fd := client.clientFD } (some (.num, client)) ping := by
  match ping, h with
  | none, h =>
    subst h
    exact Or.inr rfl
  | some .num, h => exact Or.inr ⟨rfl, h.2⟩

theorem Consistent.assignNum (h : Consistent registered node (some (.num, client)) ping)
    (hfd : node.fd = -1 ↔ ping = some .name ∨ ping = some .num) (num : ℕ) :
    Consistent (some (client.node num)) { node with num := num } none ping := by
  match ping, h with
  | none, h =>
    rcases h with rfl | rfl
    · simp [free] at hfd
    · exact Or.inr ⟨descriptor_ne client, client.named, Int.natCast_nonneg num, rfl⟩
  | some .fd, h =>
    change node.fd ≠ -1
    rw [h.1]
    exact descriptor_ne client
  | some .name, h => exact h
  | some .num, h =>
    have hcleared : node.fd = -1 := hfd.mpr (Or.inr rfl)
    rcases h with h | ⟨h, -⟩
    · exact h
    · exact absurd (h.symm.trans hcleared) (descriptor_ne client)

theorem Consistent.fail (h : Consistent registered node monitor none) (hfd : node.fd ≠ -1) :
    Consistent registered node monitor (some .fd) := by
  match monitor, h with
  | none, _ => exact hfd
  | some (.name, _), h =>
    subst h
    exact hfd rfl
  | some (.fd, _), h =>
    subst h
    exact hfd rfl
  | some (.num, _), h =>
    rcases h with rfl | rfl
    · exact absurd rfl hfd
    · exact ⟨rfl, rfl⟩

theorem Consistent.clearFd (h : Consistent registered node monitor (some .fd)) :
    Consistent registered { node with fd := -1 } monitor (some .name) := by
  match monitor, h with
  | none, _ => rfl
  | some (.num, _), _ => rfl

theorem Consistent.clearName (h : Consistent registered node monitor (some .name)) :
    Consistent registered { node with name := [] } monitor (some .num) := by
  match monitor, h with
  | none, h => exact ⟨h, rfl⟩
  | some (.name, _), h => exact ⟨h, rfl⟩
  | some (.num, _), h => exact Or.inl ⟨h, rfl⟩

theorem Consistent.clearNum (h : Consistent registered node monitor (some .num)) :
    Consistent registered { node with num := -1 } monitor none := by
  obtain ⟨name, fd, num⟩ := node
  match monitor, h with
  | none, h =>
    obtain ⟨rfl, rfl⟩ := h
    exact Or.inl rfl
  | some (.name, _), h =>
    obtain ⟨rfl, rfl⟩ := h
    rfl
  | some (.fd, _), h =>
    obtain ⟨rfl, rfl⟩ := h
    rfl
  | some (.num, _), h =>
    rcases h with ⟨rfl, rfl⟩ | ⟨rfl, rfl⟩
    · exact Or.inl rfl
    · exact Or.inr rfl

end Slot

def Slot (es : List Event) (s : State) (j : ℕ) : Prop :=
  Consistent (last es j) (s.clients j) (s.monitor.on j) (s.ping.on j)

/-- The monitor has seen that its name is in no slot, and writes to the table only. -/
def Monitor.Fresh (clients : ℕ → Node) : Monitor → Prop
  | .scan client j flag => flag = true → ∀ i < j, (clients i).name ≠ client.name
  | .find client _ => ∀ i < clusterSize, (clients i).name ≠ client.name
  | .assign .name client j =>
    j < clusterSize ∧ ∀ i < clusterSize, (clients i).name ≠ client.name
  | .assign _ _ j => j < clusterSize
  | _ => True

def Distinct (clients : ℕ → Node) : Prop :=
  ∀ i < clusterSize, ∀ j < clusterSize, (clients i).name = (clients j).name →
    (clients i).name ≠ [] → i = j

structure Invariant (es : List Event) (s : State) : Prop where
  slot : ∀ j, Slot es s j
  fresh : s.monitor.Fresh s.clients
  names : Distinct s.clients

@[simp] theorem set_same (s : State) (j : ℕ) (node : Node) : (s.set j node).clients j = node :=
  Function.update_self ..

theorem set_other (s : State) {i j : ℕ} (node : Node) (h : i ≠ j) :
    (s.set j node).clients i = s.clients i :=
  Function.update_of_ne h ..

@[simp] theorem set_monitor (s : State) (j : ℕ) (node : Node) :
    (s.set j node).monitor = s.monitor := rfl

@[simp] theorem set_ping (s : State) (j : ℕ) (node : Node) : (s.set j node).ping = s.ping := rfl

@[simp] theorem assign_on_same (field : Field) (client : Request) (j : ℕ) :
    (Monitor.assign field client j).on j = some (field, client) := if_pos rfl

theorem assign_on_other (field : Field) (client : Request) {i j : ℕ} (h : i ≠ j) :
    (Monitor.assign field client j).on i = none := if_neg (Ne.symm h)

@[simp] theorem clear_on_same (field : Field) (i : ℕ) :
    (Ping.clear field i).on i = some field := if_pos rfl

theorem clear_on_other (field : Field) {i j : ℕ} (h : i ≠ j) :
    (Ping.clear field j).on i = none := if_neg (Ne.symm h)

theorem clear_on_iff {ping : Ping} {field : Field} {j : ℕ} :
    ping.on j = some field ↔ ping = .clear field j := by
  cases ping with
  | test i => simp [Ping.on]
  | clear f i =>
    simp only [Ping.on, Option.ite_none_right_eq_some, Option.some.injEq, Ping.clear.injEq]
    exact And.comm

theorem last_snoc (es : List Event) (i j : ℕ) (node : Node) :
    last (es++[.registered i node]) j = if i = j then some node else last es j := by
  unfold last
  by_cases h : i = j
  · simp [h]
  · simp [h]

theorem slots_of {es es' : List Event} {s t : State} (j : ℕ) (hi : ∀ i, Slot es s i)
    (hj : Slot es' t j)
    (hother : ∀ i, i ≠ j → last es' i = last es i ∧ t.clients i = s.clients i ∧
      t.monitor.on i = s.monitor.on i ∧ t.ping.on i = s.ping.on i) (i : ℕ) :
    Slot es' t i := by
  by_cases h : i = j
  · rwa [h]
  · obtain ⟨hlast, hclients, hmonitor, hping⟩ := hother i h
    rw [Slot, hlast, hclients, hmonitor, hping]
    exact hi i

theorem Distinct.assign {clients : ℕ → Node} (h : Distinct clients) {j : ℕ} {node : Node}
    (hname : j < clusterSize → ∀ i < clusterSize, i ≠ j → (clients i).name = node.name →
      node.name = []) :
    Distinct (Function.update clients j node) := by
  intro i hi k hk heq hne
  by_cases hij : i = j
  · by_cases hkj : k = j
    · rw [hij, hkj]
    · subst hij
      rw [Function.update_self] at heq hne
      rw [Function.update_of_ne hkj] at heq
      exact absurd (hname hi k hk hkj heq.symm) hne
  · rw [Function.update_of_ne hij] at heq hne
    by_cases hkj : k = j
    · subst hkj
      rw [Function.update_self] at heq
      exact absurd (heq ▸ hname hk i hi hij heq) hne
    · rw [Function.update_of_ne hkj] at heq
      exact h i hi k hk heq hne

theorem Distinct.keep {clients : ℕ → Node} (h : Distinct clients) {j : ℕ} {node : Node}
    (hnode : node.name = (clients j).name ∨ node.name = []) :
    Distinct (Function.update clients j node) := by
  refine h.assign (fun hj i hi hij heq => ?_)
  rcases hnode with hnode | hnode
  · by_contra hne
    rw [hnode] at heq
    exact hij (h i hi j hj heq (by rwa [heq, ← hnode]))
  · exact hnode

theorem Monitor.Fresh.mono {clients clients' : ℕ → Node} {monitor : Monitor}
    (h : monitor.Fresh clients)
    (hname : ∀ i, (clients' i).name = (clients i).name ∨ (clients' i).name = []) :
    monitor.Fresh clients' := by
  have hother : ∀ (client : Request) i, (clients i).name ≠ client.name →
      (clients' i).name ≠ client.name := by
    intro client i hi
    rcases hname i with heq | heq
    · rwa [heq]
    · rw [heq]
      exact Ne.symm client.named
  match monitor, h with
  | .idle, _ => trivial
  | .scan client j flag, h => exact fun hflag i hij => hother client i (h hflag i hij)
  | .find client j, h => exact fun i hi => hother client i (h i hi)
  | .assign .name client j, h => exact ⟨h.1, fun i hi => hother client i (h.2 i hi)⟩
  | .assign .fd _ _, h => exact h
  | .assign .num _ _, h => exact h
  | .count, _ => trivial

theorem Monitor.Fresh.set {s : State} {monitor : Monitor} (h : monitor.Fresh s.clients) {i : ℕ}
    {node : Node} (hnode : node.name = (s.clients i).name ∨ node.name = []) :
    monitor.Fresh (s.set i node).clients := by
  refine h.mono (fun j => ?_)
  by_cases hj : j = i
  · subst hj
    rwa [set_same]
  · exact Or.inl (congrArg Node.name (set_other s node hj))

theorem initial_invariant : Invariant [] initial := by
  refine ⟨fun j => Or.inl rfl, trivial, ?_⟩
  intro i _ j _ _ hne
  exact absurd rfl hne

theorem test_invariant {s : State} {es : List Event} {i : ℕ} {failed : Bool}
    (hi : Invariant es s) (hpc : s.ping = .test i) : Invariant es (ping s failed) := by
  have hstill : ∀ k, Invariant es { s with ping := .test k } := by
    intro k
    refine ⟨fun j => ?_, hi.fresh, hi.names⟩
    have hslot := hi.slot j
    rwa [Slot, hpc] at hslot
  simp only [ping, hpc]
  split
  · split
    · rename_i hfails
      refine ⟨fun j => ?_, hi.fresh, hi.names⟩
      have hslot := hi.slot j
      rw [Slot, hpc] at hslot
      by_cases hj : j = i
      · subst hj
        rw [Slot, clear_on_same]
        exact hslot.fail hfails.1
      · rw [Slot, clear_on_other _ hj]
        exact hslot
    · exact hstill _
  · exact hstill _

theorem clear_invariant {s : State} {es : List Event} {field : Field} {i : ℕ} {node : Node}
    {next : Ping} (hi : Invariant es s) (hpc : s.ping = .clear field i)
    (hnode : node.name = (s.clients i).name ∨ node.name = [])
    (hnext : ∀ j, j ≠ i → next.on j = none)
    (hslot : Consistent (last es i) node (s.monitor.on i) (next.on i)) :
    Invariant es { s.set i node with ping := next } := by
  refine ⟨slots_of i hi.slot ?_ (fun j hj => ?_), hi.fresh.set hnode, hi.names.keep hnode⟩
  · simpa only [Slot, set_same, set_monitor] using hslot
  · refine ⟨rfl, set_other s node hj, rfl, ?_⟩
    rw [hpc, clear_on_other field hj]
    exact hnext j hj

theorem ping_invariant {s : State} {es : List Event} {failed : Bool} (hi : Invariant es s) :
    Invariant es (ping s failed) := by
  cases hpc : s.ping with
  | test i => exact test_invariant hi hpc
  | clear field i =>
    have hslot := hi.slot i
    rw [Slot, hpc, clear_on_same] at hslot
    cases field with
    | fd =>
      simp only [ping, hpc]
      refine clear_invariant hi hpc (Or.inl rfl) (fun j hj => clear_on_other _ hj) ?_
      rw [clear_on_same]
      exact hslot.clearFd
    | name =>
      simp only [ping, hpc]
      refine clear_invariant hi hpc (Or.inr rfl) (fun j hj => clear_on_other _ hj) ?_
      rw [clear_on_same]
      exact hslot.clearName
    | num =>
      simp only [ping, hpc]
      exact clear_invariant hi hpc (Or.inl rfl) (fun j hj => rfl) hslot.clearNum

theorem scan_invariant {s : State} {es : List Event} {client : Request} {j : ℕ} {flag : Bool}
    (hi : Invariant es s) (hpc : s.monitor = .scan client j flag) :
    Invariant es { s with
      monitor :=
        if j < clusterSize then .scan client (j+1) (flag && (s.clients j).name ≠ client.name)
        else if flag then .find client 0
        else .idle } := by
  have hslot : ∀ i next, next.on i = none → Slot es { s with monitor := next } i := by
    intro i next hnext
    have hold := hi.slot i
    rw [Slot, hpc] at hold
    rwa [Slot, hnext]
  have hfresh := hi.fresh
  rw [hpc] at hfresh
  split
  · refine ⟨fun i => hslot i _ rfl, ?_, hi.names⟩
    intro hflag i hij
    obtain ⟨hflag, hne⟩ := Bool.and_eq_true_iff.mp hflag
    rcases Nat.lt_succ_iff_lt_or_eq.mp hij with hij | rfl
    · exact hfresh hflag i hij
    · exact of_decide_eq_true hne
  · rename_i hj
    split
    · rename_i hflag
      exact ⟨fun i => hslot i _ rfl, fun i hi' => hfresh hflag i (by omega), hi.names⟩
    · exact ⟨fun i => hslot i _ rfl, trivial, hi.names⟩

theorem find_invariant {s : State} {es : List Event} {client : Request} {j : ℕ}
    (hi : Invariant es s) (hpc : s.monitor = .find client j) :
    Invariant es { s with
      monitor :=
        if j < clusterSize then
          if (s.clients j).fd = -1 then .assign .name client j else .find client (j+1)
        else .count } := by
  have hslot : ∀ i, Consistent (last es i) (s.clients i) none (s.ping.on i) := by
    intro i
    have hold := hi.slot i
    rwa [Slot, hpc] at hold
  have hfresh := hi.fresh
  rw [hpc] at hfresh
  split
  · split
    · rename_i hj hfd
      refine ⟨fun i => ?_, ⟨hj, hfresh⟩, hi.names⟩
      by_cases hij : i = j
      · subst hij
        rw [Slot, assign_on_same]
        exact (hslot i).claim hfd
      · rw [Slot, assign_on_other _ _ hij]
        exact hslot i
    · exact ⟨hslot, hfresh, hi.names⟩
  · exact ⟨hslot, trivial, hi.names⟩

theorem assign_invariant {s : State} {es fs : List Event} {field : Field} {client : Request}
    {j : ℕ} {node : Node} {next : Monitor} (hi : Invariant es s)
    (hpc : s.monitor = .assign field client j) (hnext : ∀ i, i ≠ j → next.on i = none)
    (hlast : ∀ i, i ≠ j → last (es++fs) i = last es i)
    (hslot : Consistent (last (es++fs) j) node (next.on j) (s.ping.on j))
    (hfresh : ∀ clients, next.Fresh clients)
    (hnames : Distinct (Function.update s.clients j node)) :
    Invariant (es++fs) { s.set j node with monitor := next } := by
  refine ⟨slots_of j hi.slot ?_ (fun i hij => ?_), hfresh _, hnames⟩
  · simpa only [Slot, set_same, set_ping] using hslot
  · refine ⟨hlast i hij, set_other s node hij, ?_, rfl⟩
    rw [hpc, assign_on_other field client hij]
    exact hnext i hij

theorem monitor_invariant {s t : State} {es fs : List Event} (hi : Invariant es s)
    (hC : Apart s .monitor) (hs : monitor s = some (t, fs)) : Invariant (es++fs) t := by
  cases hpc : s.monitor with
  | idle => simp [monitor, hpc] at hs
  | scan client j flag =>
    simp only [monitor, hpc] at hs
    cases hs
    rw [List.append_nil]
    exact scan_invariant hi hpc
  | find client j =>
    simp only [monitor, hpc] at hs
    cases hs
    rw [List.append_nil]
    exact find_invariant hi hpc
  | assign field client j =>
    have hslot := hi.slot j
    have hfresh := hi.fresh
    rw [Slot, hpc, assign_on_same] at hslot
    rw [hpc] at hfresh
    simp only [Apart, hpc] at hC
    cases field with
    | name =>
      simp only [monitor, hpc] at hs
      cases hs
      refine assign_invariant hi hpc (fun i hij => assign_on_other _ _ hij)
        (fun i _ => by rw [List.append_nil]) ?_ (fun _ => hfresh.1)
        (hi.names.assign (fun _ i hi' _ heq => absurd heq (hfresh.2 i hi')))
      rw [assign_on_same, List.append_nil]
      exact hslot.assignName (fun hping => hC (clear_on_iff.mp hping))
    | fd =>
      simp only [monitor, hpc] at hs
      cases hs
      refine assign_invariant hi hpc (fun i hij => assign_on_other _ _ hij)
        (fun i _ => by rw [List.append_nil]) ?_ (fun _ => hfresh) (hi.names.keep (Or.inl rfl))
      rw [assign_on_same, List.append_nil]
      exact hslot.assignFd
    | num =>
      simp only [monitor, hpc] at hs
      cases hs
      refine assign_invariant hi hpc (fun i _ => rfl)
        (fun i hij => by rw [last_snoc, if_neg (Ne.symm hij)]) ?_ (fun _ => trivial)
        (hi.names.keep (Or.inl rfl))
      rw [last_snoc, if_pos rfl]
      refine hslot.assignNum ?_ _
      rwa [clear_on_iff, clear_on_iff]
  | count =>
    simp only [monitor, hpc] at hs
    cases hs
    rw [List.append_nil]
    refine ⟨fun j => ?_, trivial, hi.names⟩
    have hslot := hi.slot j
    rwa [Slot, hpc] at hslot

theorem step_invariant {s t : State} {choice : Choice} {es fs : List Event} (hi : Invariant es s)
    (hC : Apart s choice) (hs : step s choice = some (t, fs)) : Invariant (es++fs) t := by
  cases choice with
  | request client =>
    simp only [step, Option.ite_none_right_eq_some, Option.some.injEq, Prod.mk.injEq] at hs
    obtain ⟨hpc, rfl, rfl⟩ := hs
    rw [List.append_nil]
    refine ⟨fun j => ?_, fun _ i hij => absurd hij (Nat.not_lt_zero i), hi.names⟩
    have hslot := hi.slot j
    rwa [Slot, hpc] at hslot
  | monitor => exact monitor_invariant hi hC hs
  | ping failed =>
    simp only [step, Option.some.injEq, Prod.mk.injEq] at hs
    obtain ⟨rfl, rfl⟩ := hs
    rw [List.append_nil]
    exact ping_invariant hi

theorem outside_of {s : State} {i : ℕ} (hmonitor : s.monitor = .idle) (hping : s.ping = .test i) :
    s.Outside := by
  constructor
  · intro field client j h
    rw [hmonitor] at h
    cases h
  · intro field i h
    rw [hping] at h
    cases h

theorem Invariant.registry {es : List Event} {s : State} (hi : Invariant es s)
    (h : s.Outside) : Registry es s := by
  have hmonitor : ∀ j, s.monitor.on j = none := by
    intro j
    cases hpc : s.monitor with
    | assign field client i => exact absurd hpc (h.1 field client i)
    | _ => rfl
  have hping : ∀ j, s.ping.on j = none := by
    intro j
    cases hpc : s.ping with
    | test i => rfl
    | clear field i => exact absurd hpc (h.2 field i)
  have hslot : ∀ j, s.clients j = ClusterServer.free ∨ (s.clients j).fd ≠ -1 ∧
      (s.clients j).name ≠ [] ∧ 0 ≤ (s.clients j).num ∧ last es j = some (s.clients j) := by
    intro j
    have hslot := hi.slot j
    rwa [Slot, hmonitor, hping] at hslot
  have hused : ∀ j, (s.clients j).fd ≠ -1 → (s.clients j).name ≠ [] ∧ 0 ≤ (s.clients j).num ∧
      last es j = some (s.clients j) := by
    intro j hfd
    exact ((hslot j).resolve_left (fun hfree => hfd (congrArg Node.fd hfree))).2
  refine ⟨fun j _ hfd => hused j hfd, fun j _ hfd => ?_, fun i hi' j hj hfdi _ heq => ?_⟩
  · have hfree := (hslot j).resolve_right (fun hu => hu.1 hfd)
    rw [hfree]
    exact ⟨rfl, rfl⟩
  · exact hi.names i hi' j hj heq (hused i hfdi).1

/-- The table holds what was registered, as long as no assignment of the monitor
is undone or left over by the other thread. -/
theorem registry_kept {as : List Choice} (hC : Meets step Apart initial as) {s : State}
    {es : List Event} (hr : run step as initial = some (s, es)) (h : s.Outside) :
    Registry es s :=
  (run_induction_meets step Apart initial Invariant initial_invariant
    (fun _ _ _ _ _ hi hC hs => step_invariant hi hC hs) as hC s es hr).registry h

instance : (s : State) → (choice : Choice) → Decidable (Apart s choice)
  | _, .request _ => inferInstanceAs (Decidable True)
  | _, .ping _ => inferInstanceAs (Decidable True)
  | ⟨_, _, .assign .name _ j, p⟩, .monitor => inferInstanceAs (Decidable (p ≠ .clear .name j))
  | ⟨clients, _, .assign .num _ j, p⟩, .monitor => inferInstanceAs (Decidable
      ((clients j).fd = -1 ↔ p = .clear .name j ∨ p = .clear .num j))
  | ⟨_, _, .assign .fd _ _, _⟩, .monitor => inferInstanceAs (Decidable True)
  | ⟨_, _, .idle, _⟩, .monitor => inferInstanceAs (Decidable True)
  | ⟨_, _, .scan _ _ _, _⟩, .monitor => inferInstanceAs (Decidable True)
  | ⟨_, _, .find _ _, _⟩, .monitor => inferInstanceAs (Decidable True)
  | ⟨_, _, .count, _⟩, .monitor => inferInstanceAs (Decidable True)

def registerFirst : List Choice :=
  .request ⟨[97], 5, by decide⟩::List.replicate 26 .monitor

def thenRemoved : List Choice := registerFirst++[.ping true, .ping false, .ping false, .ping false]

theorem registry_kept_removed : ∃ s es, run step thenRemoved initial = some (s, es) ∧
    Registry es s := by
  have hr : run step thenRemoved initial = some (_, _) := rfl
  exact ⟨_, _, hr, registry_kept (by decide) hr (outside_of rfl rfl)⟩

/-- The second client finds the slot while it is being cleared. -/
theorem name_cleared : ¬ ∀ (as : List Choice) (s : State) (es : List Event),
    run step as initial = some (s, es) → s.Outside → Registry es s := by
  intro h
  have hr : run step (registerFirst++[.ping true, .ping false]++
      .request ⟨[98], 6, by decide⟩::List.replicate 23 .monitor++
      [.ping false, .ping false, .monitor, .monitor, .monitor]) initial = some (_, _) := rfl
  have hregistry := h _ _ _ hr (outside_of rfl rfl)
  exact (hregistry.used 0 (by decide) (by decide)).1 rfl

def Ends (s : State) : Prop :=
  ∃ bs u, run step bs s = some (u, []) ∧ u.monitor = s.monitor ∧ (∃ i, u.ping = .test i) ∧
    ∀ j, s.ping.on j = none → u.clients j = s.clients j

theorem ping_on_other {s : State} {field : Field} {i j : ℕ} (hpc : s.ping = .clear field i)
    (h : j ≠ i) : (ping s false).clients j = s.clients j ∧ (ping s false).ping.on j = none := by
  cases field <;> simp only [ping, hpc] <;> exact ⟨set_other s _ h, by simp [Ping.on, Ne.symm h]⟩

theorem ping_monitor (s : State) : (ping s false).monitor = s.monitor := by
  unfold ping
  split <;> rfl

theorem Ends.step {s : State} {field : Field} {i : ℕ} (hpc : s.ping = .clear field i)
    (h : Ends (ClusterSlots.ping s false)) : Ends s := by
  obtain ⟨bs, u, hr, hmonitor, htest, hclients⟩ := h
  refine ⟨.ping false::bs, u, run_cons.mpr ⟨_, [], [], rfl, hr, rfl⟩,
    hmonitor.trans (ping_monitor s), htest, fun j hj => ?_⟩
  have hji : j ≠ i := by
    rintro rfl
    rw [hpc, clear_on_same] at hj
    cases hj
  obtain ⟨hsame, hnone⟩ := ping_on_other hpc hji
  rw [hclients j hnone, hsame]

theorem ends (s : State) : Ends s := by
  have htest : ∀ s i, s.ping = .test i → Ends s := fun s i hpc =>
    ⟨[], s, rfl, rfl, ⟨i, hpc⟩, fun _ _ => rfl⟩
  have hnum : ∀ s i, s.ping = .clear .num i → Ends s := fun s i hpc =>
    (htest _ (i+1) (by simp only [ping, hpc])).step hpc
  have hname : ∀ s i, s.ping = .clear .name i → Ends s := fun s i hpc =>
    (hnum _ i (by simp only [ping, hpc])).step hpc
  cases hpc : s.ping with
  | test i => exact htest s i hpc
  | clear field i =>
    cases field with
    | num => exact hnum s i hpc
    | name => exact hname s i hpc
    | fd => exact (hname _ i (by simp only [ping, hpc])).step hpc

theorem name_lost {s : State} {client : Request} {j : ℕ} (es : List Event) (hj : j < clusterSize)
    (hmonitor : s.monitor = .assign .fd client j) (hping : s.ping = .clear .name j) :
    ∃ bs u gs, run step bs s = some (u, gs) ∧ u.Outside ∧ ¬ Registry (es++gs) u := by
  obtain ⟨clients, numOfClients, m, p⟩ := s
  subst hmonitor hping
  refine ⟨[.ping false, .ping false, .monitor, .monitor], _, _, rfl, ⟨?_, ?_⟩, fun h => ?_⟩
  · intro field client' i heq
    cases heq
  · intro field i heq
    cases heq
  · have hused := h.used j hj
    simp [ping, State.set] at hused

theorem number_left {s : State} {j : ℕ} (es : List Event) (hj : j < clusterSize)
    (hmonitor : s.monitor = .count) (hping : s.ping.on j = none) (hfd : (s.clients j).fd = -1)
    (hnum : (s.clients j).num ≠ -1) :
    ∃ bs u gs, run step bs s = some (u, gs) ∧ u.Outside ∧ ¬ Registry (es++gs) u := by
  obtain ⟨bs, u, hr, hsame, ⟨i, htest⟩, hclients⟩ := ends s
  refine ⟨bs, u, [], hr, ⟨?_, ?_⟩, fun h => ?_⟩
  · intro field client k heq
    rw [hsame, hmonitor] at heq
    cases heq
  · intro field k heq
    rw [htest] at heq
    cases heq
  · have hfree := h.free j hj
    rw [hclients j hping] at hfree
    exact hnum (hfree hfd).2

theorem number_lost {s : State} {j : ℕ} (es : List Event) (hj : j < clusterSize)
    (hmonitor : s.monitor = .count) (hping : s.ping = .clear .num j)
    (hfd : (s.clients j).fd ≠ -1) :
    ∃ bs u gs, run step bs s = some (u, gs) ∧ u.Outside ∧ ¬ Registry (es++gs) u := by
  obtain ⟨clients, numOfClients, m, p⟩ := s
  subst hmonitor hping
  refine ⟨[.ping false], _, _, rfl, ⟨?_, ?_⟩, fun h => ?_⟩
  · intro field client i heq
    cases heq
  · intro field i heq
    cases heq
  · have hused := h.used j hj
    simp [ping, State.set] at hused
    exact hfd hused

/-- After a step against the condition the threads can end what they do with a
wrong table. -/
theorem registry_lost {s t : State} {choice : Choice} {es fs : List Event} (hi : Invariant es s)
    (hC : ¬ Apart s choice) (hs : step s choice = some (t, fs)) :
    ∃ bs u gs, run step bs t = some (u, gs) ∧ u.Outside ∧ ¬ Registry (es++fs++gs) u := by
  cases choice with
  | request client => exact absurd trivial hC
  | ping failed => exact absurd trivial hC
  | monitor =>
    cases hpc : s.monitor with
    | idle => simp [Apart, hpc] at hC
    | scan client j flag => simp [Apart, hpc] at hC
    | find client j => simp [Apart, hpc] at hC
    | count => simp [Apart, hpc] at hC
    | assign field client j =>
      have hslot := hi.slot j
      have hfresh := hi.fresh
      rw [Slot, hpc, assign_on_same] at hslot
      rw [hpc] at hfresh
      simp only [Apart, hpc] at hC
      simp only [step, monitor, hpc] at hs
      cases field with
      | fd => exact absurd trivial hC
      | name =>
        cases hs
        exact name_lost _ hfresh.1 rfl (not_not.mp hC)
      | num =>
        cases hs
        by_cases hfd : (s.clients j).fd = -1
        · have hnone : s.ping.on j = none := by
            rcases hon : s.ping.on j with _ | field
            · rfl
            rw [hon] at hslot
            rw [clear_on_iff] at hon
            cases field with
            | fd => exact absurd (hslot.1.symm.trans hfd) (descriptor_ne client)
            | name => exact absurd (iff_of_true hfd (Or.inl hon)) hC
            | num => exact absurd (iff_of_true hfd (Or.inr hon)) hC
          refine number_left _ hfresh rfl hnone ?_ ?_
          · simpa using hfd
          · simp
        · have hping : s.ping = .clear .num j := by
            have hclearing : s.ping = .clear .name j ∨ s.ping = .clear .num j := by
              by_contra h
              exact hC (iff_of_false hfd h)
            refine hclearing.resolve_left (fun h => ?_)
            rw [h, clear_on_same] at hslot
            exact hfd hslot
          exact number_lost _ hfresh rfl hping (by simpa using hfd)

end Semestr4.ClusterSlots
