import Mathlib.Data.Finset.Insert
import Mathlib.Data.Finset.Erase
import Semestr4.DecimalText

/-!
# The server of the cluster

The table has one slot for each of at most twenty nodes. A connection that asks
to register is refused when its name is in the table. Otherwise it is accepted,
with the first free slot if there is one. A slot is freed when a ping cannot be
sent. A new connection gets a descriptor that is not open.
-/

set_option autoImplicit false

namespace Semestr4.ClusterServer
open Semestr4.ByteText

structure Node where
  name : Text
  fd : ℤ
  num : ℤ
  deriving DecidableEq

structure Server where
  clients : List Node
  numOfClients : ℕ
  opened : Finset ℤ

def clusterSize : ℕ := 20

def free : Node := ⟨[], -1, -1⟩

def main (opened : Finset ℤ) : Server := ⟨List.replicate clusterSize free, 0, opened⟩

/-- `1Y` -/
def accepted : Text := [49, 89]

/-- `1N` -/
def refused : Text := [49, 78]

def occupy (clients : List Node) (node : Node) : List Node :=
  match clients.findIdx? (·.fd = -1) with
  | none => clients
  | some j => clients.set j node

/-- A registration, with the answer; a refused connection is closed. -/
def register (s : Server) (clientFD : ℤ) (name : Text) : Server × Text :=
  if s.clients.any (·.name = name) then (s, refused)
  else (⟨occupy s.clients ⟨name, clientFD, s.numOfClients⟩, s.numOfClients+1,
    insert clientFD s.opened⟩, accepted)

def Asks (readBuff : Text) : Prop := readBuff.head? = some 49

instance (readBuff : Text) : Decidable (Asks readBuff) := inferInstanceAs (Decidable (_ = _))

def nameOf (readBuff : Text) : Text := cstring readBuff.tail

/-- A new connection and its first message; other messages than registrations
leave the connection open. -/
def monitor (s : Server) (clientFD : ℤ) (readBuff : Text) : Server :=
  if Asks readBuff then (register s clientFD (nameOf readBuff)).1
  else { s with opened := insert clientFD s.opened }

def ping (s : Server) (i : ℕ) (failed : Bool) : Server :=
  match s.clients[i]? with
  | none => s
  | some node =>
    if node.fd ≠ -1 ∧ failed then
      { s with clients := s.clients.set i free, opened := s.opened.erase node.fd }
    else s

inductive Event where
  | connect (clientFD : ℤ) (readBuff : Text)
  | ping (i : ℕ) (failed : Bool)

def step (s : Server) : Event → Server
  | .connect clientFD readBuff => monitor s clientFD readBuff
  | .ping i failed => ping s i failed

/-- A connection has a new descriptor, and a registration has a name. -/
def Possible (s : Server) : Event → Prop
  | .connect clientFD readBuff =>
    0 ≤ clientFD ∧ clientFD ∉ s.opened ∧ (Asks readBuff → nameOf readBuff ≠ [])
  | .ping i _ => i < clusterSize

instance (s : Server) : (event : Event) → Decidable (Possible s event)
  | .connect clientFD readBuff => inferInstanceAs (Decidable
      (0 ≤ clientFD ∧ clientFD ∉ s.opened ∧ (Asks readBuff → nameOf readBuff ≠ [])))
  | .ping i _ => inferInstanceAs (Decidable (i < clusterSize))

def Allowed : Server → List Event → Prop
  | _, [] => True
  | s, event::events => Possible s event ∧ Allowed (step s event) events

instance decidableAllowed : (s : Server) → (events : List Event) → Decidable (Allowed s events)
  | _, [] => inferInstanceAs (Decidable True)
  | s, event::events =>
    let _ := decidableAllowed (step s event) events
    inferInstanceAs (Decidable (Possible s event ∧ Allowed (step s event) events))

def run (s : Server) (events : List Event) : Server := events.foldl step s

/-- The descriptor of a slot, with -1 past the end of the table as in free slots. -/
def fdAt (clients : List Node) (i : ℕ) : ℤ := (clients[i]?.map Node.fd).getD (-1)

theorem fdAt_some {clients : List Node} {i : ℕ} {node : Node} (h : clients[i]? = some node) :
    fdAt clients i = node.fd := by
  simp [fdAt, h]

theorem fdAt_set (clients : List Node) (i j : ℕ) (node : Node) :
    fdAt (clients.set i node) j =
      if i = j ∧ j < clients.length then node.fd else fdAt clients j := by
  unfold fdAt
  rw [List.getElem?_set]
  by_cases hij : i = j
  · subst hij
    by_cases hi : i < clients.length
    · simp [hi]
    · simp [hi]
  · simp [hij]

structure Sound (s : Server) : Prop where
  opened : ∀ i, fdAt s.clients i ≠ -1 → fdAt s.clients i ∈ s.opened
  own : ∀ i j, fdAt s.clients i = fdAt s.clients j → fdAt s.clients i ≠ -1 → i = j

theorem fdAt_main (opened : Finset ℤ) (i : ℕ) : fdAt (main opened).clients i = -1 := by
  unfold fdAt
  cases h : (main opened).clients[i]? with
  | none => rfl
  | some node =>
    obtain rfl := List.eq_of_mem_replicate (List.mem_of_getElem? h)
    rfl

theorem main_sound (opened : Finset ℤ) : Sound (main opened) :=
  ⟨fun i h => absurd (fdAt_main opened i) h, fun i _ _ h => absurd (fdAt_main opened i) h⟩

theorem sound_open {s : Server} (h : Sound s) (n : ℕ) (fd : ℤ) :
    Sound ⟨s.clients, n, insert fd s.opened⟩ :=
  ⟨fun i hi => Finset.mem_insert_of_mem (h.opened i hi), h.own⟩

theorem sound_set {s : Server} (h : Sound s) {node : Node} (hnew : node.fd ∉ s.opened) (i : ℕ)
    (n : ℕ) : Sound ⟨s.clients.set i node, n, insert node.fd s.opened⟩ := by
  have hother : ∀ j, fdAt s.clients j = node.fd → fdAt s.clients j = -1 := by
    intro j heq
    by_contra hfd
    exact hnew (heq ▸ h.opened j hfd)
  constructor
  · intro j hfd
    rw [fdAt_set] at hfd ⊢
    split
    · exact Finset.mem_insert_self _ _
    · rename_i hj
      rw [if_neg hj] at hfd
      exact Finset.mem_insert_of_mem (h.opened j hfd)
  · intro j k heq hfd
    rw [fdAt_set, fdAt_set] at heq
    rw [fdAt_set] at hfd
    split at heq
    · rename_i hj
      split at heq
      · rename_i hk
        exact hj.1.symm.trans hk.1
      · rw [if_pos hj] at hfd
        exact absurd (heq.trans (hother k heq.symm)) hfd
    · rename_i hj
      rw [if_neg hj] at hfd
      split at heq
      · exact absurd (hother j heq) hfd
      · exact h.own j k heq hfd

theorem sound_free {s : Server} (h : Sound s) (i : ℕ) (n : ℕ) :
    Sound ⟨s.clients.set i free, n, s.opened.erase (fdAt s.clients i)⟩ := by
  have hkept : ∀ j, fdAt (s.clients.set i free) j ≠ -1 →
      j ≠ i ∧ fdAt (s.clients.set i free) j = fdAt s.clients j := by
    intro j hfd
    rw [fdAt_set] at hfd ⊢
    split at hfd
    · exact absurd rfl hfd
    · rename_i hj
      refine ⟨?_, if_neg hj⟩
      rintro rfl
      refine hfd ?_
      have hlong : s.clients.length ≤ j := Nat.le_of_not_lt fun hlt => hj ⟨rfl, hlt⟩
      simp [fdAt, List.getElem?_eq_none hlong]
  constructor
  · intro j hfd
    obtain ⟨hji, heq⟩ := hkept j hfd
    rw [heq] at hfd ⊢
    refine Finset.mem_erase.mpr ⟨fun hsame => hji (h.own j i hsame hfd), h.opened j hfd⟩
  · intro j k heq hfd
    obtain ⟨-, hj⟩ := hkept j hfd
    obtain ⟨-, hk⟩ := hkept k (heq ▸ hfd)
    rw [hj] at hfd
    exact h.own j k (by rw [← hj, ← hk, heq]) hfd

theorem register_sound {s : Server} (h : Sound s) {clientFD : ℤ} (hnew : clientFD ∉ s.opened)
    (name : Text) : Sound (register s clientFD name).1 := by
  unfold register occupy
  split
  · exact h
  · split
    · exact sound_open h _ clientFD
    · rename_i j hj
      exact sound_set h hnew j _

theorem monitor_sound {s : Server} (h : Sound s) {clientFD : ℤ} (hnew : clientFD ∉ s.opened)
    (readBuff : Text) : Sound (monitor s clientFD readBuff) := by
  unfold monitor
  split
  · exact register_sound h hnew _
  · exact sound_open h _ clientFD

theorem ping_sound {s : Server} (h : Sound s) (i : ℕ) (failed : Bool) :
    Sound (ping s i failed) := by
  unfold ping
  split
  · exact h
  · rename_i node hnode
    split
    · rw [← fdAt_some hnode]
      exact sound_free h i _
    · exact h

theorem step_sound {s : Server} (h : Sound s) {event : Event} (hp : Possible s event) :
    Sound (step s event) := by
  cases event with
  | connect clientFD readBuff => exact monitor_sound h hp.2.1 readBuff
  | ping i failed => exact ping_sound h i failed

theorem run_sound {s : Server} (h : Sound s) {events : List Event} (ha : Allowed s events) :
    Sound (run s events) := by
  induction events generalizing s with
  | nil => exact h
  | cons event events ih => exact ih (step_sound h ha.1) ha.2

end Semestr4.ClusterServer
