import Semestr4.ClusterServer

/-!
# Registrations and their answers

The answer of a registration is decided before a slot is looked for. It is right
when the name is already in the table or some slot is free, and wrong in every
other state of the table.
-/

set_option autoImplicit false

namespace Semestr4.ClusterRegistry
open Semestr4.ByteText Semestr4.ClusterServer

def Registered (clients : List Node) (fd : ℤ) (name : Text) : Prop :=
  ∃ node ∈ clients, node.name = name ∧ node.fd = fd

/-- A registration is accepted exactly when the connection is in the table
afterwards, and is refused otherwise with the table as before. -/
def Agrees (s : Server) (fd : ℤ) (name : Text) : Prop :=
  ((register s fd name).2 = accepted ↔ Registered (register s fd name).1.clients fd name) ∧
  ((register s fd name).2 = refused ↔ ¬ Registered (register s fd name).1.clients fd name) ∧
  ((register s fd name).2 = refused → (register s fd name).1.clients = s.clients)

def Known (clients : List Node) (name : Text) : Prop := ∃ node ∈ clients, node.name = name

def Room (s : Server) (_fd : ℤ) (name : Text) : Prop :=
  Known s.clients name ∨ ∃ node ∈ s.clients, node.fd = -1

def AtRegistrations (P : Server → ℤ → Text → Prop) : Server → List Event → Prop
  | _, [] => True
  | s, .connect fd readBuff::events =>
    (Asks readBuff → P s fd (nameOf readBuff)) ∧
      AtRegistrations P (step s (.connect fd readBuff)) events
  | s, .ping i failed::events => AtRegistrations P (step s (.ping i failed)) events

theorem known_any {clients : List Node} {name : Text} :
    clients.any (·.name = name) = true ↔ Known clients name := by
  simp [Known]

theorem register_known {s : Server} {name : Text} (h : Known s.clients name) (fd : ℤ) :
    register s fd name = (s, refused) := by
  rw [register, if_pos (known_any.mpr h)]

theorem register_unknown {s : Server} {name : Text} (h : ¬ Known s.clients name) (fd : ℤ) :
    register s fd name = (⟨occupy s.clients ⟨name, fd, s.numOfClients⟩, s.numOfClients+1,
      insert fd s.opened⟩, accepted) := by
  rw [register, if_neg (mt known_any.mp h)]

theorem occupy_free {clients : List Node} (h : ∃ node ∈ clients, node.fd = -1) (node : Node) :
    node ∈ occupy clients node := by
  unfold occupy
  split
  · rename_i hnone
    obtain ⟨slot, hslot, hfd⟩ := h
    have := List.findIdx?_eq_none_iff.mp hnone slot hslot
    simp [hfd] at this
  · rename_i j hj
    have hlt : j < clients.length := (List.findIdx?_eq_some_iff_getElem.mp hj).1
    exact List.mem_set hlt node

theorem occupy_full {clients : List Node} (h : ¬ ∃ node ∈ clients, node.fd = -1) (node : Node) :
    occupy clients node = clients := by
  have hnone : clients.findIdx? (·.fd = -1) = none := by
    rw [List.findIdx?_eq_none_iff]
    intro slot hslot
    simpa using fun hfd => h ⟨slot, hslot, hfd⟩
  rw [occupy, hnone]

theorem fdAt_mem {clients : List Node} {node : Node} (h : node ∈ clients) :
    ∃ i, fdAt clients i = node.fd := by
  obtain ⟨i, hi⟩ := List.mem_iff_getElem?.mp h
  exact ⟨i, fdAt_some hi⟩

theorem not_registered {s : Server} (h : Sound s) {fd : ℤ} (hfd : 0 ≤ fd)
    (hnew : fd ∉ s.opened) (name : Text) : ¬ Registered s.clients fd name := by
  rintro ⟨node, hnode, -, heq⟩
  obtain ⟨i, hi⟩ := fdAt_mem hnode
  have hopen := h.opened i (by omega)
  rw [hi, heq] at hopen
  exact hnew hopen

theorem agrees_iff_room {s : Server} (h : Sound s) {fd : ℤ} (hfd : 0 ≤ fd)
    (hnew : fd ∉ s.opened) (name : Text) : Agrees s fd name ↔ Room s fd name := by
  have hanswers : accepted ≠ refused := by decide
  by_cases hknown : Known s.clients name
  · -- refused, and the connection is in no slot
    have hnot := not_registered h hfd hnew name
    rw [Agrees, register_known hknown]
    exact ⟨fun _ => Or.inl hknown,
      fun _ => ⟨⟨fun heq => absurd heq.symm hanswers, fun hreg => absurd hreg hnot⟩,
        ⟨fun _ => hnot, fun _ => rfl⟩, fun _ => rfl⟩⟩
  · rw [Agrees, register_unknown hknown]
    by_cases hroom : ∃ node ∈ s.clients, node.fd = -1
    · -- accepted, and the connection has the first free slot
      have hregistered : Registered (occupy s.clients ⟨name, fd, s.numOfClients⟩) fd name :=
        ⟨_, occupy_free hroom _, rfl, rfl⟩
      exact ⟨fun _ => Or.inr hroom,
        fun _ => ⟨⟨fun _ => hregistered, fun _ => rfl⟩,
          ⟨fun heq => absurd heq hanswers, fun hreg => absurd hregistered hreg⟩,
          fun heq => absurd heq hanswers⟩⟩
    · -- accepted without a slot
      rw [occupy_full hroom]
      constructor
      · intro hagrees
        obtain ⟨node, hnode, hname, -⟩ := hagrees.1.mp rfl
        exact Or.inl ⟨node, hnode, hname⟩
      · intro hr
        rcases hr with hr | hr
        · exact absurd hr hknown
        · exact absurd hr hroom

theorem registrations_congr {s : Server} (h : Sound s) {events : List Event}
    (ha : Allowed s events) : AtRegistrations Agrees s events ↔ AtRegistrations Room s events := by
  induction events generalizing s with
  | nil => exact Iff.rfl
  | cons event events ih =>
    have hlater := ih (step_sound h ha.1) ha.2
    cases event with
    | connect fd readBuff =>
      exact and_congr (imp_congr_right fun _ => agrees_iff_room h ha.1.1 ha.1.2.1 _) hlater
    | ping i failed => exact hlater

theorem registrations_append {P : Server → ℤ → Text → Prop} {s : Server} {before after : List Event}
    (h : AtRegistrations P s (before++after)) : AtRegistrations P (run s before) after := by
  induction before generalizing s with
  | nil => exact h
  | cons event before ih =>
    cases event with
    | connect fd readBuff => exact ih h.2
    | ping i failed => exact ih h

/-- In every run of the server all registrations are answered rightly exactly
when each of them finds its name in the table or a free slot. -/
theorem registrations_agree_iff (opened : Finset ℤ) {events : List Event}
    (h : Allowed (main opened) events) :
    AtRegistrations Agrees (main opened) events ↔ AtRegistrations Room (main opened) events :=
  registrations_congr (main_sound opened) h

theorem registrations_agree_one_node :
    AtRegistrations Agrees (main {0, 1, 2, 3, 4})
      [.connect 5 [49, 97], .connect 6 [49, 97], .ping 0 true] := by
  refine (registrations_agree_iff {0, 1, 2, 3, 4} (by decide +kernel)).mpr ⟨fun _ => ?_,
    fun _ => ?_, trivial⟩
  · exact Or.inr ⟨free, by decide, rfl⟩
  · exact Or.inl ⟨⟨[97], 5, 0⟩, by decide, rfl⟩

def crowd : List Event :=
  (List.range clusterSize).map fun i : ℕ => .connect (5+(i : ℤ)) [49, 97+UInt8.ofNat i]

/-- One node more than there are slots is accepted and is not in the table. -/
theorem crowd_does_not_agree :
    Allowed (main {0, 1, 2, 3, 4}) (crowd++[.connect 25 [49, 122]]) ∧
      ¬ AtRegistrations Agrees (main {0, 1, 2, 3, 4}) (crowd++[.connect 25 [49, 122]]) := by
  refine ⟨by decide +kernel, fun h => ?_⟩
  have hsound : Sound (run (main {0, 1, 2, 3, 4}) crowd) :=
    run_sound (main_sound _) (by decide +kernel)
  have hagrees := (registrations_append h).1 (by decide)
  have hroom := (agrees_iff_room hsound (by decide) (by decide +kernel) _).mp hagrees
  exact absurd hroom (by unfold Room Known; decide +kernel)

end Semestr4.ClusterRegistry
