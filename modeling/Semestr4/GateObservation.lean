import Mathlib.Data.Fintype.Sum
import Semestr4.BufferGates
import Semestr4.SinceLast

/-!
# What the gates say about the buffer

A thread that found the buffer empty or full should get past its gate only after
that has changed. The gates collect permits, so they do so only for those that
found them shut.
-/

set_option autoImplicit false

namespace Semestr4.GateObservation
open Semestr4.ScheduledRun Semestr4.ByteText Semestr4.SinceLast Semestr4.GatedSection
open Semestr4.BufferGates
open Semestr4.BufferMachine hiding addToBuffer removeFromBuffer Event State main machine
open Semestr4.BufferInvariant (smallConf smallProducer smallConsumer)

variable {conf : Conf}

/-- What a thread that waits at a gate waits for. -/
def Changes : Gate → Event → Prop
  | .emptySem, .data (.stored _) => True
  | .emptySem, .endOfFile => True
  | .fullSem, .data (.removed _) => True
  | _, _ => False

def Justified (es : List (Thread conf × Event)) : Prop :=
  ∀ before after t gate, es = before++(t, .passed gate)::after →
    Happened (fun e => Changes gate e.2) (t, .found gate) before

def turnsTo (conf : Conf) (s : Shared) : SectionPc → Option Gate
  | .add .ifFull => if s.numberOfElements = conf.bufferLength then some .fullSem else none
  | .remove .ifEmpty =>
    if s.numberOfElements = 0 ∧ s.endOfFile = false then some .emptySem else none
  | _ => none

def State.finds (w : State conf) (t : Thread conf) : Option Gate :=
  match w.pc t with
  | .inside p => turnsTo conf w.shared p
  | _ => none

def Shut (w : State conf) (t : Thread conf) : Prop := ∀ gate ∈ State.finds w t, ¬ Open w gate

/-- No statement that would change the count, or post `emptySem`, is next. -/
def Calm : SectionPc → Prop
  | .add .count => False
  | .add (.postEmpty _) => False
  | .remove .ifEnd => False
  | .remove .take => False
  | .remove .count => False
  | _ => True

structure Untouched (w : State conf) : Prop where
  shut : ¬ Open w .emptySem
  none_there : w.shared.numberOfElements = 0
  more : w.shared.endOfFile = false
  calm : ∀ t p, w.pc t = .inside p → Calm p

theorem goes_calm {s s' : Shared} {p q : SectionPc} {fs : List Event} (hp : Calm p)
    (hn : s.numberOfElements = 0) (he : s.endOfFile = false)
    (hb : (search conf).body p s = .goes s' q fs) : (∃ e ∈ fs, Changes .emptySem e) ∨
      s'.numberOfElements = 0 ∧ s'.endOfFile = false ∧ Calm q := by
  cases runs hb with
  | stores buffer => exact Or.inl ⟨_, List.mem_cons_self, trivial⟩
  | raises => exact Or.inl ⟨_, List.mem_cons_self, trivial⟩
  | one hone => omega
  | present h => exact absurd ⟨hn, he⟩ h
  | added | takes | removed | drained | continues => exact False.elim hp
  | _ => exact Or.inr ⟨hn, he, trivial⟩

section Steps
variable {w v : State conf} {t : Thread conf} {es fs : List (Thread conf × Event)}

theorem shut_step (hu : Untouched w) (hd : Does (search conf) w t v fs) :
    ¬ Open v .emptySem := by
  intro ho
  obtain ⟨p, q, hpc, hb⟩ := opens_by_post hu.shut hd ho
  cases runs hb
  exact hu.calm t _ hpc

theorem calm_step (hu : Untouched w) (hd : Does (search conf) w t v fs)
    (ht : ∀ p, v.pc t = .inside p → Calm p) (u : Thread conf) (p : SectionPc)
    (hp : v.pc u = .inside p) : Calm p := by
  by_cases hut : u = t
  · subst hut
    exact ht p hp
  · rw [hd.other hut] at hp
    exact hu.calm u p hp

theorem untouched_step (hu : Untouched w) (hd : Does (search conf) w t v fs) :
    (∃ e ∈ fs, Changes .emptySem e.2) ∨ Untouched v := by
  have hshut := shut_step hu hd
  have hcalm := calm_step hu hd
  cases hd with
  | enters hpc hsem =>
    refine Or.inr ⟨hshut, hu.none_there, hu.more, hcalm fun p hp => ?_⟩
    simp only [go_same, Pc.inside.injEq] at hp
    subst hp
    cases t <;> trivial
  | @goes p q s events hpc hb =>
    rcases goes_calm (hu.calm t p hpc) hu.none_there hu.more hb with
      ⟨e, he, hchange⟩ | ⟨hn, he, hq⟩
    · exact Or.inl ⟨(t, e), List.mem_map_of_mem he, hchange⟩
    · refine Or.inr ⟨hshut, hn, he, hcalm fun r hr => ?_⟩
      simp only [go_same, Pc.inside.injEq] at hr
      rwa [← hr]
  | posts hpc hb =>
    refine Or.inr ⟨hshut, hu.none_there, hu.more, hcalm fun r hr => ?_⟩
    simp only [go_same, Pc.inside.injEq] at hr
    subst hr
    cases runs hb <;> trivial
  | @leaves p exit hpc hb =>
    refine Or.inr ⟨hshut, hu.none_there, hu.more, hcalm fun r hr => ?_⟩
    simp only [go_same] at hr
    cases exit <;> cases hr
  | passes hpc hgate =>
    refine Or.inr ⟨hshut, hu.none_there, hu.more, hcalm fun r hr => ?_⟩
    simp at hr
  | reposts hpc =>
    refine Or.inr ⟨hshut, hu.none_there, hu.more, hcalm fun r hr => ?_⟩
    simp at hr

def Turned (pc : Pc SectionPc Gate) : Gate → Prop
  | .emptySem => pc = .inside (.remove .postEmpty) ∨ pc = .wait .emptySem
  | .fullSem => pc = .inside (.add .postFull) ∨ pc = .wait .fullSem

theorem wait_turned (gate : Gate) : Turned (.wait gate) gate := by
  cases gate <;> exact Or.inr rfl

theorem goes_turned {s s' : Shared} {p q : SectionPc} {gate : Gate} {events : List Event}
    (hb : (search conf).body p s = .goes s' q events) (hq : Turned (.inside q) gate) :
    turnsTo conf s p = some gate ∧ events = [.found gate] := by
  cases runs hb with
  | full hn =>
    cases gate with
    | fullSem => exact ⟨if_pos hn, rfl⟩
    | emptySem => simp [Turned] at hq
  | empty hn he =>
    cases gate with
    | emptySem => exact ⟨if_pos ⟨hn, he⟩, rfl⟩
    | fullSem => simp [Turned] at hq
  | _ => cases gate <;> simp [Turned] at hq

theorem result_turns (code : ℤ) (gate : Gate) : result conf code ≠ .turns gate := by
  unfold result
  split <;> exact fun h => by cases h

theorem leaves_turned {s : Shared} {p : SectionPc} {exit : Exit Gate} {gate : Gate}
    (hb : (search conf).body p s = .leaves exit)
    (hexit : Turned (exit.pc : Pc SectionPc Gate) gate) : Turned (.inside p) gate := by
  have hturns : exit = .turns gate := by
    cases exit with
    | turns other => cases gate <;> simpa [Turned, Exit.pc] using hexit
    | again | stops => cases gate <;> simp [Turned, Exit.pc] at hexit
  cases runs hb with
  | returnsAdd code => exact absurd hturns (result_turns code gate)
  | returnsRemove code => exact absurd hturns (result_turns code gate)
  | turnsFull =>
    cases hturns
    exact Or.inl rfl
  | turnsEmpty =>
    cases hturns
    exact Or.inl rfl

theorem turned_step {gate : Gate} (hd : Does (search conf) w t v fs)
    (hv : Turned (v.pc t) gate) : Turned (w.pc t) gate ∧ fs = [] ∨
      State.finds w t = some gate ∧ fs = [(t, .found gate)] := by
  cases hd with
  | enters hpc hsem =>
    rw [go_same] at hv
    cases t <;> cases gate <;> simp [Turned, search] at hv
  | @goes p q s events hpc hb =>
    simp only [go_same] at hv
    obtain ⟨hturns, rfl⟩ := goes_turned hb hv
    right
    exact ⟨by rw [State.finds, hpc]; exact hturns, rfl⟩
  | posts hpc hb =>
    rw [go_same] at hv
    cases runs hb <;> cases gate <;> simp [Turned] at hv
  | leaves hpc hb =>
    simp only [go_same] at hv
    rw [hpc]
    exact Or.inl ⟨leaves_turned hb hv, rfl⟩
  | passes hpc hgate =>
    rw [go_same] at hv
    cases gate <;> simp [Turned] at hv
  | reposts hpc =>
    rw [go_same] at hv
    cases gate <;> simp [Turned] at hv

theorem goes_passed {s s' : Shared} {p q : SectionPc} {events : List Event}
    (hb : (search conf).body p s = .goes s' q events) (gate : Gate) :
    Event.passed gate ∉ events := by
  cases runs hb <;> simp

theorem passed_step (hd : Does (search conf) w t v fs) :
    (∃ gate, w.pc t = .wait gate ∧ Open w gate ∧ fs = [(t, .passed gate)]) ∨
      ∀ u gate, (u, Event.passed gate) ∉ fs := by
  cases hd with
  | @goes p q s events hpc hb =>
    right
    intro u gate hmem
    obtain ⟨e, he, heq⟩ := List.mem_map.mp hmem
    cases heq
    exact goes_passed hb gate he
  | @passes gate hpc hgate => exact Or.inl ⟨gate, hpc, Or.inl (Nat.pos_of_ne_zero hgate), rfl⟩
  | enters | posts | leaves | reposts => exact Or.inr fun u gate h => by cases h

theorem Justified.append (h : Justified es) (hfs : ∀ u gate, (u, Event.passed gate) ∉ fs) :
    Justified (es++fs) := by
  intro before after u gate heq
  rcases List.append_eq_append_iff.mp heq with ⟨c, -, hc⟩ | ⟨c, hc, hrest⟩
  · rw [hc] at hfs
    exact absurd (by simp) (hfs u gate)
  · cases c with
    | nil =>
      rw [List.nil_append] at hrest
      rw [← hrest] at hfs
      exact absurd (by simp) (hfs u gate)
    | cons y c =>
      obtain ⟨rfl, -⟩ := List.cons.inj hrest
      exact h before c u gate hc

theorem Justified.snoc {gate : Gate} (h : Justified es)
    (hpass : Happened (fun e => Changes gate e.2) (t, .found gate) es) :
    Justified (es++[(t, .passed gate)]) := by
  intro before after u other heq
  rcases List.eq_nil_or_concat after with rfl | ⟨rest, y, rfl⟩
  · obtain ⟨rfl, hlast⟩ := List.append_inj' heq rfl
    cases hlast
    exact hpass
  · rw [List.concat_eq_append, ← List.cons_append, ← List.append_assoc] at heq
    obtain ⟨hes, -⟩ := List.append_inj' heq rfl
    exact h before rest u other hes

structure Watch (es : List (Thread conf × Event)) (w : State conf) : Prop where
  inside : ∃ o, Inside w o
  full : Open w .fullSem
  never : ∀ t, ¬ Turned (w.pc t) .fullSem
  waits : ∀ t, Turned (w.pc t) .emptySem →
    Happened (fun e => Changes .emptySem e.2) (t, .found .emptySem) es ∨
      (∃ after, Behind (t, .found .emptySem) es after) ∧ Untouched w
  justified : Justified es

theorem finds_some {gate : Gate} (h : State.finds w t = some gate) :
    ∃ p, w.pc t = .inside p ∧ turnsTo conf w.shared p = some gate := by
  unfold State.finds at h
  split at h
  · rename_i p hpc
    exact ⟨p, hpc, h⟩
  · cases h

theorem turnsTo_some {s : Shared} {p : SectionPc} {gate : Gate}
    (h : turnsTo conf s p = some gate) :
    (p = .add .ifFull ∧ s.numberOfElements = conf.bufferLength ∧ gate = .fullSem) ∨
      p = .remove .ifEmpty ∧ (s.numberOfElements = 0 ∧ s.endOfFile = false) ∧
        gate = .emptySem := by
  unfold turnsTo at h
  split at h
  · split at h
    · rename_i hfull
      cases h
      exact Or.inl ⟨rfl, hfull, rfl⟩
    · cases h
  · split at h
    · rename_i hempty
      cases h
      exact Or.inr ⟨rfl, hempty, rfl⟩
    · cases h
  · cases h

/-- A consumer that finds the buffer empty and the gate shut is the only thread
inside, so nothing is under way. -/
theorem found_untouched {o : Option (Thread conf × SectionPc)} (hi : Inside w o)
    (hfinds : State.finds w t = some .emptySem) (hshut : ¬ Open w .emptySem) : Untouched w := by
  obtain ⟨p, hpc, hturns⟩ := finds_some hfinds
  rcases turnsTo_some hturns with ⟨-, -, h⟩ | ⟨rfl, ⟨hn, he⟩, -⟩
  · cases h
  · refine ⟨hshut, hn, he, fun u q hu => ?_⟩
    cases one_inside hi hpc hu
    cases hpc.symm.trans hu
    trivial

theorem waits_step (hw : Watch es w) (hC : Shut w t) (hd : Does (search conf) w t v fs)
    (u : Thread conf) (hu : Turned (v.pc u) .emptySem) :
    Happened (fun e => Changes .emptySem e.2) (u, .found .emptySem) (es++fs) ∨
      (∃ after, Behind (u, .found .emptySem) (es++fs) after) ∧ Untouched v := by
  have hold : Turned (w.pc u) .emptySem → (u, .found .emptySem) ∉ fs →
      Happened (fun e => Changes .emptySem e.2) (u, .found .emptySem) (es++fs) ∨
        (∃ after, Behind (u, .found .emptySem) (es++fs) after) ∧ Untouched v := by
    intro hturned hfs
    rcases hw.waits u hturned with hpass | ⟨⟨after, hlast⟩, huntouched⟩
    · exact Or.inl (hpass.append hfs)
    · rcases untouched_step huntouched hd with ⟨e, he, hchange⟩ | hstill
      · exact Or.inl (hlast.happened hfs he hchange)
      · exact Or.inr ⟨⟨_, hlast.append hfs⟩, hstill⟩
  by_cases hut : u = t
  · subst hut
    rcases turned_step hd hu with ⟨hturned, rfl⟩ | ⟨hfinds, rfl⟩
    · exact hold hturned List.not_mem_nil
    · obtain ⟨o, hi⟩ := hw.inside
      have huntouched := found_untouched hi hfinds (hC _ hfinds)
      rcases untouched_step huntouched hd with ⟨e, he, hchange⟩ | hstill
      · rw [List.mem_singleton.mp he] at hchange
        exact False.elim hchange
      · exact Or.inr ⟨⟨[], behind_snoc _ es⟩, hstill⟩
  · rw [hd.other hut] at hu
    exact hold hu (fun hmem => hut (hd.tagged _ hmem))

theorem justified_step (hw : Watch es w) (hd : Does (search conf) w t v fs) :
    Justified (es++fs) := by
  rcases passed_step hd with ⟨gate, hpc, hopen, rfl⟩ | hfs
  · have hturned : Turned (w.pc t) gate := hpc ▸ wait_turned gate
    cases gate with
    | fullSem => exact absurd hturned (hw.never t)
    | emptySem =>
      rcases hw.waits t hturned with hpass | ⟨-, huntouched⟩
      · exact hw.justified.snoc hpass
      · exact absurd hopen huntouched.shut
  · exact hw.justified.append hfs

theorem watch_step (hw : Watch es w) (hC : Shut w t) (hd : Does (search conf) w t v fs) :
    Watch (es++fs) v := by
  obtain ⟨o, hi⟩ := hw.inside
  obtain ⟨o', hi', -⟩ := inside_step hi hd
  refine ⟨⟨o', hi'⟩, open_step hw.full hd, fun u hu => ?_, waits_step hw hC hd,
    justified_step hw hd⟩
  by_cases hut : u = t
  · subst hut
    rcases turned_step hd hu with ⟨hold, -⟩ | ⟨hfinds, -⟩
    · exact hw.never u hold
    · exact hC _ hfinds hw.full
  · rw [hd.other hut] at hu
    exact hw.never u hu

/-- In every run in which the threads that find the buffer empty or full find
their gates shut, each of them gets past its gate only after a change. -/
theorem passes_justified (conf : Conf) (file : Text) (as : List (Thread conf))
    (hC : Meets (machine conf) Shut (main conf file) as) (w : State conf)
    (es : List (Thread conf × Event)) (hr : run (machine conf) as (main conf file) = some (w, es)) :
    Justified es := by
  have hstart : Watch [] (main conf file) := by
    refine ⟨⟨none, start_inside _ _⟩, Or.inl Nat.one_pos, fun t h => ?_, fun t h => ?_, ?_⟩
    · rcases h with h | h <;> cases h
    · rcases h with h | h <;> cases h
    · intro before after t gate h
      simp at h
  exact (run_induction_meets (machine conf) Shut (main conf file) Watch hstart
    (fun _ _ _ _ _ hw hC hs => watch_step hw hC (step_does hs)) as hC w es hr).justified

end Steps

def threadEquiv (conf : Conf) :
    Fin conf.numberOfConsumers ⊕ Fin conf.numberOfProducers ≃ Thread conf where
  toFun
    | .inl i => .consumer i
    | .inr i => .producer i
  invFun
    | .consumer i => .inl i
    | .producer i => .inr i
  left_inv x := by cases x <;> rfl
  right_inv t := by cases t <;> rfl

instance (conf : Conf) : Fintype (Thread conf) := .ofEquiv _ (threadEquiv conf)

instance (w : State conf) (gate : Gate) : Decidable (Open w gate) :=
  inferInstanceAs (Decidable (0 < w.gates gate ∨ ∃ t, w.pc t = .repost gate))

instance (w : State conf) (t : Thread conf) : Decidable (Shut w t) :=
  inferInstanceAs (Decidable (∀ gate ∈ State.finds w t, ¬ Open w gate))

/-- The consumer finds the buffer empty, and passes after the first record. -/
theorem passes_justified_small : ∃ w es,
    run (machine smallConf) (List.replicate 3 smallConsumer++List.replicate 8 smallProducer++
      [smallConsumer]) (main smallConf [97, 10]) = some (w, es) ∧ Justified es := by
  have hr : run (machine smallConf) (List.replicate 3 smallConsumer++
      List.replicate 8 smallProducer++[smallConsumer]) (main smallConf [97, 10]) =
        some (_, _) := rfl
  exact ⟨_, _, hr, passes_justified smallConf _ _ (by decide) _ _ hr⟩

/-- The producer fills the buffer, finds it full, and passes. -/
theorem full_passed : ¬ ∀ (conf : Conf) (file : Text) (as : List (Thread conf)) (w : State conf)
    (es : List (Thread conf × Event)),
      run (machine conf) as (main conf file) = some (w, es) → Justified es := by
  intro h
  have hr : run (machine smallConf) (List.replicate 12 smallProducer)
      (main smallConf [97, 10, 98, 10]) = some (_, [(smallProducer, .data (.returned [97, 10])),
        (smallProducer, .data (.stored ⟨some [97, 10], 1⟩)), (smallProducer, .found .fullSem),
        (smallProducer, .passed .fullSem)]) := rfl
  obtain ⟨after, hlast, e, he, -⟩ := h smallConf _ _ _ _ hr [_, _, _] [] smallProducer .fullSem rfl
  rw [hlast.unique (behind_snoc _ [_, _])] at he
  cases he

section Exact
variable {w : State conf} {t : Thread conf}

theorem turnsTo_body {s : Shared} {p : SectionPc} {gate : Gate}
    (h : turnsTo conf s p = some gate) :
    ∃ q, (search conf).body p s = .goes s q [.found gate] ∧
      (search conf).body q s = .leaves (.turns gate) := by
  rcases turnsTo_some h with ⟨rfl, hfull, rfl⟩ | ⟨rfl, hempty, rfl⟩
  · exact ⟨.add .postFull, if_pos hfull, rfl⟩
  · exact ⟨.remove .postEmpty, if_pos hempty, rfl⟩

theorem turns_run {gate : Gate} (hfinds : State.finds w t = some gate) :
    ∃ v, run (machine conf) [t, t] w = some (v, [(t, .found gate)]) ∧ v.pc t = .wait gate ∧
      (Open w gate → Open v gate) := by
  obtain ⟨p, hpc, hturns⟩ := finds_some hfinds
  obtain ⟨q, htest, hleave⟩ := turnsTo_body hturns
  have hfirst : machine conf w t = some (w.go t (.inside q), [(t, .found gate)]) := by
    simp only [machine, step, hpc, htest]
    rfl
  have hsecond : machine conf (w.go t (.inside q)) t =
      some ({ (w.go t (.inside q)).go t (.wait gate) with sem := w.sem+1 }, []) := by
    simp only [machine, step, go_same, go_shared, hleave]
    rfl
  refine ⟨_, run_cons.mpr ⟨_, _, _, hfirst, run_cons.mpr ⟨_, _, _, hsecond, rfl, rfl⟩, rfl⟩,
    go_same .., fun ho => ?_⟩
  exact open_step (open_step ho (step_does hfirst)) (step_does hsecond)

/-- A thread that finds its gate open can get past it before any change. -/
theorem pass_unjustified {gate : Gate} (es : List (Thread conf × Event))
    (hfinds : State.finds w t = some gate) (ho : Open w gate) :
    ∃ bs v gs, run (machine conf) bs w = some (v, gs) ∧ ¬ Justified (es++gs) := by
  obtain ⟨v, hv, hpc, hopen⟩ := turns_run hfinds
  obtain ⟨bs, u, hu⟩ := @pass_open Shared (Thread conf) SectionPc Gate Event _ _ (search conf) v t
    gate hpc (hopen ho)
  refine ⟨[t, t]++bs, u, [(t, .found gate)]++[(t, .passed gate)],
    run_append.mpr ⟨v, _, _, hv, hu, rfl⟩, fun hjustified => ?_⟩
  rw [← List.append_assoc] at hjustified
  obtain ⟨after, hlast, e, he, -⟩ := hjustified (es++[(t, .found gate)]) [] t gate rfl
  rw [hlast.unique (behind_snoc _ es)] at he
  cases he

end Exact

end Semestr4.GateObservation
