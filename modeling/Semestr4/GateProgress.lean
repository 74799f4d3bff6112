import Semestr4.BufferGates

/-!
# The gates never block everyone

The assignments of a section are finished by the thread inside it, so what it
still owes is added to the records and counters of `BufferInvariant`. The gate
of the producers is open from the start, that of the consumers once the end of
the file is seen, and every permit taken from them is given back.
-/

set_option autoImplicit false

namespace Semestr4.GateProgress
open Semestr4.ScheduledRun Semestr4.ByteText Semestr4.CircularBuffer Semestr4.BufferInvariant
open Semestr4.BufferMachine hiding addToBuffer removeFromBuffer Event State main machine
open Semestr4.GatedSection Semestr4.BufferGates

variable {conf : Conf} {file : Text}

def dataOf (es : List (Thread conf × Event)) : List BufferMachine.Event :=
  es.filterMap fun
    | (_, .data event) => some event
    | _ => none

@[simp] theorem dataOf_append (es fs : List (Thread conf × Event)) :
    dataOf (es++fs) = dataOf es++dataOf fs := List.filterMap_append

@[simp] theorem dataOf_tagged (t : Thread conf) (events : List BufferMachine.Event) :
    dataOf ((events.map Event.data).map fun e => (t, e)) = events := by
  simp [dataOf, List.filterMap_map, Function.comp_def]

def owed : Option (Thread conf × SectionPc) → Shared → List BufferMachine.Event
  | some (_, .add (.store buffer)), s => [.stored (currentLine s buffer)]
  | _, _ => []

def pending : Option (Thread conf × SectionPc) → Shared → Shared
  | some (_, .add (.store buffer)), s => countAdded conf (storeLine s buffer)
  | some (_, .add .count), s => countAdded conf s
  | some (_, .remove .count), s => countRemoved conf s
  | _, s => s

def Found : Option (Thread conf × SectionPc) → Shared → Prop
  | some (_, .add .fgets), s => s.numberOfElements ≠ conf.bufferLength
  | some (_, .add .setEndOfFile), s => s.source = []
  | some (_, .add (.postEmpty code)), s => code = -1 → s.endOfFile = true
  | some (_, .add (.post code)), s => code = -1 → s.endOfFile = true
  | some (_, .remove .ifEnd), s => s.numberOfElements = 0 → s.endOfFile = true
  | some (_, .remove .take), s => s.numberOfElements ≠ 0
  | some (_, .remove (.postFull code)), _ => code ≠ -1
  | some (_, .remove (.post code)), s => code = -1 → s.endOfFile = true ∧ s.numberOfElements = 0
  | _, _ => True

structure Progress (conf : Conf) (file : Text) (es : List (Thread conf × Event))
    (o : Option (Thread conf × SectionPc)) (s : Shared) : Prop where
  records : Invariant conf file (dataOf es++owed o s) (pending o s)
  found : Found o s
  ended : s.endOfFile = true → s.source = []

theorem Invariant.printed {es fs : List BufferMachine.Event} {s : Shared}
    (hi : Invariant conf file es s) (hp : Printed fs) : Invariant conf file (es++fs) s := by
  obtain ⟨hret, hst, -⟩ := printed_values hp
  refine ⟨hi.placed, ?_, ?_, ?_, ?_⟩
  · rw [channelUses_append, printed_no_use hp, List.append_nil]
    exact hi.channel
  · rw [stored_append, returned_append, hret, hst, List.append_nil, List.append_nil]
    exact hi.stored_eq
  · rw [returned_append, hret, List.append_nil]
    exact hi.lineNumber_eq
  · rw [returned_append, hret, List.append_nil]
    exact hi.source_eq

theorem progress_of {es fs : List (Thread conf × Event)} {events : List BufferMachine.Event}
    {o : Option (Thread conf × SectionPc)} {s : Shared} (hdata : dataOf fs = events)
    (hrecords : Invariant conf file (dataOf es++(events++owed o s)) (pending o s))
    (hfound : Found o s) (hended : s.endOfFile = true → s.source = []) :
    Progress conf file (es++fs) o s := by
  refine ⟨?_, hfound, hended⟩
  rwa [dataOf_append, hdata, List.append_assoc]

theorem Progress.quiet {es fs : List (Thread conf × Event)}
    {o o' : Option (Thread conf × SectionPc)} {s : Shared} (hp : Progress conf file es o s)
    (hdata : dataOf fs = []) (howed : owed o' s = owed o s)
    (hpending : pending o' s = pending o s) (hfound : Found o' s) :
    Progress conf file (es++fs) o' s := by
  refine progress_of hdata ?_ hfound hp.ended
  rw [List.nil_append, howed, hpending]
  exact hp.records

theorem goes_progress {es : List (Thread conf × Event)} {t : Thread conf} {p q : SectionPc}
    {s s' : Shared} {fs : List Event} (hp : Progress conf file es (some (t, p)) s)
    (hb : (search conf).body p s = .goes s' q fs) :
    Progress conf file (es++fs.map fun e => (t, e)) (some (t, q)) s' := by
  have hrecords := hp.records
  have hfound := hp.found
  cases runs hb with
  | full => exact hp.quiet rfl rfl rfl trivial
  | room hn => exact hp.quiet rfl rfl rfl hn
  | ends hs => exact hp.quiet rfl rfl rfl hs
  | idles hs => exact hp.quiet rfl rfl rfl trivial
  | one hn => exact hp.quiet rfl rfl rfl (fun h => by cases h)
  | more => exact hp.quiet rfl rfl rfl (fun h => by cases h)
  | empty hn he => exact hp.quiet rfl rfl rfl trivial
  | present h =>
    refine hp.quiet rfl rfl rfl (fun hn => ?_)
    by_contra he
    exact h ⟨hn, Bool.eq_false_iff.mpr he⟩
  | drained h => exact hp.quiet rfl rfl rfl (fun _ => h)
  | continues h => exact hp.quiet rfl rfl rfl (fun hn => h ⟨hfound hn, hn⟩)
  | oneLess => exact hp.quiet rfl rfl rfl (show (0 : ℤ) ≠ -1 by decide)
  | less => exact hp.quiet rfl rfl rfl (fun h => by cases h)
  | reads buffer rest hf =>
    rw [show owed _ s = [] from rfl, List.append_nil] at hrecords
    refine progress_of rfl (hrecords.store hfound hf rfl ?_) trivial (fun he => ?_)
    · intro e he
      cases he
    · rw [hp.ended he] at hf
      cases hf
  | stores buffer =>
    have hprinted := Invariant.printed hrecords (announce_printed conf (strcpy buffer))
    rw [List.append_assoc] at hprinted
    refine progress_of (dataOf_tagged t (.stored (currentLine s buffer)::_)) ?_ trivial hp.ended
    rw [show owed _ _ = [] from rfl, List.append_nil]
    exact hprinted
  | raises => exact progress_of rfl (hrecords.flagged true) (fun _ => rfl) (fun _ => hfound)
  | takes =>
    rw [show owed _ s = [] from rfl, List.append_nil] at hrecords
    refine progress_of (dataOf_tagged t _) ?_ trivial hp.ended
    rw [show owed _ _ = [] from rfl, List.append_nil]
    exact hrecords.release hfound (report_printed conf _)
  | added => exact progress_of rfl hrecords trivial hp.ended
  | removed => exact progress_of rfl hrecords trivial hp.ended

theorem move_progress {es fs : List (Thread conf × Event)}
    {o o' : Option (Thread conf × SectionPc)} {s s' : Shared} (hp : Progress conf file es o s)
    (hm : Moves (search conf) s o o' s' fs) : Progress conf file (es++fs) o' s' := by
  cases hm with
  | enters t => cases t <;> exact hp.quiet rfl rfl rfl trivial
  | goes t hb => exact goes_progress hp hb
  | posts t hb =>
    cases runs hb with
    | postsEmpty code => exact hp.quiet rfl rfl rfl hp.found
    | postsFull code => exact hp.quiet rfl rfl rfl (fun h => absurd h hp.found)
  | leaves t hb => cases runs hb <;> exact hp.quiet rfl rfl rfl trivial
  | passes t gate => exact hp.quiet rfl rfl rfl hp.found
  | rests => exact hp.quiet rfl rfl rfl hp.found

theorem initial_progress (conf : Conf) (hb : 1 ≤ conf.bufferLength) (file : Text) :
    Progress conf file [] none (initial file) :=
  ⟨initial_invariant conf hb file, trivial, fun h => by cases h⟩

/-- In every run the thread inside the section finishes a record that the others
find stored or removed. -/
theorem run_progress (hb : 1 ≤ conf.bufferLength) {as : List (Thread conf)} {w : State conf}
    {es : List (Thread conf × Event)} (hr : run (machine conf) as (main conf file) = some (w, es)) :
    ∃ o, Inside w o ∧ Progress conf file es o w.shared :=
  section_induction (Progress conf file) (initial file) initialValue
    (initial_progress conf hb file) (fun _ _ _ _ _ _ hp hm => move_progress hp hm) hr

def Drained (o : Option (Thread conf × SectionPc)) (s : Shared) : Prop :=
  s.endOfFile = true ∧ (pending o s).numberOfElements = 0

theorem goes_drained {es : List (Thread conf × Event)} {t : Thread conf} {p q : SectionPc}
    {s s' : Shared} {fs : List Event} (hp : Progress conf file es (some (t, p)) s)
    (hq : Drained (some (t, p)) s) (hb : (search conf).body p s = .goes s' q fs) :
    Drained (some (t, q)) s' := by
  cases runs hb with
  | reads buffer rest hf =>
    rw [hp.ended hq.1] at hf
    cases hf
  | raises => exact ⟨rfl, hq.2⟩
  | takes => exact absurd hq.2 hp.found
  | _ => exact hq

theorem move_drained {es fs : List (Thread conf × Event)}
    {o o' : Option (Thread conf × SectionPc)} {s s' : Shared} (hp : Progress conf file es o s)
    (hq : Drained o s) (hm : Moves (search conf) s o o' s' fs) : Drained o' s' := by
  cases hm with
  | enters t => cases t <;> exact hq
  | goes t hb => exact goes_drained hp hq hb
  | posts t hb => cases runs hb <;> exact hq
  | leaves t hb => cases runs hb <;> exact hq
  | passes t gate => exact hq
  | rests => exact hq

theorem result_stops {code : ℤ} (h : Exit.stops = result conf code) : code = -1 := by
  unfold result at h
  split at h
  · rename_i hcode
    exact hcode.1
  · cases h

theorem stops_ended {es : List (Thread conf × Event)} {t : Thread conf} {p : SectionPc} {s : Shared}
    (hp : Progress conf file es (some (t, p)) s) (hb : (search conf).body p s = .leaves .stops) :
    s.endOfFile = true := by
  generalize hx : Exit.stops = x at hb
  cases runs hb with
  | returnsAdd code => exact hp.found (result_stops hx)
  | returnsRemove code => exact (hp.found (result_stops hx)).1
  | turnsFull | turnsEmpty => cases hx

theorem stops_drained {es : List (Thread conf × Event)} {t : Thread conf} {p : SectionPc}
    {s : Shared} (ht : ∃ i, t = .consumer i) (hf : Fits t (.inside p))
    (hp : Progress conf file es (some (t, p)) s) (hb : (search conf).body p s = .leaves .stops) :
    Drained (none : Option (Thread conf × SectionPc)) s := by
  obtain ⟨i, rfl⟩ := ht
  generalize hx : Exit.stops = x at hb
  cases runs hb with
  | returnsAdd code => exact absurd hf (by simp [Fits])
  | returnsRemove code => exact hp.found (result_stops hx)
  | turnsFull | turnsEmpty => cases hx

theorem move_ended {fs : List (Thread conf × Event)} {o o' : Option (Thread conf × SectionPc)}
    {s s' : Shared} (he : s.endOfFile = true) (hm : Moves (search conf) s o o' s' fs) :
    s'.endOfFile = true := by
  cases hm with
  | goes t hb =>
    rcases goes_ended hb with heq | ⟨htrue, -⟩
    · rwa [heq]
    · exact htrue
  | _ => exact he

theorem owed_removed (o : Option (Thread conf × SectionPc)) (s : Shared) :
    removed (owed o s) = [] := by
  unfold owed
  split <;> rfl

theorem pending_source (o : Option (Thread conf × SectionPc)) (s : Shared) :
    (pending o s).source = s.source := by
  unfold pending
  split <;> rfl

theorem drained_removed {es : List (Thread conf × Event)} {o : Option (Thread conf × SectionPc)}
    {s : Shared} (hp : Progress conf file es o s) (hq : Drained o s) :
    removed (dataOf es) = numbered (records 1000 file) := by
  have haccount := account hp.records
  have hsource := hp.records.source_eq
  rw [pending_source, hp.ended hq.1, records_none rfl, List.append_nil] at hsource
  rw [held_empty conf _ hq.2, hsource, List.append_nil, removed, List.filterMap_append] at haccount
  have howed : List.filterMap BufferMachine.Event.removedValue (owed o s) = [] := owed_removed o s
  rwa [howed, List.append_nil] at haccount

section Runs
variable {w : State conf}

theorem returned_ended (hb : 1 ≤ conf.bufferLength)
    (hr : Reachable (machine conf) (main conf file) w) (t : Thread conf)
    (ht : w.pc t = .returned) : w.shared.endOfFile = true := by
  obtain ⟨o, -, -, hq⟩ := returned_induction (fun _ => True) Fits
    (fun o s => ∃ es, Progress conf file es o s) (fun _ s => s.endOfFile = true) (initial file)
    initialValue ⟨[], initial_progress conf hb file⟩ (fun _ hw t => fits hw t)
    (fun _ _ _ _ _ ⟨es, hp⟩ hm => ⟨_, move_progress hp hm⟩)
    (fun _ _ _ _ _ _ hq hm => move_ended hq hm)
    (fun _ _ _ _ _ ⟨es, hp⟩ hb => stops_ended hp hb) hr
  exact hq t trivial ht

theorem returned_drained (hb : 1 ≤ conf.bufferLength) {as : List (Thread conf)}
    {es : List (Thread conf × Event)} (hr : run (machine conf) as (main conf file) = some (w, es))
    (i : Fin conf.numberOfConsumers) (ht : w.pc (.consumer i) = .returned) :
    removed (dataOf es) = numbered (records 1000 file) := by
  obtain ⟨o, hi, -, hq⟩ := returned_induction (fun t => ∃ i, t = .consumer i) Fits
    (fun o s => ∃ es, Progress conf file es o s) Drained (initial file) initialValue
    ⟨[], initial_progress conf hb file⟩ (fun _ hw t => fits hw t)
    (fun _ _ _ _ _ ⟨es, hp⟩ hm => ⟨_, move_progress hp hm⟩)
    (fun _ _ _ _ _ ⟨es, hp⟩ hq hm => move_drained hp hq hm)
    (fun _ _ _ hk hf ⟨es, hp⟩ hb => stops_drained hk hf hp hb) ⟨as, es, hr⟩
  obtain ⟨o', hi', hp⟩ := run_progress hb hr
  cases hi.unique hi'
  exact drained_removed hp (hq _ ⟨i, rfl⟩ ht)

theorem fullSem_open (hr : Reachable (machine conf) (main conf file) w) : Open w .fullSem :=
  hr.induction (P := fun w => Open w .fullSem) (Or.inl Nat.one_pos)
    (fun _ _ _ _ ho hs => open_step ho (step_does hs))

theorem posted_open {v : State conf} {t : Thread conf} {code : ℤ}
    {fs : List (Thread conf × Event)} (hpc : w.pc t = .inside (.add (.postEmpty code)))
    (hd : Does (search conf) w t v fs) : Open v .emptySem := by
  cases hd with
  | @posts p q gate hp hb =>
    cases hpc.symm.trans hp
    cases hb
    exact posts_open w t _ _
  | goes hp hb =>
    cases hpc.symm.trans hp
    cases hb
  | leaves hp hb =>
    cases hpc.symm.trans hp
    cases hb
  | enters hp | passes hp | reposts hp => cases hpc.symm.trans hp

theorem ended_open (hr : Reachable (machine conf) (main conf file) w)
    (he : w.shared.endOfFile = true) :
    Open w .emptySem ∨ ∃ t, w.pc t = .inside (.add (.postEmpty (-1))) := by
  refine hr.induction (P := fun w => w.shared.endOfFile = true →
    Open w .emptySem ∨ ∃ t, w.pc t = .inside (.add (.postEmpty (-1))))
    (fun h => by cases h) ?_ he
  intro w t v fs ih hs hv
  have hd := step_does hs
  have hstill : w.shared.endOfFile = true →
      Open v .emptySem ∨ ∃ u, v.pc u = .inside (.add (.postEmpty (-1))) := by
    intro hw
    rcases ih hw with ho | ⟨u, hu⟩
    · exact Or.inl (open_step ho hd)
    · by_cases hut : u = t
      · subst hut
        exact Or.inl (posted_open hu hd)
      · exact Or.inr ⟨u, (hd.other hut).trans hu⟩
  cases hd with
  | @goes p q s events hpc hb =>
    rcases goes_ended hb with heq | ⟨-, rfl⟩
    · exact hstill (heq ▸ hv)
    · exact Or.inr ⟨t, go_same ..⟩
  | _ => exact hstill hv

/-- The threads that have not returned do not all wait. -/
theorem not_all_blocked (hb : 1 ≤ conf.bufferLength) (hp : 1 ≤ conf.numberOfProducers)
    (hr : Reachable (machine conf) (main conf file) w) (t : Thread conf) (ht : w.pc t ≠ .returned) :
    ¬ ∀ u, w.pc u ≠ .returned → Blocked w u := by
  intro hall
  obtain ⟨as, es, hrun⟩ := hr
  have hreach : Reachable (machine conf) (main conf file) w := ⟨as, es, hrun⟩
  obtain ⟨o, hi, -⟩ := run_progress hb hrun
  have hwait := all_blocked hi hall
  have hfull := fullSem_open hreach
  by_cases hproducer : w.pc (.producer ⟨0, hp⟩) = .returned
  · have hempty : Open w .emptySem := by
      rcases ended_open hreach (returned_ended hb hreach _ hproducer) with ho | ⟨u, hu⟩
      · exact ho
      · obtain ⟨gate, hpc, -⟩ := hwait u (by simp [hu])
        rw [hu] at hpc
        cases hpc
    obtain ⟨gate, -, hshut⟩ := hwait t ht
    cases gate with
    | emptySem => exact hshut hempty
    | fullSem => exact hshut hfull
  · obtain ⟨gate, hpc, hshut⟩ := hwait _ hproducer
    have hfits := fits hreach (.producer ⟨0, hp⟩)
    rw [hpc] at hfits
    cases gate with
    | emptySem => exact hfits
    | fullSem => exact hshut hfull

/-- While some thread has not returned, some thread can take its next step. -/
theorem someone_steps (hb : 1 ≤ conf.bufferLength) (hp : 1 ≤ conf.numberOfProducers)
    (hr : Reachable (machine conf) (main conf file) w) (t : Thread conf)
    (ht : w.pc t ≠ .returned) : ∃ u v fs, machine conf w u = some (v, fs) := by
  by_contra hnone
  refine not_all_blocked hb hp hr t ht (fun u hu => blocked_of_none (c := search conf) ?_ hu)
  cases hstep : machine conf w u with
  | none => exact hstep
  | some x => exact absurd ⟨u, x.1, x.2, hstep⟩ hnone

/-- Under every schedule with a producer, a consumer and a place in the buffer:
one thread at most is inside a section, the threads that have not returned are
never all blocked, and when all have returned each record of the file has been
removed exactly once, in the order of the file. -/
theorem search_never_stuck (conf : Conf) (hb : 1 ≤ conf.bufferLength)
    (hp : 1 ≤ conf.numberOfProducers) (hc : 1 ≤ conf.numberOfConsumers) (file : Text)
    (as : List (Thread conf)) (w : State conf) (es : List (Thread conf × Event))
    (hr : run (machine conf) as (main conf file) = some (w, es)) :
    (∀ t u p q, w.pc t = .inside p → w.pc u = .inside q → t = u) ∧
    ¬ ((∃ t, w.pc t ≠ .returned) ∧ ∀ t, w.pc t ≠ .returned → Blocked w t) ∧
    ((∀ t, w.pc t = .returned) → removed (dataOf es) = numbered (records 1000 file)) := by
  obtain ⟨o, hi, -⟩ := run_progress hb hr
  refine ⟨fun t u p q => one_inside hi, ?_, fun hall => returned_drained hb hr ⟨0, hc⟩ (hall _)⟩
  rintro ⟨⟨t, ht⟩, hall⟩
  exact not_all_blocked hb hp ⟨as, es, hr⟩ t ht hall

end Runs

/-- The consumer comes first and waits for `emptySem`, is let through by the
record, and takes it. Both threads then return. -/
def smallSchedule : List (Thread smallConf) :=
  List.replicate 3 smallConsumer++List.replicate 8 smallProducer++
    List.replicate 10 smallConsumer++List.replicate 6 smallProducer++List.replicate 4 smallConsumer

theorem search_never_stuck_small : ∃ w es,
    run (machine smallConf) smallSchedule (main smallConf [97, 10]) = some (w, es) ∧
    (∀ t u p q, w.pc t = .inside p → w.pc u = .inside q → t = u) ∧
    ¬ ((∃ t, w.pc t ≠ .returned) ∧ ∀ t, w.pc t ≠ .returned → Blocked w t) ∧
    ((∀ t, w.pc t = .returned) → removed (dataOf es) = numbered (records 1000 [97, 10])) := by
  have hr : run (machine smallConf) smallSchedule (main smallConf [97, 10]) = some (_, _) := rfl
  exact ⟨_, _, hr,
    search_never_stuck smallConf (by decide) (by decide) (by decide) _ _ _ _ hr⟩

end Semestr4.GateProgress
