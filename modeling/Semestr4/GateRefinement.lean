import Semestr4.GateProgress
import Semestr4.LineSearch
import Semestr4.SectionRefinement

/-!
# The search with semaphores is the search with a mutex

Every passage through a section does what one call of `addToBuffer` or
`removeFromBuffer` does under the mutex. So what holds of the calls holds of the
statements of all threads in any order: the records keep their order, and the
lines found are the same.
-/

set_option autoImplicit false

namespace Semestr4.GateRefinement
open Semestr4.ScheduledRun Semestr4.ByteText Semestr4.CircularBuffer Semestr4.BufferInvariant
open Semestr4.BufferMachine hiding addToBuffer removeFromBuffer Event State main machine
open Semestr4.GatedSection Semestr4.BufferGates Semestr4.GateProgress Semestr4.SectionRefinement
open Semestr4.LineSearch

variable {conf : Conf}

def dataEvent : Event → Option BufferMachine.Event
  | .data event => some event
  | _ => none

theorem observed_data (es : List (Thread conf × Event)) : observed dataEvent es = dataOf es := by
  unfold observed dataOf
  congr 1
  funext ⟨t, e⟩
  cases e <;> rfl

/-- What is left of a passage: the shared data at its end, what is done to the
records, and how the section is left. -/
structure Rest where
  shared : Shared
  events : List BufferMachine.Event
  exit : Exit Gate

def Rest.before (events : List BufferMachine.Event) (r : Rest) : Rest :=
  { r with events := events++r.events }

theorem Rest.before_before (es fs : List BufferMachine.Event) (r : Rest) :
    (r.before fs).before es = r.before (es++fs) := by
  simp [Rest.before]

def afterStore (conf : Conf) (s : Shared) (buffer : Text) : Rest :=
  ⟨countAdded conf (storeLine s buffer),
    .stored (currentLine s buffer)::announce conf (strcpy buffer), result conf 0⟩

def afterFgets (conf : Conf) (s : Shared) : Rest :=
  match ByteText.fgets 1000 s.source with
  | some (buffer, rest) =>
    (afterStore conf { s with source := rest } buffer).before [.returned buffer]
  | none =>
    if conf.timeout = 0 then ⟨{ s with endOfFile := true }, [], result conf (-1)⟩
    else ⟨s, [], result conf 0⟩

def addRest (conf : Conf) (s : Shared) : AddPc → Rest
  | .ifFull =>
    if s.numberOfElements = conf.bufferLength then ⟨s, [], .turns .fullSem⟩ else afterFgets conf s
  | .fgets => afterFgets conf s
  | .store buffer => afterStore conf s buffer
  | .count => ⟨countAdded conf s, [], result conf 0⟩
  | .setEndOfFile => ⟨{ s with endOfFile := true }, [], result conf (-1)⟩
  | .ifOne => ⟨s, [], result conf 0⟩
  | .postEmpty code | .post code => ⟨s, [], result conf code⟩
  | .postFull => ⟨s, [], .turns .fullSem⟩

def afterTake (conf : Conf) (s : Shared) : Rest :=
  let line := s.buffer s.consumerPos
  ⟨countRemoved conf (takeLine s), report conf line++[.removed line], result conf 0⟩

def afterPresent (conf : Conf) (s : Shared) : Rest :=
  if s.endOfFile = true ∧ s.numberOfElements = 0 then ⟨s, [], result conf (-1)⟩
  else afterTake conf s

def removeRest (conf : Conf) (s : Shared) : RemovePc → Rest
  | .ifEmpty =>
    if s.numberOfElements = 0 ∧ s.endOfFile = false then ⟨s, [], .turns .emptySem⟩
    else afterPresent conf s
  | .ifEnd => afterPresent conf s
  | .take => afterTake conf s
  | .count => ⟨countRemoved conf s, [], result conf 0⟩
  | .ifOneLess => ⟨s, [], result conf 0⟩
  | .postFull code | .post code => ⟨s, [], result conf code⟩
  | .postEmpty => ⟨s, [], .turns .emptySem⟩

def rest (conf : Conf) (s : Shared) : SectionPc → Rest
  | .add pc => addRest conf s pc
  | .remove pc => removeRest conf s pc

def onward (conf : Conf) (s : Shared) : Statement Shared SectionPc Gate Event → Rest
  | .goes s' q events => (rest conf s' q).before (events.filterMap dataEvent)
  | .posts _ q => rest conf s q
  | .leaves exit => ⟨s, [], exit⟩

theorem data_filterMap (events : List BufferMachine.Event) :
    (events.map Event.data).filterMap dataEvent = events := by
  simp [List.filterMap_map, Function.comp_def, dataEvent]

theorem afterFgets_onward (s : Shared) :
    afterFgets conf s = onward conf s (addToBuffer conf s .fgets) := by
  rw [afterFgets, addToBuffer]
  cases ByteText.fgets 1000 s.source with
  | some x => rfl
  | none =>
    by_cases ht : conf.timeout = 0
    · simp only [if_pos ht]
      rfl
    · simp only [if_neg ht]
      rfl

theorem addRest_onward (s : Shared) (pc : AddPc) :
    addRest conf s pc = onward conf s (addToBuffer conf s pc) := by
  cases pc with
  | ifFull =>
    rw [addRest, addToBuffer]
    split <;> rfl
  | fgets => exact afterFgets_onward s
  | store buffer =>
    simp only [addToBuffer, onward, List.filterMap_cons, dataEvent, data_filterMap]
    simp [rest, addRest, afterStore, Rest.before]
  | ifOne =>
    rw [addToBuffer]
    split <;> rfl
  | _ => rfl

theorem removeRest_onward (s : Shared) (pc : RemovePc) :
    removeRest conf s pc = onward conf s (removeFromBuffer conf s pc) := by
  cases pc with
  | ifEmpty =>
    rw [removeRest, removeFromBuffer]
    split <;> rfl
  | ifEnd =>
    rw [removeRest, removeFromBuffer, afterPresent]
    split <;> rfl
  | take =>
    simp only [removeFromBuffer, onward, data_filterMap]
    simp [rest, removeRest, afterTake, Rest.before]
  | ifOneLess =>
    rw [removeFromBuffer]
    split <;> rfl
  | _ => rfl

theorem rest_onward (s : Shared) (p : SectionPc) :
    rest conf s p = onward conf s ((search conf).body p s) := by
  cases p with
  | add pc => exact addRest_onward s pc
  | remove pc => exact removeRest_onward s pc

theorem path_rest {p q : SectionPc} {s s' : Shared} {es : List Event}
    (h : Path (search conf) p s es q s') :
    rest conf s p = (rest conf s' q).before (es.filterMap dataEvent) := by
  induction h with
  | start => rfl
  | goes h hb ih =>
    rw [ih, rest_onward, hb, onward, Rest.before_before, List.filterMap_append]
  | posts h hb ih => rw [ih, rest_onward, hb, onward]

def exitOf : ConditionMonitor.Exit Cond Bool → Exit Gate
  | .waits .empty => .turns .emptySem
  | .waits .full => .turns .fullSem
  | .returns r => if r then .stops else .again

theorem exitOf_stops (x : ConditionMonitor.Exit Cond Bool) :
    x = .returns true ↔ exitOf x = .stops := by
  cases x with
  | waits k => cases k <;> simp [exitOf]
  | returns r => cases r <;> simp [exitOf]

theorem result_exitOf (code : ℤ) :
    result conf code = exitOf (.returns (code == -1 && conf.timeout == 0)) := by
  simp only [result, exitOf, Bool.and_eq_true, beq_iff_eq]

def ofCall (o : ConditionMonitor.Outcome Shared Cond Bool BufferMachine.Event) : Rest :=
  ⟨o.shared, o.events, exitOf o.exit⟩

theorem add_call (s : Shared) (i : Fin conf.numberOfProducers) :
    rest conf s (.add .ifFull) = ofCall (body conf (.producer i) s) := by
  simp only [rest, addRest, body, producerLogic, logic, BufferMachine.addToBuffer, afterFgets]
  by_cases hn : s.numberOfElements = conf.bufferLength
  · simp only [if_pos hn]
    rfl
  · simp only [if_neg hn]
    cases ByteText.fgets 1000 s.source with
    | some x => exact congrArg (Rest.mk _ _) (result_exitOf 0)
    | none =>
      by_cases ht : conf.timeout = 0
      · simp only [if_pos ht]
        exact congrArg (Rest.mk _ _) (result_exitOf (-1))
      · simp only [if_neg ht]
        exact congrArg (Rest.mk _ _) (result_exitOf 0)

theorem remove_call (s : Shared) (i : Fin conf.numberOfConsumers) :
    rest conf s (.remove .ifEmpty) = ofCall (body conf (.consumer i) s) := by
  simp only [rest, removeRest, body, consumerLogic, logic, BufferMachine.removeFromBuffer,
    afterPresent]
  split
  · rfl
  · split
    · exact congrArg (Rest.mk _ _) (result_exitOf (-1))
    · exact congrArg (Rest.mk _ _) (result_exitOf 0)

theorem entry_call (s : Shared) (t : Thread conf) :
    rest conf s ((search conf).entry t) = ofCall (body conf t s) := by
  cases t with
  | producer i => exact add_call s i
  | consumer i => exact remove_call s i

theorem search_refines (conf : Conf) : Refines (search conf) (body conf) dataEvent where
  passed _ := rfl
  call := by
    intro t s es p s' exit hpath hb
    have hcall := path_rest hpath
    rw [entry_call, rest_onward, hb, onward] at hcall
    have hexit : exitOf (body conf t s).exit = exit := congrArg Rest.exit hcall
    refine ⟨congrArg Rest.shared hcall, ?_, hexit ▸ exitOf_stops _⟩
    exact (congrArg Rest.events hcall).trans (List.append_nil _)

theorem run_simulates {file : Text} {as : List (Thread conf)} {w : State conf}
    {es : List (Thread conf × Event)} (hr : run (machine conf) as (main conf file) = some (w, es)) :
    ∃ bs v fs, run (BufferMachine.machine conf) bs (BufferMachine.main conf file) = some (v, fs) ∧
      Simulates (search conf) dataEvent w es v fs :=
  SectionRefinement.run_simulates (search_refines conf) (initial file) initialValue hr

/-- Every run of the search with semaphores has a run of the search with a mutex behind
it, in which the same threads have returned. It has done a first part of the same to the
records, and between two sections all of it, with the same shared data. -/
theorem gates_refine (conf : Conf) (file : Text) (as : List (Thread conf)) (w : State conf)
    (es : List (Thread conf × Event)) (hr : run (machine conf) as (main conf file) = some (w, es)) :
    ∃ bs v fs, run (BufferMachine.machine conf) bs (BufferMachine.main conf file) = some (v, fs) ∧
      (∀ t, w.pc t = .returned ↔ v.phase t = .returned) ∧ fs <+: dataOf es ∧
      (w.sem ≠ 0 → v.shared = w.shared ∧ fs = dataOf es) := by
  obtain ⟨bs, v, fs, hrun, hsim⟩ := run_simulates hr
  refine ⟨bs, v, fs, hrun, hsim.returned, ?_, fun hsem => ?_⟩
  · rw [← observed_data]
    exact hsim.observed_prefix
  · rw [← observed_data]
    exact hsim.between hsem

theorem gates_refine_small : ∃ w es,
    run (machine smallConf) smallSchedule (main smallConf [97, 10]) = some (w, es) ∧
    ∃ bs v fs, run (BufferMachine.machine smallConf) bs (BufferMachine.main smallConf [97, 10]) =
      some (v, fs) ∧ (∀ t, w.pc t = .returned ↔ v.phase t = .returned) ∧ fs <+: dataOf es ∧
      (w.sem ≠ 0 → v.shared = w.shared ∧ fs = dataOf es) := by
  have hr : run (machine smallConf) smallSchedule (main smallConf [97, 10]) = some (_, _) := rfl
  exact ⟨_, _, hr, gates_refine smallConf [97, 10] _ _ _ hr⟩

theorem numbered_prefix {bs cs : List Text} (h : bs <+: cs) : numbered bs <+: numbered cs := by
  obtain ⟨ds, rfl⟩ := h
  exact ⟨_, by rw [numbered, numbered, List.mapIdx_append]⟩

/-- After every schedule of the statements: what was removed is the beginning of the
records of the file, each with its number, and between two sections the count and the
positions fit what is stored. -/
theorem gates_keep_order (conf : Conf) (hb : 1 ≤ conf.bufferLength) (file : Text)
    (as : List (Thread conf)) (w : State conf) (es : List (Thread conf × Event))
    (hr : run (machine conf) as (main conf file) = some (w, es)) :
    removed (dataOf es) <+: numbered (records 1000 file) ∧
    (w.sem ≠ 0 → 0 ≤ w.shared.numberOfElements ∧
      w.shared.numberOfElements ≤ conf.bufferLength ∧
      w.shared.producerPos =
        (w.shared.consumerPos+w.shared.numberOfElements) % conf.bufferLength ∧
      removed (dataOf es)++held conf w.shared = numbered (returned (dataOf es)) ∧
      returned (dataOf es)++records 1000 w.shared.source = records 1000 file) := by
  obtain ⟨bs, v, fs, hrun, hsim⟩ := run_simulates hr
  constructor
  · obtain ⟨o, -, hp⟩ := run_progress hb hr
    have hsplit := account hp.records
    have howed : removed (owed o w.shared) = [] := by
      unfold owed
      split <;> rfl
    rw [removed_append, howed, List.append_nil] at hsplit
    exact (List.prefix_append _ _).trans
      (hsplit ▸ numbered_prefix ⟨_, hp.records.source_eq⟩)
  · intro hsem
    obtain ⟨hshared, hfs⟩ := hsim.between hsem
    rw [observed_data] at hfs
    subst hfs
    have hi := machine_invariant conf hb file bs v _ hrun
    rw [hshared] at hi
    exact ⟨hi.placed.count_nonneg, hi.placed.count_le, hi.placed.producer_eq, account hi,
      hi.source_eq⟩

theorem gates_keep_order_small : ∃ w es,
    run (machine smallConf) smallSchedule (main smallConf [97, 10]) = some (w, es) ∧
    removed (dataOf es) <+: numbered (records 1000 [97, 10]) ∧
    (w.sem ≠ 0 → 0 ≤ w.shared.numberOfElements ∧
      w.shared.numberOfElements ≤ smallConf.bufferLength ∧
      w.shared.producerPos =
        (w.shared.consumerPos+w.shared.numberOfElements) % smallConf.bufferLength ∧
      removed (dataOf es)++held smallConf w.shared = numbered (returned (dataOf es)) ∧
      returned (dataOf es)++records 1000 w.shared.source = records 1000 [97, 10]) := by
  have hr : run (machine smallConf) smallSchedule (main smallConf [97, 10]) = some (_, _) := rfl
  exact ⟨_, _, hr, gates_keep_order smallConf (by decide) [97, 10] _ _ _ hr⟩

theorem begun_extends {t : Thread conf} {p : SectionPc} {s s' : Shared}
    {gs : List BufferMachine.Event} (h : Begun (search conf) dataEvent s (some (t, p)) s' gs) :
    gs <+: (body conf t s).events := by
  obtain ⟨es, hpath, rfl⟩ := h
  have hrest := path_rest hpath
  rw [entry_call] at hrest
  exact ⟨_, (congrArg Rest.events hrest).symm⟩

theorem none_found {s : Shared} (hn : s.numberOfElements = 0) (t : Thread conf) (n : ℤ)
    (text : Text) : BufferMachine.Event.found n text ∉ (body conf t s).events := by
  have hd := body_does conf s t
  generalize body conf t s = o at hd
  cases hd with
  | stores i hn buffer tail hf line hl => simpa using announce_found conf _ n text
  | takes i hne => exact absurd hn hne
  | _ => exact List.not_mem_nil

/-- Once a consumer has returned, the lines that were printed are the records of the
wanted length with their numbers, wherever the other threads are. -/
theorem gates_find_records (conf : Conf) (h : Searchable conf) (file : Text) (hzero : 0 ∉ file)
    (as : List (Thread conf)) (w : State conf) (es : List (Thread conf × Event))
    (hr : run (machine conf) as (main conf file) = some (w, es))
    (i : Fin conf.numberOfConsumers) (ht : w.pc (.consumer i) = .returned) (n : ℤ) (text : Text) :
    .found n text ∈ dataOf es ↔ ∃ k : ℕ, n = k+1 ∧ (records 1000 file)[k]? = some text ∧
      Matches conf (text.length-1) := by
  obtain ⟨bs, v, fs, hrun, hsim⟩ := run_simulates hr
  have hv := (hsim.returned _).mp ht
  have hdrained := BufferProgress.returned_consumer h.place ⟨bs, fs, hrun⟩ i hv
  rw [← found_iff h hzero hrun hv, ← observed_data]
  obtain ⟨o, gs, -, hbegun, heq⟩ := hsim.passage
  have hnone : BufferMachine.Event.found n text ∉ gs := by
    cases o with
    | none => rw [hbegun.2]; exact List.not_mem_nil
    | some x => exact fun hmem => none_found hdrained.2 x.1 n text ((begun_extends hbegun).subset hmem)
  rw [heq, List.mem_append, or_iff_left hnone]

theorem gates_find_records_small : ∃ w es,
    run (machine smallConf) smallSchedule (main smallConf [97, 10]) = some (w, es) ∧
    w.pc smallConsumer = .returned ∧
    ∀ (n : ℤ) text, .found n text ∈ dataOf es ↔ ∃ k : ℕ, n = k+1 ∧
      (records 1000 [97, 10])[k]? = some text ∧ Matches smallConf (text.length-1) := by
  have hrun : (run (machine smallConf) smallSchedule (main smallConf [97, 10])).map
      (fun r => r.1.pc smallConsumer) = some .returned := rfl
  obtain ⟨⟨w, es⟩, hr, ht⟩ := Option.map_eq_some_iff.mp hrun
  exact ⟨w, es, hr, ht, gates_find_records smallConf ⟨by decide, by decide, by decide⟩ [97, 10]
    (by decide) smallSchedule w es hr ⟨0, by decide⟩ ht⟩

end Semestr4.GateRefinement
