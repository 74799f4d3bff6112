import Semestr4.BufferInvariant

/-!
# No wake-up of the buffer is missed

Consumers sleep only on an empty buffer before the end of the file, producers
only on a full one, because the broadcasts cover every step that ends such a
state. A producer returns only at the end of the file and a consumer only when
the buffer is empty as well, so some thread always remains awake.
-/

set_option autoImplicit false

namespace Semestr4.BufferProgress
open Semestr4.ScheduledRun Semestr4.ByteText Semestr4.CircularBuffer Semestr4.ConditionMonitor
open Semestr4.BufferMachine Semestr4.BufferInvariant

def Sound (conf : Conf) (s : Shared) : Prop :=
  Placed conf s ∧ (s.endOfFile = true → s.source = [])

def EmptyOpen (s : Shared) : Prop := s.numberOfElements = 0 ∧ s.endOfFile = false

def Drained (s : Shared) : Prop := s.endOfFile = true ∧ s.numberOfElements = 0

theorem initial_sound (conf : Conf) (hb : 1 ≤ conf.bufferLength) (file : Text) :
    Sound conf (initial file) :=
  ⟨(initial_invariant conf hb file).placed, by simp [initial]⟩

theorem body_sound {conf : Conf} {s : Shared} (t : Thread conf) (h : Sound conf s) :
    Sound conf (body conf t s).shared := by
  obtain ⟨hp, he⟩ := h
  have hd := body_does conf s t
  generalize body conf t s = o at hd
  cases hd with
  | stores i hn buffer rest hf line hl =>
    refine ⟨store_placed hp hn line rest, ?_⟩
    intro hflag
    simp [fgets, he hflag] at hf
  | takes i hn => exact ⟨release_placed hp hn, he⟩
  | ends i hs => exact ⟨⟨hp.1, hp.2, hp.3, hp.4, hp.5⟩, fun _ => hs⟩
  | _ => exact ⟨hp, he⟩

section Runs

variable {conf : Conf} {file : Text} {w : State conf}

/-- Consumers are the sleepers on `empty`. The store that makes the count one
and the end of the file broadcast on it. -/
theorem sleeping_on_empty (hb : 1 ≤ conf.bufferLength)
    (hr : Reachable (machine conf) (main conf file) w) (t : Thread conf)
    (ht : w.phase t = .asleep .empty) : EmptyOpen w.shared := by
  refine asleep_induction (Sound conf) (fun _ => True) .empty EmptyOpen (initial file)
    (initial_sound conf hb file) (fun s t h => body_sound t h) ?_ ?_ hr t trivial ht
  · intro s t _ _ hx
    have hd := body_does conf s t
    generalize body conf t s = o at hd hx
    cases hd with
    | waitsEmpty i hn he => exact ⟨hn, he⟩
    | _ => simp at hx
  · intro s t _ hq hsignal
    have hd := body_does conf s t
    generalize body conf t s = o at hd hsignal
    cases hd with
    | stores i hn buffer rest hf line hl => simp [hq.1] at hsignal
    | ends i hs => simp at hsignal
    | takes i hn => exact absurd hq.1 hn
    | _ => exact hq

theorem sleeping_on_full (hb : 1 ≤ conf.bufferLength)
    (hr : Reachable (machine conf) (main conf file) w) (t : Thread conf)
    (ht : w.phase t = .asleep .full) : w.shared.numberOfElements = conf.bufferLength := by
  refine asleep_induction (Sound conf) (fun _ => True) .full
    (fun s => s.numberOfElements = conf.bufferLength) (initial file)
    (initial_sound conf hb file) (fun s t h => body_sound t h) ?_ ?_ hr t trivial ht
  · intro s t _ _ hx
    have hd := body_does conf s t
    generalize body conf t s = o at hd hx
    cases hd with
    | waitsFull i hn => exact hn
    | _ => simp at hx
  · intro s t _ hq hsignal
    have hd := body_does conf s t
    generalize body conf t s = o at hd hsignal
    cases hd with
    | stores i hn buffer rest hf line hl => exact absurd hq hn
    | takes i hn => simp [hq] at hsignal
    | _ => exact hq

theorem producer_not_on_empty (hb : 1 ≤ conf.bufferLength)
    (hr : Reachable (machine conf) (main conf file) w) (i : Fin conf.numberOfProducers) :
    w.phase (.producer i) ≠ .asleep .empty := by
  intro ht
  refine asleep_induction (Sound conf) (fun t => ∃ j, t = .producer j) .empty (fun _ => False)
    (initial file) (initial_sound conf hb file) (fun s t h => body_sound t h) ?_
    (fun _ _ _ hq _ => hq) hr (.producer i) ⟨i, rfl⟩ ht
  rintro s _ _ ⟨j, rfl⟩ hx
  have hd := body_does conf s (.producer j)
  generalize body conf (.producer j) s = o at hd hx
  cases hd <;> simp at hx

theorem consumer_not_on_full (hb : 1 ≤ conf.bufferLength)
    (hr : Reachable (machine conf) (main conf file) w) (i : Fin conf.numberOfConsumers) :
    w.phase (.consumer i) ≠ .asleep .full := by
  intro ht
  refine asleep_induction (Sound conf) (fun t => ∃ j, t = .consumer j) .full (fun _ => False)
    (initial file) (initial_sound conf hb file) (fun s t h => body_sound t h) ?_
    (fun _ _ _ hq _ => hq) hr (.consumer i) ⟨i, rfl⟩ ht
  rintro s _ _ ⟨j, rfl⟩ hx
  have hd := body_does conf s (.consumer j)
  generalize body conf (.consumer j) s = o at hd hx
  cases hd <;> simp at hx

theorem returned_producer (hb : 1 ≤ conf.bufferLength)
    (hr : Reachable (machine conf) (main conf file) w) (i : Fin conf.numberOfProducers)
    (ht : w.phase (.producer i) = .returned) : w.shared.endOfFile = true := by
  refine returned_induction (Sound conf) (fun t => ∃ j, t = .producer j)
    (fun s => s.endOfFile = true) (initial file) (initial_sound conf hb file)
    (fun s t h => body_sound t h) ?_ ?_ hr (.producer i) ⟨i, rfl⟩ ht
  · rintro s _ _ ⟨j, rfl⟩ hx
    have hd := body_does conf s (.producer j)
    generalize body conf (.producer j) s = o at hd hx
    cases hd with
    | ends i hs => rfl
    | _ => simp at hx
  · intro s t _ hq
    have hd := body_does conf s t
    generalize body conf t s = o at hd
    cases hd with
    | ends i hs => rfl
    | _ => exact hq

theorem returned_consumer (hb : 1 ≤ conf.bufferLength)
    (hr : Reachable (machine conf) (main conf file) w) (i : Fin conf.numberOfConsumers)
    (ht : w.phase (.consumer i) = .returned) : Drained w.shared := by
  refine returned_induction (Sound conf) (fun t => ∃ j, t = .consumer j) Drained (initial file)
    (initial_sound conf hb file) (fun s t h => body_sound t h) ?_ ?_ hr (.consumer i) ⟨i, rfl⟩ ht
  · rintro s _ _ ⟨j, rfl⟩ hx
    have hd := body_does conf s (.consumer j)
    generalize body conf (.consumer j) s = o at hd hx
    cases hd with
    | drains i hn he r => exact ⟨he, hn⟩
    | _ => simp at hx
  · intro s t hs hq
    have hd := body_does conf s t
    generalize body conf t s = o at hd
    cases hd with
    | stores i hn buffer rest hf line hl => simp [fgets, hs.2 hq.1] at hf
    | takes i hn => exact absurd hq.2 hn
    | ends i _ => exact ⟨rfl, hq.2⟩
    | _ => exact hq

/-- Where one thread sleeps, another one neither sleeps nor has returned. -/
theorem someone_awake (hb : 1 ≤ conf.bufferLength) (hp : 1 ≤ conf.numberOfProducers)
    (hc : 1 ≤ conf.numberOfConsumers) (hr : Reachable (machine conf) (main conf file) w)
    (t : Thread conf) (c : Cond) (ht : w.phase t = .asleep c) :
    ∃ u, w.phase u ≠ .returned ∧ ∀ d, w.phase u ≠ .asleep d := by
  cases c with
  | empty =>
    obtain ⟨hn, he⟩ := sleeping_on_empty hb hr t ht
    refine ⟨.producer ⟨0, hp⟩, ?_, ?_⟩
    · intro hret
      have hflag := returned_producer hb hr _ hret
      rw [hflag] at he
      exact absurd he (by decide)
    · intro d hd
      cases d with
      | empty => exact producer_not_on_empty hb hr _ hd
      | full =>
        have := sleeping_on_full hb hr _ hd
        omega
  | full =>
    have hn := sleeping_on_full hb hr t ht
    refine ⟨.consumer ⟨0, hc⟩, ?_, ?_⟩
    · intro hret
      have := (returned_consumer hb hr _ hret).2
      omega
    · intro d hd
      cases d with
      | empty =>
        have := (sleeping_on_empty hb hr _ hd).1
        omega
      | full => exact consumer_not_on_full hb hr _ hd

theorem awake_enabled (u : Thread conf) (hret : w.phase u ≠ .returned)
    (hawake : ∀ d, w.phase u ≠ .asleep d) :
    (machine conf w (.enter u)).isSome ∨ (machine conf w (.resume u)).isSome := by
  cases hu : w.phase u with
  | ready => simp [machine, step, hu]
  | asleep d => exact absurd hu (hawake d)
  | woken => simp [machine, step, hu]
  | returned => exact absurd hu hret

/-- While some thread has not returned, some thread can go on without waiting
for a spurious wake-up. -/
theorem someone_enabled (hb : 1 ≤ conf.bufferLength) (hp : 1 ≤ conf.numberOfProducers)
    (hc : 1 ≤ conf.numberOfConsumers) (hr : Reachable (machine conf) (main conf file) w)
    (t : Thread conf) (ht : w.phase t ≠ .returned) :
    ∃ u, (machine conf w (.enter u)).isSome ∨ (machine conf w (.resume u)).isSome := by
  by_cases hs : ∃ c, w.phase t = .asleep c
  · obtain ⟨c, hc'⟩ := hs
    obtain ⟨u, hu, hawake⟩ := someone_awake hb hp hc hr t c hc'
    exact ⟨u, awake_enabled u hu hawake⟩
  · exact ⟨t, awake_enabled t ht (fun c hc' => hs ⟨c, hc'⟩)⟩

end Runs

theorem consumer_returns_drained (conf : Conf) (hb : 1 ≤ conf.bufferLength) (file : Text)
    (as : List (Action (Thread conf))) (w : State conf) (es : List Event)
    (hr : run (machine conf) as (main conf file) = some (w, es))
    (i : Fin conf.numberOfConsumers) (ht : w.phase (.consumer i) = .returned) :
    removed es = numbered (records 1000 file) := by
  have hreach : Reachable (machine conf) (main conf file) w := ⟨as, es, hr⟩
  have hi := machine_invariant conf hb file as w es hr
  obtain ⟨he, hn⟩ := returned_consumer hb hreach i ht
  have hsound : Sound conf w.shared := hreach.induction (P := fun w => Sound conf w.shared)
    (initial_sound conf hb file) (fun w a v fs h hs => by
      rcases step_cases hs with ⟨t, -, rfl, -⟩ | ⟨hsh, -⟩
      · exact body_sound t h
      · rw [hsh]
        exact h)
  have hsource := hi.source_eq
  rw [hsound.2 he, records_none rfl, List.append_nil] at hsource
  have ha := account hi
  rwa [held_empty conf w.shared hn, List.append_nil, hsource] at ha

/-- Under every schedule with a producer, a consumer and a place in the buffer:
the threads that have not returned are never all asleep, no thread sleeps when
all others have returned, and when all have returned each record of the file
has been removed exactly once. -/
theorem buffer_never_stuck (conf : Conf) (hb : 1 ≤ conf.bufferLength)
    (hp : 1 ≤ conf.numberOfProducers) (hc : 1 ≤ conf.numberOfConsumers) (file : Text)
    (as : List (Action (Thread conf))) (w : State conf) (es : List Event)
    (hr : run (machine conf) as (main conf file) = some (w, es)) :
    ¬ ((∃ t, w.phase t ≠ .returned) ∧
      ∀ t, w.phase t ≠ .returned → ∃ c, w.phase t = .asleep c) ∧
    (∀ t, (∀ u, u ≠ t → w.phase u = .returned) → ∀ c, w.phase t ≠ .asleep c) ∧
    ((∀ t, w.phase t = .returned) → removed es = numbered (records 1000 file)) := by
  have hreach : Reachable (machine conf) (main conf file) w := ⟨as, es, hr⟩
  refine ⟨?_, ?_, ?_⟩
  · rintro ⟨⟨t, ht⟩, hall⟩
    obtain ⟨c, hsleep⟩ := hall t ht
    obtain ⟨u, hu, hawake⟩ := someone_awake hb hp hc hreach t c hsleep
    obtain ⟨d, hd⟩ := hall u hu
    exact hawake d hd
  · intro t hothers c ht
    obtain ⟨u, hu, hawake⟩ := someone_awake hb hp hc hreach t c ht
    by_cases hut : u = t
    · subst hut
      exact hawake c ht
    · exact hu (hothers u hut)
  · intro hall
    exact consumer_returns_drained conf hb file as w es hr ⟨0, hc⟩ (hall _)

/-- The consumer comes first and sleeps, is woken by the store and takes the
only record of the file. Both threads then return. -/
def smallSchedule : List (Action (Thread smallConf)) :=
  [.enter smallConsumer, .enter smallProducer, .resume smallConsumer,
    .enter smallConsumer, .enter smallProducer, .enter smallConsumer]

theorem buffer_never_stuck_small : ∃ w es,
    run (machine smallConf) smallSchedule (main smallConf [97, 10]) = some (w, es) ∧
    ¬ ((∃ t, w.phase t ≠ .returned) ∧
      ∀ t, w.phase t ≠ .returned → ∃ c, w.phase t = .asleep c) ∧
    (∀ t, (∀ u, u ≠ t → w.phase u = .returned) → ∀ c, w.phase t ≠ .asleep c) ∧
    ((∀ t, w.phase t = .returned) → removed es = numbered (records 1000 [97, 10])) := by
  have hr : run (machine smallConf) smallSchedule (main smallConf [97, 10]) = some (_, _) := rfl
  exact ⟨_, _, hr,
    buffer_never_stuck smallConf (by decide) (by decide) (by decide) _ _ _ _ hr⟩

end Semestr4.BufferProgress
