import Mathlib.Data.List.Nodup
import Semestr4.BarberMachine

/-!
# The waiting room and the chair

The counter of waiting clients, the message queue and the status always agree.
The process ids in the queue and at the chair are different as long as a client
that has woken the barber does not run again before the barber reacts: nothing
but its flag, still zero, then keeps it from joining the queue as well.
-/

set_option autoImplicit false

namespace Semestr4.BarberQueue
open Semestr4.ScheduledRun Semestr4.BarberMachine

variable {ι : Type*}

structure Counted (queueLength : ℤ) (s : State ι) : Prop where
  length_eq : s.data.queueLength = queueLength
  waiting_eq : s.data.waitingClients = s.queue.length + if s.data.status = .sits then 1 else 0
  waiting_le : s.data.waitingClients ≤ max queueLength 0

theorem invites_nonempty {queueLength : ℤ} {s : State ι} (hi : Counted queueLength s)
    (h : s.data.status = .invites) (hw : 0 < s.data.waitingClients) :
    ∃ pid rest, s.queue = pid::rest ∧ msgrcv s.queue = some (pid, rest) := by
  have heq := hi.waiting_eq
  rw [h, if_neg (by decide), Int.add_zero] at heq
  cases hq : s.queue with
  | nil =>
    rw [hq, List.length_nil] at heq
    omega
  | cons pid rest => exact ⟨pid, rest, rfl, rfl⟩

theorem barber_counted {queueLength : ℤ} {s t : State ι} {es : List Event}
    (hi : Counted queueLength s) (hd : BarberDoes s t es) : Counted queueLength t := by
  obtain ⟨hl, hw, hle⟩ := hi
  cases hd with
  | wakesUp h => exact ⟨hl, by simpa [h] using hw, hle⟩
  | startsCutting h => exact ⟨hl, by simpa [h] using hw, hle⟩
  | endsCutting h => exact ⟨hl, by simpa [h] using hw, hle⟩
  | invites h hpos pid rest hm =>
    obtain ⟨p, r, hq, hr⟩ := invites_nonempty ⟨hl, hw, hle⟩ h hpos
    rw [hr, Option.getD_some] at hm
    cases hm
    refine ⟨hl, ?_, hle⟩
    simpa [h, hq] using hw
  | fallsAsleep h hz => exact ⟨hl, by simpa [h] using hw, hle⟩
  | nothing => exact ⟨hl, hw, hle⟩

variable [DecidableEq ι]

theorem client_counted {shop : Shop ι} {queueLength : ℤ} {s t : State ι} {c : ι}
    {es : List Event} (hi : Counted queueLength s) (hd : ClientDoes shop s c t es) :
    Counted queueLength t := by
  obtain ⟨hl, hw, hle⟩ := hi
  cases hd with
  | wakesBarber h hp hc => exact ⟨hl, by simpa [h] using hw, hle⟩
  | sitsFirst h hp => exact ⟨hl, by simpa [h] using hw, hle⟩
  | sits h hp =>
    rw [if_pos h] at hw
    refine ⟨hl, ?_, ?_⟩ <;> dsimp only
    · rw [if_neg (by decide)]
      omega
    · omega
  | leaves h hp => exact ⟨hl, by simpa [h] using hw, hle⟩
  | leavesFull hc hp hf hq => exact ⟨hl, hw, hle⟩
  | waits hc hp hf hq =>
    have hlen : (msgsnd s.queue (shop.pid c)).length = s.queue.length+1 := by simp [msgsnd]
    refine ⟨hl, ?_, ?_⟩ <;> dsimp only
    · rw [hlen]
      omega
    · omega
  | nothing => exact ⟨hl, hw, hle⟩

theorem machine_counted {shop : Shop ι} {s t : State ι} {a : Process ι} {es : List Event}
    (hi : Counted shop.queueLength s) (h : machine shop s a = some (t, es)) :
    Counted shop.queueLength t := by
  rcases machine_cases h with ⟨-, hd⟩ | ⟨c, -, -, hd⟩
  · exact barber_counted hi hd
  · exact client_counted hi hd

omit [DecidableEq ι] in
theorem initial_counted (shop : Shop ι) : Counted shop.queueLength (initial shop) :=
  ⟨rfl, rfl, Int.le_max_right _ _⟩

/-- Every reachable state, under every order of the rounds. -/
theorem waiting_clients_counted (shop : Shop ι) (hq : 0 ≤ shop.queueLength) (s : State ι)
    (hr : Reachable (machine shop) (initial shop) s) :
    s.data.waitingClients = s.queue.length + (if s.data.status = .sits then 1 else 0) ∧
    0 ≤ s.data.waitingClients ∧ s.data.waitingClients ≤ shop.queueLength ∧
    (s.data.status = .invites → 0 < s.data.waitingClients → (msgrcv s.queue).isSome) := by
  have hi : Counted shop.queueLength s :=
    hr.induction (initial_counted shop) fun _ _ _ _ hi h => machine_counted hi h
  have hle := hi.waiting_le
  refine ⟨hi.waiting_eq, ?_, by omega, ?_⟩
  · rw [hi.waiting_eq]
    split <;> omega
  · intro h hw
    obtain ⟨pid, rest, -, hm⟩ := invites_nonempty hi h hw
    rw [hm]
    rfl

/-- The client wakes the barber, queues as well, is shaved and is called from
the queue again. -/
def wakeAndWait : List (Process Unit) :=
  [.barber, .client (), .client (), .barber, .client (), .barber, .barber, .client (), .barber]

theorem waiting_clients_counted_small : ∃ s es,
    run (machine (smallShop 1)) wakeAndWait (initial (smallShop 1)) = some (s, es) ∧
    s.data.waitingClients = s.queue.length + (if s.data.status = .sits then 1 else 0) ∧
    0 ≤ s.data.waitingClients ∧ s.data.waitingClients ≤ (smallShop 1).queueLength ∧
    (s.data.status = .invites → 0 < s.data.waitingClients → (msgrcv s.queue).isSome) := by
  have hr : run (machine (smallShop 1)) wakeAndWait (initial (smallShop 1)) = some (_, _) := rfl
  exact ⟨_, _, hr, waiting_clients_counted (smallShop 1) (by decide) _ ⟨_, _, hr⟩⟩

def occurrences (s : State ι) (pid : ℤ) : ℕ :=
  s.queue.count pid + if s.data.clientPid = pid then 1 else 0

def PidsApart (shop : Shop ι) (s : State ι) : Prop := ∀ c, occurrences s (shop.pid c) ≤ 1

/-- The round is not that of the client which has just woken the barber, with
its flag still zero and room left in the queue. -/
def NoSecondPlace (shop : Shop ι) (s : State ι) (a : Process ι) : Prop :=
  ∀ c, a = .client c → ¬ (s.data.status = .wakes ∧ s.data.clientPid = shop.pid c ∧
    (s.clients c).client = 0 ∧ s.data.waitingClients < s.data.queueLength)

structure Placed (shop : Shop ι) (s : State ι) : Prop where
  queue_nodup : s.queue.Nodup
  queue_flagged : ∀ p ∈ s.queue, ∃ c, p = shop.pid c ∧ (s.clients c).client = shop.pid c
  chair_free : s.data.status = .sleep ∨ s.data.status = .invites → s.data.clientPid = 0
  chair_taken : s.data.status ≠ .sleep → s.data.status ≠ .invites →
    ∃ c, s.data.clientPid = shop.pid c ∧ shop.pid c ∉ s.queue ∧
      (s.data.status ≠ .wakes → s.data.status ≠ .sitsFirst → (s.clients c).client = shop.pid c)

omit [DecidableEq ι] in
theorem pid_ne_zero (shop : Shop ι) (c : ι) : shop.pid c ≠ 0 := by
  have := shop.pid_pos c
  omega

omit [DecidableEq ι] in
theorem Placed.not_queued {shop : Shop ι} {s : State ι} (hi : Placed shop s) {c : ι}
    (hc : (s.clients c).client = 0) : shop.pid c ∉ s.queue := by
  intro hm
  obtain ⟨d, hd, hflag⟩ := hi.queue_flagged _ hm
  rw [← shop.pid_injective hd, hc] at hflag
  exact pid_ne_zero shop c hflag.symm

omit [DecidableEq ι] in
theorem Placed.woke {shop : Shop ι} {s : State ι} (hi : Placed shop s) {c : ι}
    (hc : (s.clients c).client = 0) (hp : s.data.clientPid = shop.pid c)
    (hf : s.data.status ≠ .sitsFirst) : s.data.status = .wakes := by
  by_contra hw
  have hz := pid_ne_zero shop c
  have hsleep : s.data.status ≠ .sleep := fun h => hz (hp ▸ hi.chair_free (Or.inl h))
  have hinvites : s.data.status ≠ .invites := fun h => hz (hp ▸ hi.chair_free (Or.inr h))
  obtain ⟨d, hd, -, hflag⟩ := hi.chair_taken hsleep hinvites
  have hcd : c = d := shop.pid_injective (hp.symm.trans hd)
  subst hcd
  rw [hflag hw hf] at hc
  exact hz hc

omit [DecidableEq ι] in
theorem barber_placed {shop : Shop ι} {s t : State ι} {es : List Event}
    (hcount : Counted shop.queueLength s) (hi : Placed shop s) (hd : BarberDoes s t es) :
    Placed shop t := by
  obtain ⟨hn, hq, hfree, htaken⟩ := hi
  cases hd with
  | wakesUp h =>
    obtain ⟨c, hc, hm, -⟩ := htaken (by simp [h]) (by simp [h])
    exact ⟨hn, hq, by simp, fun _ _ => ⟨c, hc, hm, fun _ hf => absurd rfl hf⟩⟩
  | startsCutting h =>
    obtain ⟨c, hc, hm, hflag⟩ := htaken (by simp [h]) (by simp [h])
    exact ⟨hn, hq, by simp, fun _ _ => ⟨c, hc, hm, fun _ _ => hflag (by simp [h]) (by simp [h])⟩⟩
  | endsCutting h =>
    obtain ⟨c, hc, hm, hflag⟩ := htaken (by simp [h]) (by simp [h])
    exact ⟨hn, hq, by simp, fun _ _ => ⟨c, hc, hm, fun _ _ => hflag (by simp [h]) (by simp [h])⟩⟩
  | invites h hpos pid rest hm =>
    obtain ⟨p, r, hqueue, hr⟩ := invites_nonempty hcount h hpos
    rw [hr, Option.getD_some] at hm
    cases hm
    rw [hqueue] at hn hq
    obtain ⟨hnot, hrest⟩ := List.nodup_cons.mp hn
    obtain ⟨c, hc, hflag⟩ := hq pid (by simp)
    exact ⟨hrest, fun x hx => hq x (by simp [hx]), by simp,
      fun _ _ => ⟨c, hc, hc ▸ hnot, fun _ _ => hflag⟩⟩
  | fallsAsleep h hz => exact ⟨hn, hq, fun _ => rfl, fun hs => absurd rfl hs⟩
  | nothing => exact ⟨hn, hq, hfree, htaken⟩

theorem flagged_update {shop : Shop ι} {queue : List ℤ} {clients : ι → Client}
    (hq : ∀ p ∈ queue, ∃ d, p = shop.pid d ∧ (clients d).client = shop.pid d) (c : ι)
    (own : Client) (hown : shop.pid c ∈ queue → own.client = shop.pid c) :
    ∀ p ∈ queue, ∃ d, p = shop.pid d ∧
      (Function.update clients c own d).client = shop.pid d := by
  intro p hp
  obtain ⟨d, rfl, hflag⟩ := hq p hp
  refine ⟨d, rfl, ?_⟩
  by_cases hdc : d = c
  · subst hdc
    rw [Function.update_self]
    exact hown hp
  · rw [Function.update_of_ne hdc]
    exact hflag

theorem client_placed {shop : Shop ι} {s t : State ι} {c : ι} {es : List Event}
    (hi : Placed shop s) (hd : ClientDoes shop s c t es)
    (hok : NoSecondPlace shop s (.client c)) : Placed shop t := by
  obtain ⟨hn, hq, hfree, htaken⟩ := id hi
  cases hd with
  | wakesBarber h hp hc =>
    exact ⟨hn, hq, by simp, fun _ _ => ⟨c, rfl, hi.not_queued hc, fun hw => absurd rfl hw⟩⟩
  | sitsFirst h hp =>
    obtain ⟨d, hd, hm, -⟩ := htaken (by simp [h]) (by simp [h])
    obtain rfl : c = d := shop.pid_injective (hp.symm.trans hd)
    exact ⟨hn, flagged_update hq c _ fun _ => rfl, by simp,
      fun _ _ => ⟨c, hp, hm, fun _ _ => by simp⟩⟩
  | sits h hp =>
    obtain ⟨d, hd, hm, hflag⟩ := htaken (by simp [h]) (by simp [h])
    exact ⟨hn, hq, by simp, fun _ _ => ⟨d, hd, hm, fun _ _ => hflag (by simp [h]) (by simp [h])⟩⟩
  | leaves h hp =>
    obtain ⟨d, hd, hm, -⟩ := htaken (by simp [h]) (by simp [h])
    obtain rfl : c = d := shop.pid_injective (hp.symm.trans hd)
    exact ⟨hn, flagged_update hq c _ fun hin => absurd hin hm, fun _ => rfl,
      fun _ hs => absurd rfl hs⟩
  | leavesFull hc hp hf hfull =>
    refine ⟨hn, flagged_update hq c _ fun hin => absurd hin (hi.not_queued hc), hfree, ?_⟩
    intro hs hinv
    obtain ⟨d, hd, hm, hflag⟩ := htaken hs hinv
    refine ⟨d, hd, hm, fun hw hsf => ?_⟩
    have hdflag := hflag hw hsf
    have hdc : d ≠ c := by
      rintro rfl
      exact pid_ne_zero shop d (hdflag.symm.trans hc)
    simpa [Function.update_of_ne hdc] using hdflag
  | waits hc hp hf hroom =>
    have hout := hi.not_queued hc
    have hother : s.data.clientPid ≠ shop.pid c := fun h =>
      hok c rfl ⟨hi.woke hc h (hf h), h, hc, hroom⟩
    refine ⟨?_, ?_, hfree, ?_⟩
    · exact List.nodup_append.mpr ⟨hn, List.nodup_singleton _, by
        rintro a ha b hb rfl
        exact hout (List.mem_singleton.mp hb ▸ ha)⟩
    · intro p hp'
      rcases List.mem_append.mp hp' with hin | hin
      · exact flagged_update hq c _ (fun hin => absurd hin hout) p hin
      · exact ⟨c, List.mem_singleton.mp hin, by simp⟩
    · intro hs hinv
      obtain ⟨d, hd, hm, hflag⟩ := htaken hs hinv
      have hdc : d ≠ c := fun h => hother (h ▸ hd)
      refine ⟨d, hd, ?_, fun hw hsf => ?_⟩
      · intro hin
        rcases List.mem_append.mp hin with hin | hin
        · exact hm hin
        · exact hdc (shop.pid_injective (List.mem_singleton.mp hin))
      · simpa [Function.update_of_ne hdc] using hflag hw hsf
  | nothing => exact hi

theorem machine_placed {shop : Shop ι} {s t : State ι} {a : Process ι} {es : List Event}
    (hcount : Counted shop.queueLength s) (hi : Placed shop s) (hok : NoSecondPlace shop s a)
    (h : machine shop s a = some (t, es)) : Placed shop t := by
  rcases machine_cases h with ⟨-, hd⟩ | ⟨c, rfl, -, hd⟩
  · exact barber_placed hcount hi hd
  · exact client_placed hi hd hok

omit [DecidableEq ι] in
theorem initial_placed (shop : Shop ι) : Placed shop (initial shop) :=
  ⟨List.nodup_nil, by simp [initial], fun _ => rfl, fun _ h => absurd rfl h⟩

omit [DecidableEq ι] in
theorem Placed.pids_apart {shop : Shop ι} {s : State ι} (hi : Placed shop s) :
    PidsApart shop s := by
  intro c
  have hone := List.nodup_iff_count_le_one.mp hi.queue_nodup (shop.pid c)
  unfold occurrences
  split
  · rename_i hp
    have hz := pid_ne_zero shop c
    obtain ⟨d, hd, hm, -⟩ := hi.chair_taken (fun h => hz (hp ▸ hi.chair_free (Or.inl h)))
      (fun h => hz (hp ▸ hi.chair_free (Or.inr h)))
    rw [hp] at hd
    rw [hd, List.count_eq_zero.mpr hm]
  · omega

theorem second_place {shop : Shop ι} {s t : State ι} {c : ι} {es : List Event}
    (h : machine shop s (.client c) = some (t, es)) (hw : s.data.status = .wakes)
    (hp : s.data.clientPid = shop.pid c) (hc : (s.clients c).client = 0)
    (hroom : s.data.waitingClients < s.data.queueLength) : ¬ PidsApart shop t := by
  have hz := pid_ne_zero shop c
  simp only [machine, Option.ite_none_right_eq_some, Option.some.injEq] at h
  have ht : t.data.clientPid = shop.pid c ∧ t.queue = s.queue ++ [shop.pid c] := by
    have hfull : ¬ s.data.queueLength ≤ s.data.waitingClients := by omega
    have hstep := h.2
    simp only [clientLogic, hw, hp, hc, hz, hfull, reduceCtorEq, false_and, ne_eq,
      not_false_eq_true, and_self, if_false, if_true] at hstep
    cases hstep
    exact ⟨rfl, rfl⟩
  intro hapart
  have hle := hapart c
  simp [occurrences, ht.1, ht.2] at hle

/-- A run keeps each process id in one place at most exactly when none of its
rounds is that of a client joining the queue while it is at the chair. -/
theorem pids_apart_iff (shop : Shop ι) (as : List (Process ι)) (s : State ι)
    (es : List Event) (hr : run (machine shop) as (initial shop) = some (s, es)) :
    Throughout (machine shop) (PidsApart shop) (initial shop) as ↔
      Meets (machine shop) (NoSecondPlace shop) (initial shop) as := by
  apply throughout_iff_meets (I := fun s => Counted shop.queueLength s ∧ Placed shop s)
    ⟨initial_counted shop, initial_placed shop⟩ (fun s hi => hi.2.pids_apart) ?_ ?_ hr
  · intro s a t fs hi hok h
    exact ⟨machine_counted hi.1 h, machine_placed hi.1 hi.2 hok h⟩
  · rintro s a t fs - h hapart c rfl ⟨hw, hp, hc, hroom⟩
    exact second_place h hw hp hc hroom hapart

/-- The client that has woken the barber runs before him and queues as well. -/
theorem woken_client_queues : ∃ s es,
    run (machine (smallShop 1)) [.barber, .client (), .client ()] (initial (smallShop 1)) =
      some (s, es) ∧ ¬ PidsApart (smallShop 1) s := by
  refine ⟨_, _, rfl, ?_⟩
  intro h
  exact absurd (h ()) (by decide)

theorem pids_apart_iff_small : ∃ s es,
    run (machine (smallShop 1)) wakeAndShave (initial (smallShop 1)) = some (s, es) ∧
    (Throughout (machine (smallShop 1)) (PidsApart (smallShop 1)) (initial (smallShop 1))
        wakeAndShave ↔
      Meets (machine (smallShop 1)) (NoSecondPlace (smallShop 1)) (initial (smallShop 1))
        wakeAndShave) := by
  have hr : run (machine (smallShop 1)) wakeAndShave (initial (smallShop 1)) = some (_, _) := rfl
  exact ⟨_, _, hr, pids_apart_iff (smallShop 1) _ _ _ hr⟩

end Semestr4.BarberQueue
