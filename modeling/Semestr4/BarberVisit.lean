import Semestr4.BarberQueue

/-!
# The client at the chair stays

A visit begins when a client wakes the barber or sits in the waiting room and
ends when it leaves, shaved or not. If no client runs between waking the barber
and his reaction, the client at the chair is in the visit that brought it there.
-/

set_option autoImplicit false

namespace Semestr4.BarberVisit
open Semestr4.ScheduledRun Semestr4.BarberMachine Semestr4.BarberQueue

variable {ι : Type*}

def Event.visit (pid : ℤ) (inside : Bool) : Event → Bool
  | .clientWakesBarber p => if p = pid then true else inside
  | .clientWaits p => if p = pid then true else inside
  | .clientLeaves p => if p = pid then false else inside
  | .clientLeavesFull p => if p = pid then false else inside
  | _ => inside

def inVisit (es : List Event) (pid : ℤ) : Bool := es.foldl (Event.visit pid) false

theorem inVisit_snoc (es : List Event) (e : Event) (pid : ℤ) :
    inVisit (es++[e]) pid = Event.visit pid (inVisit es pid) e := by
  simp [inVisit, List.foldl_append]

def Serving (s : State ι) : Prop :=
  s.data.status ∈ [.wakes, .sitsFirst, .sits, .start, .end_, .leaves]

instance (s : State ι) : Decidable (Serving s) := inferInstanceAs (Decidable (_ ∈ _))

/-- The client at the chair is in its service loop, in the visit that brought
it there. -/
def ChairAttended (shop : Shop ι) (es : List Event) (s : State ι) : Prop :=
  Serving s → ∃ c, shop.pid c = s.data.clientPid ∧
    (s.clients c).i < shop.numberOfShaves c ∧ inVisit es (shop.pid c) = true

/-- The round is not that of the client which has just woken the barber, with
its flag still zero. -/
def BarberFirst (shop : Shop ι) (s : State ι) (a : Process ι) : Prop :=
  ∀ c, a = .client c → ¬ (s.data.status = .wakes ∧ s.data.clientPid = shop.pid c ∧
    (s.clients c).client = 0)

theorem BarberFirst.noSecondPlace {shop : Shop ι} {s : State ι} {a : Process ι}
    (h : BarberFirst shop s a) : NoSecondPlace shop s a :=
  fun c hc hbad => h c hc ⟨hbad.1, hbad.2.1, hbad.2.2.1⟩

structure Visiting (shop : Shop ι) (inside : ι → Prop) (s : State ι) : Prop where
  queue_inside : ∀ c, shop.pid c ∈ s.queue → inside c
  chair_inside : ∀ c, s.data.clientPid = shop.pid c → inside c
  inside_looping : ∀ c, inside c → (s.clients c).i < shop.numberOfShaves c

def insideAfter (shop : Shop ι) (es : List Event) (c : ι) : Prop :=
  inVisit es (shop.pid c) = true

theorem entered (shop : Shop ι) (es : List Event) (c : ι) {e : Event}
    (he : e = .clientWakesBarber (shop.pid c) ∨ e = .clientWaits (shop.pid c)) :
    insideAfter shop (es++[e]) = fun d => d = c ∨ insideAfter shop es d := by
  funext d
  have hp : shop.pid c = shop.pid d ↔ d = c := shop.pid_injective.eq_iff.trans eq_comm
  rcases he with rfl | rfl <;> by_cases h : d = c <;>
    simp [insideAfter, inVisit_snoc, Event.visit, hp, h]

theorem left (shop : Shop ι) (es : List Event) (c : ι) {e : Event}
    (he : e = .clientLeaves (shop.pid c) ∨ e = .clientLeavesFull (shop.pid c)) :
    insideAfter shop (es++[e]) = fun d => d ≠ c ∧ insideAfter shop es d := by
  funext d
  have hp : shop.pid c = shop.pid d ↔ d = c := shop.pid_injective.eq_iff.trans eq_comm
  rcases he with rfl | rfl <;> by_cases h : d = c <;>
    simp [insideAfter, inVisit_snoc, Event.visit, hp, h]

theorem stayed (shop : Shop ι) (es : List Event) (c : ι) :
    insideAfter shop (es++[.clientSits (shop.pid c)]) = insideAfter shop es := by
  funext d
  simp [insideAfter, inVisit_snoc, Event.visit]

theorem barber_stayed (shop : Shop ι) (es : List Event) {s t : State ι} {fs : List Event}
    (hd : BarberDoes s t fs) : insideAfter shop (es++fs) = insideAfter shop es := by
  funext c
  cases hd <;> simp [insideAfter, inVisit_snoc, Event.visit]

theorem barber_visiting {shop : Shop ι} {inside : ι → Prop} {s t : State ι} {fs : List Event}
    (hcount : Counted shop.queueLength s) (hi : Visiting shop inside s)
    (hd : BarberDoes s t fs) : Visiting shop inside t := by
  obtain ⟨hqueue, hchair, hloop⟩ := hi
  cases hd with
  | invites h hpos pid rest hm =>
    obtain ⟨p, r, hq, hr⟩ := invites_nonempty hcount h hpos
    rw [hr, Option.getD_some] at hm
    cases hm
    rw [hq] at hqueue
    refine ⟨fun c hc => hqueue c (by simp [hc]), ?_, hloop⟩
    intro c hc
    exact hqueue c (List.mem_cons.mpr (Or.inl hc.symm))
  | fallsAsleep h hz =>
    refine ⟨hqueue, ?_, hloop⟩
    intro c hc
    exact absurd hc.symm (pid_ne_zero shop c)
  | _ => exact ⟨hqueue, hchair, hloop⟩

variable [DecidableEq ι]

theorem client_visiting {shop : Shop ι} {es fs : List Event} {s t : State ι} {c : ι}
    (hplaced : Placed shop s) (hi : Visiting shop (insideAfter shop es) s)
    (hlt : (s.clients c).i < shop.numberOfShaves c)
    (hok : BarberFirst shop s (.client c)) (hd : ClientDoes shop s c t fs) :
    Visiting shop (insideAfter shop (es++fs)) t := by
  obtain ⟨hqueue, hchair, hloop⟩ := hi
  cases hd with
  | wakesBarber h hp hc =>
    rw [entered shop es c (Or.inl rfl)]
    refine ⟨fun d hd => Or.inr (hqueue d hd), ?_, ?_⟩
    · intro d hd
      exact Or.inl (shop.pid_injective hd).symm
    · rintro d (rfl | hd)
      · exact hlt
      · exact hloop d hd
  | sitsFirst h hp =>
    rw [stayed]
    refine ⟨hqueue, hchair, ?_⟩
    intro d hd
    have := hloop d hd
    by_cases hdc : d = c
    · subst hdc
      simpa using this
    · simpa [Function.update_of_ne hdc] using this
  | sits h hp =>
    rw [stayed]
    exact ⟨hqueue, hchair, hloop⟩
  | leaves h hp =>
    obtain ⟨e, he, hm, -⟩ := hplaced.chair_taken (by simp [h]) (by simp [h])
    obtain rfl : c = e := shop.pid_injective (hp.symm.trans he)
    rw [left shop es c (Or.inl rfl)]
    refine ⟨?_, ?_, ?_⟩
    · intro d hd
      refine ⟨?_, hqueue d hd⟩
      rintro rfl
      exact hm hd
    · intro d hd
      exact absurd hd.symm (pid_ne_zero shop d)
    · rintro d ⟨hdc, hd⟩
      simpa [Function.update_of_ne hdc] using hloop d hd
  | leavesFull hc hp hf hq =>
    have hother : s.data.clientPid ≠ shop.pid c := fun h =>
      hok c rfl ⟨hplaced.woke hc h (hf h), h, hc⟩
    rw [left shop es c (Or.inr rfl)]
    refine ⟨?_, ?_, ?_⟩
    · intro d hd
      refine ⟨?_, hqueue d hd⟩
      rintro rfl
      exact hplaced.not_queued hc hd
    · intro d hd
      refine ⟨?_, hchair d hd⟩
      rintro rfl
      exact hother hd
    · rintro d ⟨hdc, hd⟩
      simpa [Function.update_of_ne hdc] using hloop d hd
  | waits hc hp hf hq =>
    rw [entered shop es c (Or.inr rfl)]
    refine ⟨?_, fun d hd => Or.inr (hchair d hd), ?_⟩
    · intro d hd
      rcases List.mem_append.mp hd with hd | hd
      · exact Or.inr (hqueue d hd)
      · exact Or.inl (shop.pid_injective (List.mem_singleton.mp hd))
    · intro d hd
      by_cases hdc : d = c
      · subst hdc
        simpa using hlt
      · simpa [Function.update_of_ne hdc] using hloop d (hd.resolve_left hdc)
  | nothing => simpa using Visiting.mk hqueue hchair hloop

theorem machine_visiting {shop : Shop ι} {es fs : List Event} {s t : State ι} {a : Process ι}
    (hcount : Counted shop.queueLength s) (hplaced : Placed shop s)
    (hi : Visiting shop (insideAfter shop es) s) (hok : BarberFirst shop s a)
    (h : machine shop s a = some (t, fs)) : Visiting shop (insideAfter shop (es++fs)) t := by
  rcases machine_cases h with ⟨-, hd⟩ | ⟨c, rfl, hlt, hd⟩
  · rw [barber_stayed shop es hd]
    exact barber_visiting hcount hi hd
  · exact client_visiting hplaced hi hlt hok hd

omit [DecidableEq ι] in
theorem initial_visiting (shop : Shop ι) : Visiting shop (insideAfter shop []) (initial shop) := by
  refine ⟨by simp [initial], ?_, by simp [insideAfter, inVisit]⟩
  intro c hc
  exact absurd hc.symm (pid_ne_zero shop c)

/-- In a run in which the barber always reacts before the client that woke him
runs again, the client at the chair is there whenever he serves it. -/
theorem chair_attended (shop : Shop ι) (as : List (Process ι))
    (hok : Meets (machine shop) (BarberFirst shop) (initial shop) as) (s : State ι)
    (es : List Event) (hr : run (machine shop) as (initial shop) = some (s, es)) :
    ChairAttended shop es s := by
  have hi := run_induction_meets (machine shop) (BarberFirst shop) (initial shop)
    (fun es s => Counted shop.queueLength s ∧ Placed shop s ∧
      Visiting shop (insideAfter shop es) s)
    ⟨initial_counted shop, initial_placed shop, initial_visiting shop⟩
    (fun es s a t fs hi hok h => ⟨machine_counted hi.1 h,
      machine_placed hi.1 hi.2.1 hok.noSecondPlace h,
      machine_visiting hi.1 hi.2.1 hi.2.2 hok h⟩) as hok s es hr
  intro hs
  obtain ⟨c, hc, -⟩ := hi.2.1.chair_taken (fun h => by simp [Serving, h] at hs)
    (fun h => by simp [Serving, h] at hs)
  have hin := hi.2.2.chair_inside c hc
  exact ⟨c, hc.symm, hi.2.2.inside_looping c hin, hin⟩

/-- Without a waiting room the client that has woken the barber finds the queue
full before he reacts, leaves and exits. -/
theorem woken_client_leaves : ∃ s es,
    run (machine (smallShop 0)) [.barber, .client (), .client ()] (initial (smallShop 0)) =
      some (s, es) ∧ ¬ ChairAttended (smallShop 0) es s := by
  refine ⟨_, _, rfl, ?_⟩
  intro h
  obtain ⟨⟨⟩, -, hlt, -⟩ := h (by decide)
  exact absurd hlt (by decide)

theorem chair_attended_small : ∃ s es,
    run (machine (smallShop 0)) [.barber, .client (), .barber, .client ()]
      (initial (smallShop 0)) = some (s, es) ∧
    s.data.status = .start ∧ ChairAttended (smallShop 0) es s := by
  have hr : run (machine (smallShop 0)) [.barber, .client (), .barber, .client ()]
      (initial (smallShop 0)) = some (_, _) := rfl
  refine ⟨_, _, hr, rfl, chair_attended (smallShop 0) _ ?_ _ _ hr⟩
  refine .cons ?_ rfl (.cons ?_ rfl (.cons ?_ rfl (.cons ?_ rfl .nil)))
  all_goals
    rintro ⟨⟩ h
    cases h <;> decide

end Semestr4.BarberVisit
