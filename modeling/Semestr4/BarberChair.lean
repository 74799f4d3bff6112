import Semestr4.BarberMachine

/-!
# One client at the chair, one complete cut

The chair is an automaton of its own: somebody sits down, is cut from start to
end, and leaves. The barber's status refines it. No lock on the chair is needed,
because a client only sits down in the two statuses the barber sets for it, and
the steps from there on belong to the process id at the chair.
-/

set_option autoImplicit false

namespace Semestr4.BarberChair
open Semestr4.ScheduledRun Semestr4.BarberMachine

inductive Chair where
  | free
  | taken (pid : ℤ)
  | cutting (pid : ℤ)
  | done (pid : ℤ)
  deriving DecidableEq, Repr

/-- The events that concern the chair, in the only order it admits. -/
def Chair.follow : Chair → Event → Option Chair
  | .free, .clientSits p => some (.taken p)
  | .taken q, .barberStartsCutting p => if p = q then some (.cutting q) else none
  | .cutting q, .barberEndsCutting p => if p = q then some (.done q) else none
  | .done q, .clientLeaves p => if p = q then some .free else none
  | _, .clientSits _ => none
  | _, .barberStartsCutting _ => none
  | _, .barberEndsCutting _ => none
  | _, .clientLeaves _ => none
  | chair, _ => some chair

def concernsChair : Event → Bool
  | .clientSits _ => true
  | .barberStartsCutting _ => true
  | .barberEndsCutting _ => true
  | .clientLeaves _ => true
  | _ => false

/-- What is left of a cut until the client leaves. -/
def Chair.remaining : Chair → List Event
  | .taken p => [.barberStartsCutting p, .barberEndsCutting p]
  | .cutting p => [.barberEndsCutting p]
  | _ => []

def Chair.occupant : Chair → Option ℤ
  | .free => none
  | .taken p => some p
  | .cutting p => some p
  | .done p => some p

theorem follow_other {chair chair' : Chair} {e : Event} (he : concernsChair e = false)
    (h : chair.follow e = some chair') : chair' = chair := by
  cases e <;> simp_all [concernsChair, Chair.follow]

theorem follow_cut {chair chair' : Chair} {e : Event} {p : ℤ}
    (ho : chair.occupant = some p) (he : concernsChair e = true)
    (hl : ∀ q, e ≠ .clientLeaves q) (h : chair.follow e = some chair') :
    chair'.occupant = some p ∧ chair.remaining = e::chair'.remaining := by
  cases chair with
  | free => simp [Chair.occupant] at ho
  | taken r =>
    cases e with
    | barberStartsCutting x =>
      simp only [Chair.follow, Option.ite_none_right_eq_some, Option.some.injEq] at h
      obtain ⟨rfl, rfl⟩ := h
      exact ⟨ho, rfl⟩
    | _ => simp [Chair.follow, concernsChair] at h he
  | cutting r =>
    cases e with
    | barberEndsCutting x =>
      simp only [Chair.follow, Option.ite_none_right_eq_some, Option.some.injEq] at h
      obtain ⟨rfl, rfl⟩ := h
      exact ⟨ho, rfl⟩
    | _ => simp [Chair.follow, concernsChair] at h he
  | done r =>
    cases e with
    | clientLeaves x => exact absurd rfl (hl x)
    | _ => simp [Chair.follow, concernsChair] at h he

theorem accepted_cut {mid : List Event} {q p : ℤ} {chair chair' : Chair}
    (ho : chair.occupant = some p) (hl : ∀ r, Event.clientLeaves r ∉ mid)
    (h : (mid ++ [Event.clientLeaves q]).foldlM Chair.follow chair = some chair') :
    q = p ∧ mid.filter concernsChair = chair.remaining := by
  induction mid generalizing chair with
  | nil =>
    cases chair with
    | free => simp [Chair.occupant] at ho
    | done r =>
      simp only [Chair.occupant, Option.some.injEq] at ho
      simp only [List.nil_append, List.foldlM_cons, Chair.follow] at h
      obtain ⟨next, hnext, -⟩ := Option.bind_eq_some_iff.mp h
      rw [Option.ite_none_right_eq_some] at hnext
      exact ⟨hnext.1.trans ho, rfl⟩
    | _ => simp [Chair.follow] at h
  | cons e mid ih =>
    rw [List.cons_append, List.foldlM_cons] at h
    obtain ⟨next, hnext, hrest⟩ := Option.bind_eq_some_iff.mp h
    have hlrest : ∀ r, Event.clientLeaves r ∉ mid := fun r hr => hl r (by simp [hr])
    cases he : concernsChair e with
    | false =>
      obtain rfl := follow_other he hnext
      rw [List.filter_cons_of_neg (by simp [he])]
      exact ih ho hlrest hrest
    | true =>
      obtain ⟨ho', hcut⟩ := follow_cut ho he (fun r hr => hl r (by simp [hr])) hnext
      obtain ⟨hq, hf⟩ := ih ho' hlrest hrest
      rw [List.filter_cons_of_pos he, hf, hcut]
      exact ⟨hq, rfl⟩

variable {ι : Type*}

def chairOf (s : State ι) : Chair :=
  match s.data.status with
  | .start => .taken s.data.clientPid
  | .end_ => .cutting s.data.clientPid
  | .leaves => .done s.data.clientPid
  | _ => .free

theorem barber_follows {s t : State ι} {es : List Event} (hd : BarberDoes s t es) :
    es.foldlM Chair.follow (chairOf s) = some (chairOf t) := by
  cases hd with
  | nothing => rfl
  | _ => simp [chairOf, Chair.follow, *]

variable [DecidableEq ι]

theorem client_follows {shop : Shop ι} {s t : State ι} {c : ι} {es : List Event}
    (hd : ClientDoes shop s c t es) :
    es.foldlM Chair.follow (chairOf s) = some (chairOf t) := by
  cases hd with
  | nothing => rfl
  | leavesFull hc hp hf hq => cases h : s.data.status <;> simp [chairOf, Chair.follow, h]
  | waits hc hp hf hq => cases h : s.data.status <;> simp [chairOf, Chair.follow, h]
  | _ => simp [chairOf, Chair.follow, *]

theorem run_follows (shop : Shop ι) (as : List (Process ι)) (s : State ι) (es : List Event)
    (hr : run (machine shop) as (initial shop) = some (s, es)) :
    es.foldlM Chair.follow .free = some (chairOf s) :=
  run_followed (machine shop) Chair.follow (initial shop) (fun _ => True) chairOf trivial
    (fun _ _ _ _ _ h => by
      rcases machine_cases h with ⟨-, hd⟩ | ⟨c, -, -, hd⟩
      · exact ⟨trivial, barber_follows hd⟩
      · exact ⟨trivial, client_follows hd⟩) as s es hr

/-- In every run, between a client sitting down and the next client leaving the
chair: the two are the same process, nobody else sits down, and the barber
starts and ends exactly one cut, of that process. -/
theorem cut_exclusive_complete (shop : Shop ι) (as : List (Process ι)) (s : State ι)
    (es : List Event) (hr : run (machine shop) as (initial shop) = some (s, es))
    (before mid after : List Event) (p q : ℤ)
    (hes : es = before ++ Event.clientSits p :: (mid ++ Event.clientLeaves q :: after))
    (hl : ∀ r, Event.clientLeaves r ∉ mid) :
    q = p ∧ mid.filter concernsChair = [.barberStartsCutting p, .barberEndsCutting p] := by
  have h := run_follows shop as s es hr
  have hsplit : es =
      before ++ ([Event.clientSits p] ++ ((mid ++ [Event.clientLeaves q]) ++ after)) := by
    simp [hes]
  rw [hsplit, List.foldlM_append] at h
  obtain ⟨c₁, -, h⟩ := Option.bind_eq_some_iff.mp h
  rw [List.foldlM_append] at h
  obtain ⟨c₂, hsits, h⟩ := Option.bind_eq_some_iff.mp h
  rw [List.foldlM_append] at h
  obtain ⟨c₃, hcut, -⟩ := Option.bind_eq_some_iff.mp h
  have hc : c₂ = .taken p := by
    cases c₁ <;> simp_all [Chair.follow]
  subst hc
  exact accepted_cut rfl hl hcut

theorem cut_exclusive_complete_small : ∃ s es,
    run (machine (smallShop 0)) wakeAndShave (initial (smallShop 0)) = some (s, es) ∧
    es = [.barberFallsAsleep, .clientWakesBarber 2, .barberWakesUp] ++ .clientSits 2 ::
      ([.barberStartsCutting 2, .barberEndsCutting 2] ++ [.clientLeaves 2]) ∧
    (2:ℤ) = 2 ∧
    [Event.barberStartsCutting 2, .barberEndsCutting 2].filter concernsChair =
      [.barberStartsCutting 2, .barberEndsCutting 2] := by
  have hr : run (machine (smallShop 0)) wakeAndShave (initial (smallShop 0)) = some (_, _) := rfl
  exact ⟨_, _, hr, rfl,
    cut_exclusive_complete (smallShop 0) _ _ _ hr
      [.barberFallsAsleep, .clientWakesBarber 2, .barberWakesUp]
      [.barberStartsCutting 2, .barberEndsCutting 2] [] 2 2 rfl (by simp)⟩

end Semestr4.BarberChair
