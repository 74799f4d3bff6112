import Mathlib.Logic.Function.Basic
import Semestr4.ScheduledRun

/-!
# The shutdown of the queue server

The server takes requests off its queue without waiting and answers them. After
a request to end it goes on until it has found the queue empty once, and then
removes the queue. A registered client sends its requests one at a time and
waits for each answer, and stops after a request to end.
-/

set_option autoImplicit false

namespace Semestr4.QueueServer
open Semestr4.ScheduledRun

variable {ι : Type*}

inductive Kind where
  | mirror
  | time
  | calc
  | stop
  deriving DecidableEq, Repr

structure Request (ι : Type*) where
  client : ι
  kind : Kind
  deriving DecidableEq, Repr

/-- The next statement of `receive`. -/
inductive Pc (ι : Type*) where
  /-- `msgrcv` with `IPC_NOWAIT` -/
  | receive
  /-- the test of `closeFlag`, without a message -/
  | test
  | handle (r : Request ι)
  /-- `msgctl` with `IPC_RMID` -/
  | remove
  | closed
  deriving DecidableEq, Repr

structure Client where
  script : List Kind
  waiting : Bool
  answers : ℕ
  deriving DecidableEq, Repr

structure State (ι : Type*) where
  pc : Pc ι
  closeFlag : Bool
  queue : List (Request ι)
  clients : ι → Client

inductive Choice (ι : Type*) where
  | server
  | send (i : ι)
  | getAnswer (i : ι)
  deriving DecidableEq, Repr

inductive Event (ι : Type*) where
  | sent (r : Request ι)
  /-- sent after the server found the queue empty for the last time -/
  | late (r : Request ι)
  | refused (r : Request ι)
  | handled (r : Request ι)
  | answered (r : Request ι)
  | discarded (r : Request ι)
  deriving DecidableEq, Repr

def initial (scripts : ι → List Kind) : State ι where
  pc := .receive
  closeFlag := false
  queue := []
  clients := fun i => ⟨scripts i, false, 0⟩

def State.Closing (s : State ι) : Prop := (s.pc = .test ∧ s.closeFlag = true) ∨ s.pc = .remove

instance [DecidableEq ι] (s : State ι) : Decidable s.Closing :=
  inferInstanceAs (Decidable (_ ∨ _))

section
variable [DecidableEq ι]

/-- The client after a request. After `END` it removes its queue and leaves. -/
def Client.sent (c : Client) (k : Kind) (rest : List Kind) : Client :=
  if k = .stop then { c with script := [] } else { c with script := rest, waiting := true }

/-- A request is answered by a message to the queue of its client, `END` is not. -/
def handle (s : State ι) (r : Request ι) : State ι × List (Event ι) :=
  if r.kind = .stop then ({ s with pc := .receive, closeFlag := true }, [.handled r])
  else
    let c := s.clients r.client
    ({ s with
        pc := .receive
        clients := Function.update s.clients r.client { c with answers := c.answers+1 } },
      [.handled r, .answered r])

def serverStep (s : State ι) : Option (State ι × List (Event ι)) :=
  match s.pc with
  | .receive => match s.queue with
    | [] => some ({ s with pc := .test }, [])
    | r::rest => some ({ s with pc := .handle r, queue := rest }, [])
  | .test => some ({ s with pc := if s.closeFlag then .remove else .receive }, [])
  | .handle r => some (handle s r)
  | .remove => some ({ s with pc := .closed, queue := [] }, s.queue.map .discarded)
  | .closed => none

/-- A request to a queue that is removed fails. -/
def sendStep (s : State ι) (i : ι) : Option (State ι × List (Event ι)) :=
  let c := s.clients i
  match c.waiting, c.script with
  | false, k::rest =>
    let clients' := Function.update s.clients i (c.sent k rest)
    if s.pc = .closed then some ({ s with clients := clients' }, [.refused ⟨i, k⟩])
    else some ({ s with clients := clients', queue := s.queue++[⟨i, k⟩] },
      .sent ⟨i, k⟩::if s.Closing then [.late ⟨i, k⟩] else [])
  | _, _ => none

def step : Step (State ι) (Choice ι) (Event ι)
  | s, .server => serverStep s
  | s, .send i => sendStep s i
  | s, .getAnswer i =>
    let c := s.clients i
    let c' := { c with waiting := false, answers := c.answers-1 }
    if c.waiting ∧ 0 < c.answers then
      some ({ s with clients := Function.update s.clients i c' }, [])
    else none

end

def InTime (s : State ι) : Choice ι → Prop
  | .send _ => ¬ s.Closing
  | _ => True

def InTimeOrEnd (s : State ι) : Choice ι → Prop
  | .send i => s.Closing → (s.clients i).script.head? = some .stop
  | _ => True

def sent (es : List (Event ι)) : List (Request ι) :=
  es.filterMap fun e => match e with
    | .sent r => some r
    | _ => none

def late (es : List (Event ι)) : List (Request ι) :=
  es.filterMap fun e => match e with
    | .late r => some r
    | _ => none

def handled (es : List (Event ι)) : List (Request ι) :=
  es.filterMap fun e => match e with
    | .handled r => some r
    | _ => none

def answered (es : List (Event ι)) : List (Request ι) :=
  es.filterMap fun e => match e with
    | .answered r => some r
    | _ => none

def discarded (es : List (Event ι)) : List (Request ι) :=
  es.filterMap fun e => match e with
    | .discarded r => some r
    | _ => none

def Pc.inHand : Pc ι → List (Request ι)
  | .handle r => [r]
  | _ => []

def Late (es : List (Event ι)) (s : State ι) : Prop :=
  (s.Closing → late es = s.queue ∧ discarded es = []) ∧
  (s.pc = .closed → late es = discarded es ∧ s.queue = []) ∧
  (¬ s.Closing → s.pc ≠ .closed → late es = [] ∧ discarded es = [])

structure Invariant (es : List (Event ι)) (s : State ι) : Prop where
  account : sent es = handled es++s.pc.inHand++s.queue++discarded es
  answers : answered es = (handled es).filter (·.kind ≠ .stop)
  late : Late es s

section
variable (es fs : List (Event ι))

theorem sent_append : sent (es++fs) = sent es++sent fs := List.filterMap_append

theorem late_append : late (es++fs) = late es++late fs := List.filterMap_append

theorem handled_append : handled (es++fs) = handled es++handled fs := List.filterMap_append

theorem answered_append : answered (es++fs) = answered es++answered fs := List.filterMap_append

theorem discarded_append : discarded (es++fs) = discarded es++discarded fs :=
  List.filterMap_append

end

theorem answers_still {es fs : List (Event ι)}
    (h : answered es = (handled es).filter (·.kind ≠ .stop)) (hanswered : answered fs = [])
    (hhandled : handled fs = []) :
    answered (es++fs) = (handled (es++fs)).filter (·.kind ≠ .stop) := by
  rwa [answered_append, handled_append, hanswered, hhandled, List.append_nil, List.append_nil]

theorem discarded_all (rs : List (Request ι)) : discarded (rs.map .discarded) = rs := by
  induction rs with
  | nil => rfl
  | cons r rs ih => exact congrArg (r::·) ih

theorem discarded_else (rs : List (Request ι)) :
    sent (rs.map .discarded) = [] ∧ late (rs.map .discarded) = [] ∧
      handled (rs.map .discarded) = [] ∧ answered (rs.map .discarded) = [] := by
  induction rs with
  | nil => exact ⟨rfl, rfl, rfl, rfl⟩
  | cons r rs ih => exact ih

variable [DecidableEq ι]

theorem handle_spec (s : State ι) (r : Request ι) :
    (handle s r).1.pc = .receive ∧ (handle s r).1.queue = s.queue ∧
      sent (handle s r).2 = [] ∧ late (handle s r).2 = [] ∧ handled (handle s r).2 = [r] ∧
      answered (handle s r).2 = [r].filter (·.kind ≠ .stop) ∧ discarded (handle s r).2 = [] := by
  by_cases hk : r.kind = .stop <;> simp [handle, hk, sent, late, handled, answered, discarded]

theorem handle_invariant {s : State ι} {r : Request ι} {es : List (Event ι)}
    (hi : Invariant es s) (hpc : s.pc = .handle r) :
    Invariant (es++(handle s r).2) (handle s r).1 := by
  obtain ⟨haccount, hanswers, -, -, hopen⟩ := hi
  have hc : ¬ s.Closing := by simp [State.Closing, hpc]
  obtain ⟨hlate, hdiscarded⟩ := hopen hc (by simp [hpc])
  rw [hpc] at haccount
  obtain ⟨hpc', hqueue, hsent, hlate', hhandled, hanswered, hdiscarded'⟩ := handle_spec s r
  refine ⟨?_, ?_, ?_, by simp [hpc'], ?_⟩
  · rw [sent_append, handled_append, discarded_append, haccount, hsent, hhandled, hdiscarded',
      hpc', hqueue]
    simp [Pc.inHand]
  · rw [answered_append, handled_append, hanswers, hanswered, hhandled, List.filter_append]
  · intro hc'
    simp [State.Closing, hpc'] at hc'
  · intro _ _
    rw [late_append, discarded_append, hlate, hdiscarded, hlate', hdiscarded']
    exact ⟨rfl, rfl⟩

omit [DecidableEq ι] in
/-- What waits when the queue is removed came after the last receipt. -/
theorem remove_invariant {s : State ι} {es : List (Event ι)} (hi : Invariant es s)
    (hpc : s.pc = .remove) :
    Invariant (es++s.queue.map .discarded) { s with pc := .closed, queue := [] } := by
  obtain ⟨haccount, hanswers, hclosing, -, -⟩ := hi
  obtain ⟨hlate, hdiscarded⟩ := hclosing (Or.inr hpc)
  rw [hpc] at haccount
  obtain ⟨hsent, hlate', hhandled, hanswered⟩ := discarded_else s.queue
  refine ⟨?_, answers_still hanswers hanswered hhandled, ?_, ?_, ?_⟩
  · rw [sent_append, handled_append, discarded_append, haccount, hsent, hhandled,
      discarded_all, hdiscarded]
    simp [Pc.inHand]
  · intro hc'
    simp [State.Closing] at hc'
  · intro _
    rw [late_append, discarded_append, hlate', discarded_all, hlate, hdiscarded]
    simp
  · intro _ hne
    exact absurd rfl hne

theorem server_invariant {s t : State ι} {es fs : List (Event ι)} (hi : Invariant es s)
    (hs : serverStep s = some (t, fs)) : Invariant (es++fs) t := by
  obtain ⟨haccount, hanswers, hclosing, hover, hopen⟩ := hi
  unfold serverStep at hs
  cases hpc : s.pc with
  | receive =>
    have hc : ¬ s.Closing := by simp [State.Closing, hpc]
    obtain ⟨hlate, hdiscarded⟩ := hopen hc (by simp [hpc])
    rw [hpc] at haccount hs
    cases hq : s.queue with
    | nil =>
      simp only [hq, Option.some.injEq, Prod.mk.injEq] at hs
      obtain ⟨rfl, rfl⟩ := hs
      rw [List.append_nil]
      refine ⟨by simpa [Pc.inHand, hq] using haccount, hanswers, ?_, by simp, ?_⟩
      · exact fun _ => ⟨hlate, hdiscarded⟩
      · exact fun _ _ => ⟨hlate, hdiscarded⟩
    | cons r rest =>
      simp only [hq, Option.some.injEq, Prod.mk.injEq] at hs
      obtain ⟨rfl, rfl⟩ := hs
      rw [List.append_nil]
      refine ⟨by simpa [Pc.inHand, hq] using haccount, hanswers, ?_, by simp, ?_⟩
      · intro hc'
        simp [State.Closing] at hc'
      · exact fun _ _ => ⟨hlate, hdiscarded⟩
  | test =>
    rw [hpc] at haccount hs
    simp only [Option.some.injEq, Prod.mk.injEq] at hs
    obtain ⟨rfl, rfl⟩ := hs
    rw [List.append_nil]
    cases hflag : s.closeFlag with
    | true =>
      have hc : s.Closing := Or.inl ⟨hpc, hflag⟩
      exact ⟨by simpa [Pc.inHand] using haccount, hanswers, fun _ => hclosing hc, by simp,
        fun hno => absurd (Or.inr rfl) hno⟩
    | false =>
      have hc : ¬ s.Closing := by simp [State.Closing, hpc, hflag]
      refine ⟨by simpa [Pc.inHand] using haccount, hanswers, ?_, by simp, ?_⟩
      · intro hc'
        simp [State.Closing] at hc'
      · exact fun _ _ => hopen hc (by simp [hpc])
  | handle r =>
    rw [hpc] at hs
    have hstep : handle s r = (t, fs) := Option.some.inj hs
    have hhandled := handle_invariant ⟨haccount, hanswers, hclosing, hover, hopen⟩ hpc
    rwa [hstep] at hhandled
  | remove =>
    rw [hpc] at hs
    cases hs
    exact remove_invariant ⟨haccount, hanswers, hclosing, hover, hopen⟩ hpc
  | closed =>
    rw [hpc] at hs
    cases hs

theorem send_invariant {s t : State ι} {i : ι} {es fs : List (Event ι)} (hi : Invariant es s)
    (hs : sendStep s i = some (t, fs)) : Invariant (es++fs) t := by
  obtain ⟨haccount, hanswers, hclosing, hover, hopen⟩ := hi
  simp only [sendStep] at hs
  split at hs
  · rename_i k rest hwaiting hscript
    by_cases hpc : s.pc = .closed
    · -- the request is refused
      rw [if_pos hpc] at hs
      cases hs
      obtain ⟨hlate, hqueue⟩ := hover hpc
      have hc : ¬ s.Closing := by simp [State.Closing, hpc]
      refine ⟨?_, answers_still hanswers rfl rfl, fun hc' => absurd hc' hc, ?_,
        fun _ hne => absurd hpc hne⟩
      · rw [sent_append, handled_append, discarded_append, haccount]
        simp [sent, handled, discarded]
      · intro _
        rw [late_append, discarded_append, hlate]
        simpa [late, discarded] using hqueue
    · rw [if_neg hpc] at hs
      cases hs
      have hdiscarded : discarded es = [] := by
        by_cases hc : s.Closing
        · exact (hclosing hc).2
        · exact (hopen hc hpc).2
      by_cases hc : s.Closing
      · rw [if_pos hc]
        refine ⟨?_, answers_still hanswers rfl rfl, ?_, fun h => absurd h hpc,
          fun hno => absurd hc hno⟩
        · rw [sent_append, handled_append, discarded_append, haccount, hdiscarded]
          simp [sent, handled, discarded]
        · intro _
          rw [late_append, discarded_append, (hclosing hc).1, hdiscarded]
          simp [late, discarded]
      · rw [if_neg hc]
        refine ⟨?_, answers_still hanswers rfl rfl, fun h => absurd h hc,
          fun h => absurd h hpc, ?_⟩
        · rw [sent_append, handled_append, discarded_append, haccount, hdiscarded]
          simp [sent, handled, discarded]
        · intro _ _
          rw [late_append, discarded_append, (hopen hc hpc).1, hdiscarded]
          exact ⟨rfl, rfl⟩
  · cases hs

theorem step_invariant {s t : State ι} {a : Choice ι} {es fs : List (Event ι)}
    (hi : Invariant es s) (hs : step s a = some (t, fs)) : Invariant (es++fs) t := by
  cases a with
  | server => exact server_invariant hi hs
  | send i => exact send_invariant hi hs
  | getAnswer i =>
    simp only [step, Option.ite_none_right_eq_some, Option.some.injEq, Prod.mk.injEq] at hs
    obtain ⟨-, rfl, rfl⟩ := hs
    rw [List.append_nil]
    exact ⟨hi.account, hi.answers, hi.late⟩

omit [DecidableEq ι] in
theorem initial_invariant (scripts : ι → List Kind) : Invariant [] (initial scripts) := by
  refine ⟨rfl, rfl, ?_, ?_, fun _ _ => ⟨rfl, rfl⟩⟩
  · intro h
    simp [State.Closing, initial] at h
  · intro h
    cases h

theorem run_invariant {scripts : ι → List Kind} {as : List (Choice ι)} {s : State ι}
    {es : List (Event ι)} (hr : run step as (initial scripts) = some (s, es)) : Invariant es s :=
  run_induction step (initial scripts) Invariant (initial_invariant scripts)
    (fun _ _ _ _ _ hi hs => step_invariant hi hs) as s es hr

omit [DecidableEq ι] in
theorem mem_late {es : List (Event ι)} {r : Request ι} : r ∈ late es ↔ Event.late r ∈ es := by
  simp only [late, List.mem_filterMap]
  constructor
  · rintro ⟨e, he, her⟩
    cases e <;> simp at her
    subst her
    exact he
  · exact fun h => ⟨_, h, rfl⟩

theorem server_late {s t : State ι} {fs : List (Event ι)} (hs : serverStep s = some (t, fs)) :
    late fs = [] := by
  unfold serverStep at hs
  cases hpc : s.pc with
  | receive =>
    rw [hpc] at hs
    cases hq : s.queue <;> simp only [hq, Option.some.injEq, Prod.mk.injEq] at hs <;>
      rw [← hs.2] <;> rfl
  | test =>
    rw [hpc] at hs
    cases hs
    rfl
  | handle r =>
    rw [hpc] at hs
    have hl := (handle_spec s r).2.2.2.1
    rwa [Option.some.inj hs] at hl
  | remove =>
    rw [hpc] at hs
    cases hs
    exact (discarded_else s.queue).2.1
  | closed =>
    rw [hpc] at hs
    cases hs

theorem send_late {s t : State ι} {i : ι} {fs : List (Event ι)}
    (hs : sendStep s i = some (t, fs)) : ∃ k, (s.clients i).script.head? = some k ∧
      late fs = if s.Closing then [⟨i, k⟩] else [] := by
  simp only [sendStep] at hs
  split at hs
  · rename_i k rest hwaiting hscript
    refine ⟨k, by rw [hscript]; rfl, ?_⟩
    by_cases hpc : s.pc = .closed
    · have hc : ¬ s.Closing := by simp [State.Closing, hpc]
      rw [if_pos hpc] at hs
      cases hs
      rw [if_neg hc]
      rfl
    · rw [if_neg hpc] at hs
      cases hs
      by_cases hc : s.Closing
      · rw [if_pos hc, if_pos hc]
        rfl
      · rw [if_neg hc, if_neg hc]
        rfl
  · cases hs

theorem step_late {s t : State ι} {a : Choice ι} {fs : List (Event ι)}
    (hs : step s a = some (t, fs)) :
    (InTime s a ↔ late fs = []) ∧ (InTimeOrEnd s a ↔ ∀ r ∈ late fs, r.kind = .stop) := by
  cases a with
  | server =>
    rw [server_late hs]
    simp [InTime, InTimeOrEnd]
  | send i =>
    obtain ⟨k, hk, hl⟩ := send_late hs
    by_cases hc : s.Closing <;> simp [InTime, InTimeOrEnd, hl, hk, hc]
  | getAnswer i =>
    simp only [step, Option.ite_none_right_eq_some, Option.some.injEq, Prod.mk.injEq] at hs
    obtain ⟨-, -, rfl⟩ := hs
    simp [InTime, InTimeOrEnd, late]

omit [DecidableEq ι] in
theorem late_nil_iff (es : List (Event ι)) :
    late es = [] ↔ ∀ e ∈ es, ¬ ∃ r, e = .late r := by
  rw [List.eq_nil_iff_forall_not_mem]
  constructor
  · rintro h e he ⟨r, rfl⟩
    exact h r (mem_late.mpr he)
  · exact fun h r hr => h _ (mem_late.mp hr) ⟨r, rfl⟩

omit [DecidableEq ι] in
theorem late_ends_iff (es : List (Event ι)) :
    (∀ r ∈ late es, r.kind = .stop) ↔ ∀ e ∈ es, ¬ ∃ r, e = .late r ∧ r.kind ≠ .stop := by
  constructor
  · rintro h e he ⟨r, rfl, hr⟩
    exact hr (h r (mem_late.mpr he))
  · intro h r hr
    by_contra hk
    exact h _ (mem_late.mp hr) ⟨r, rfl, hk⟩

omit [DecidableEq ι] in
theorem Invariant.kept {es : List (Event ι)} {s : State ι} (hi : Invariant es s)
    (hs : s.pc ≠ .closed) : discarded es = [] := by
  by_cases hc : s.Closing
  · exact (hi.late.1 hc).2
  · exact (hi.late.2.2 hc hs).2

/-- What is handled is answered except for the requests to end, and when the
server is over it has handled what was sent except for what it discarded. It
discards no request exactly if none is sent after its last receipt, and only
requests to end exactly if only such are sent after it. -/
theorem nothing_discarded_iff (scripts : ι → List Kind) (as : List (Choice ι)) (s : State ι)
    (es : List (Event ι)) (hr : run step as (initial scripts) = some (s, es)) :
    answered es = (handled es).filter (·.kind ≠ .stop) ∧
    (s.pc = .closed → sent es = handled es++discarded es) ∧
    (discarded es = [] ↔ (s.pc = .closed → Meets step InTime (initial scripts) as)) ∧
    ((∀ r ∈ discarded es, r.kind = .stop) ↔
      (s.pc = .closed → Meets step InTimeOrEnd (initial scripts) as)) := by
  have hi := run_invariant hr
  have hin : Meets step InTime (initial scripts) as ↔ late es = [] := by
    rw [late_nil_iff]
    exact meets_iff_events
      (fun s a t fs h => (step_late h).1.trans (late_nil_iff fs)) hr
  have hend : Meets step InTimeOrEnd (initial scripts) as ↔ ∀ r ∈ late es, r.kind = .stop := by
    rw [late_ends_iff]
    exact meets_iff_events
      (fun s a t fs h => (step_late h).2.trans (late_ends_iff fs)) hr
  refine ⟨hi.answers, ?_, ?_⟩
  · intro hs
    have ha := hi.account
    rw [hs, (hi.late.2.1 hs).2] at ha
    simpa [Pc.inHand] using ha
  · by_cases hs : s.pc = .closed
    · rw [hin, hend, (hi.late.2.1 hs).1]
      simp [hs]
    · rw [hi.kept hs]
      simp [hs]

def oneByOne : List (Choice (Fin 1)) :=
  [.send 0, .server, .server, .getAnswer 0, .send 0, .server, .server, .server, .server, .server]

theorem nothing_discarded_alone : ∃ s es,
    run step oneByOne (initial fun _ : Fin 1 => [.mirror, .stop]) = some (s, es) ∧
    s.pc = .closed ∧ answered es = [⟨0, .mirror⟩] ∧ sent es = handled es++discarded es := by
  have hr : run step oneByOne (initial fun _ : Fin 1 => [.mirror, .stop]) = some (_, _) := rfl
  have h := nothing_discarded_iff _ oneByOne _ _ hr
  exact ⟨_, _, hr, rfl, h.1, h.2.1 rfl⟩

/-- A text is sent after the server found its queue empty and before it removes
the queue. -/
theorem text_discarded : ¬ ∀ (scripts : Fin 2 → List Kind) (as : List (Choice (Fin 2)))
    (s : State (Fin 2)) (es : List (Event (Fin 2))),
    run step as (initial scripts) = some (s, es) → s.pc = .closed →
      ∀ r ∈ sent es, r.kind ≠ .stop → r ∈ answered es := by
  intro h
  have hr : run step [.send 0, .server, .server, .server, .send 1, .server, .server]
      (initial fun i : Fin 2 => if i = 0 then [.stop] else [.mirror, .stop]) = some (_, _) := rfl
  exact absurd (h _ _ _ _ hr rfl ⟨1, .mirror⟩ (by decide) (by decide)) (by decide)

end Semestr4.QueueServer
