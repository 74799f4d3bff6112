import Semestr4.PollutionServer

/-!
# Clients of the pollution server

Any number of processes call the server under its registered name and wait for
an answer. A client that waits takes the first message of its inbox. The events
of one client repeat a call, its processing on some monitor, and an answer, so
that every answer belongs to the call before it.
-/

set_option autoImplicit false

namespace Semestr4.PollutionClients
open Semestr4.ErlangTerm Semestr4.PollutionMonitor Semestr4.PollutionInvariant
open Semestr4.PollutionOutcome Semestr4.PollutionServer Semestr4.ScheduledRun

/-- Between calls, waiting for an answer, or ended by a send to a name that is
not registered. -/
inductive Client where
  | idle
  | waiting
  | failed
  deriving DecidableEq, Repr

structure System (ι : Type*) where
  server : Server
  mailbox : List (Message ι)
  inbox : ι → List Term
  clients : ι → Client

inductive Action (ι : Type*) where
  | call (c : ι) (request : Request)
  | stop (c : ι)
  | serve
  | receive (c : ι)

inductive Event (ι : Type*) where
  | called (c : ι) (request : Request)
  | served (c : ι) (request : Request) (monitor : Monitor)
  | received (c : ι) (answer : Term)

variable {ι : Type*}

def Event.client : Event ι → ι
  | .called c _ => c
  | .served c _ _ => c
  | .received c _ => c

def sent (floats : Arithmetic) (c : ι) (request : Request) (monitor : Monitor) : List (ι × Term) :=
  (loop floats monitor (.msg c request)).2

theorem sent_single (floats : Arithmetic) (c : ι) (request : Request) (monitor : Monitor) :
    sent floats c request monitor = [] ∨
      ∃ answer, sent floats c request monitor = [(c, answer)] := by
  have hpass : ∀ result, ∃ answer, (pass c result).2 = [(c, answer)] := by
    intro result
    cases result <;> exact ⟨_, rfl⟩
  have hreply : ∀ result, (reply c result monitor).2 = [] ∨
      ∃ answer, (reply c result monitor).2 = [(c, answer)] := by
    intro result
    cases result with
    | error r => exact Or.inl rfl
    | ok answer => exact Or.inr ⟨answer, rfl⟩
  cases request with
  | addS name location => exact Or.inr (hpass _)
  | addV place time type val => exact Or.inr (hpass _)
  | rmV place time type => exact Or.inr (hpass _)
  | _ => exact hreply _

variable {floats : Arithmetic}

theorem sent_call {request : Request} {call : Call} (c : ι) (monitor : Monitor)
    (h : request.call = some call) : sent floats c request monitor = [(c, ok)] := by
  have hpass : ∀ result, (pass c result).2 = [(c, ok)] := by
    intro result
    cases result <;> rfl
  cases request with
  | addS name location => exact hpass _
  | addV place time type val => exact hpass _
  | rmV place time type => exact hpass _
  | _ => cases h

variable [DecidableEq ι]

def deliver (replies : List (ι × Term)) (inbox : ι → List Term) : ι → List Term :=
  fun c => inbox c ++ (replies.filter fun r => r.1 = c).map Prod.snd

def processed (monitor : Monitor) : Message ι → List (Event ι)
  | .msg c request => [.served c request monitor]
  | .stop => []

/-- The name `server` belongs to a running process. -/
def registered : Server → Bool
  | .loop _ => true
  | _ => false

def step (floats : Arithmetic) : Step (System ι) (Action ι) (Event ι)
  | s, .call c request =>
    if s.clients c ≠ .idle then none
    else if registered s.server then
      some ({ s with
          mailbox := s.mailbox ++ [.msg c request]
          clients := Function.update s.clients c .waiting }, [.called c request])
    else some ({ s with clients := Function.update s.clients c .failed }, [])
  | s, .stop c =>
    if s.clients c ≠ .idle then none
    else if registered s.server then some ({ s with mailbox := s.mailbox ++ [.stop] }, [])
    else some ({ s with clients := Function.update s.clients c .failed }, [])
  | s, .serve => match s.server, s.mailbox with
    | .loop monitor, message::rest =>
      let served := loop floats monitor message
      some ({ s with
          server := served.1
          mailbox := rest
          inbox := deliver served.2 s.inbox }, processed monitor message)
    | _, _ => none
  | s, .receive c => match s.clients c, s.inbox c with
    | .waiting, answer::rest =>
      some ({ s with
          inbox := Function.update s.inbox c rest
          clients := Function.update s.clients c .idle }, [.received c answer])
    | _, _ => none

def start : System ι where
  server := init
  mailbox := []
  inbox := fun _ => []
  clients := fun _ => .idle

def own (c : ι) (es : List (Event ι)) : List (Event ι) := es.filter fun e => e.client = c

/-- Where a client stands in its exchange with the server. -/
inductive Phase where
  | idle
  | asked (request : Request)
  | answered (request : Request) (monitor : Monitor)

def Phase.follow (floats : Arithmetic) (c : ι) : Phase → Event ι → Option Phase
  | .idle, .called _ request => some (.asked request)
  | .asked request, .served _ request' monitor =>
    if request' = request then some (.answered request monitor) else none
  | .answered request monitor, .received _ answer =>
    if sent floats c request monitor = [(c, answer)] then some .idle else none
  | _, _ => none

def requests (c : ι) (mailbox : List (Message ι)) : List Request :=
  mailbox.filterMap fun message => match message with
    | .msg pid request => if pid = c then some request else none
    | .stop => none

def Phase.Fits (floats : Arithmetic) (c : ι) (s : System ι) : Phase → Prop
  | .idle => s.clients c ≠ .waiting ∧ requests c s.mailbox = [] ∧ s.inbox c = []
  | .asked request => s.clients c = .waiting ∧ requests c s.mailbox = [request] ∧ s.inbox c = []
  | .answered request monitor => s.clients c = .waiting ∧ requests c s.mailbox = [] ∧
    s.inbox c = (sent floats c request monitor).map Prod.snd

theorem requests_append (c : ι) (mailbox : List (Message ι)) (message : Message ι) :
    requests c (mailbox++[message]) = requests c mailbox ++ requests c [message] := by
  simp only [requests, List.filterMap_append]

theorem requests_cons (c : ι) (message : Message ι) (mailbox : List (Message ι)) :
    requests c (message::mailbox) = requests c [message] ++ requests c mailbox := by
  rw [← List.singleton_append, requests, List.filterMap_append]
  rfl

theorem requests_own (c : ι) (request : Request) : requests c [.msg c request] = [request] := by
  simp [requests]

theorem requests_other {c d : ι} (h : d ≠ c) (request : Request) :
    requests c [.msg d request] = [] := by
  simp [requests, h]

theorem requests_stop (c : ι) : requests c [.stop] = [] := rfl

theorem deliver_own (c : ι) (request : Request) (monitor : Monitor) (inbox : ι → List Term) :
    deliver (sent floats c request monitor) inbox c =
      inbox c ++ (sent floats c request monitor).map Prod.snd := by
  rcases sent_single floats c request monitor with h | ⟨answer, h⟩ <;> simp [deliver, h]

theorem deliver_other {c d : ι} (h : d ≠ c) (request : Request) (monitor : Monitor)
    (inbox : ι → List Term) : deliver (sent floats d request monitor) inbox c = inbox c := by
  rcases sent_single floats d request monitor with hs | ⟨answer, hs⟩ <;> simp [deliver, hs, h]

theorem Phase.Fits.congr {c : ι} {s t : System ι} {phase : Phase} (h : phase.Fits floats c s)
    (hclient : t.clients c = s.clients c) (hmailbox : requests c t.mailbox = requests c s.mailbox)
    (hinbox : t.inbox c = s.inbox c) : phase.Fits floats c t := by
  cases phase <;> simpa only [Phase.Fits, hclient, hmailbox, hinbox] using h

theorem Phase.Fits.between {c : ι} {s : System ι} {phase : Phase} (h : phase.Fits floats c s)
    (hclient : s.clients c ≠ .waiting) : phase = .idle := by
  cases phase with
  | idle => rfl
  | asked request => exact absurd h.1 hclient
  | answered request monitor => exact absurd h.1 hclient

def Follows (floats : Arithmetic) (c : ι) (phase : Phase) (fs : List (Event ι))
    (t : System ι) : Prop :=
  ∃ next, (own c fs).foldlM (Phase.follow floats c) phase = some next ∧ next.Fits floats c t

theorem Phase.Fits.stays {c : ι} {t : System ι} {phase : Phase} {fs : List (Event ι)}
    (h : phase.Fits floats c t) (hfs : own c fs = []) : Follows floats c phase fs t := by
  refine ⟨phase, ?_, h⟩
  rw [hfs]
  rfl

theorem raise_follows {s : System ι} {c d : ι} {phase : Phase} (hclient : s.clients d ≠ .waiting)
    (hp : phase.Fits floats c s) :
    Follows floats c phase [] { s with clients := Function.update s.clients d .failed } := by
  by_cases hdc : d = c
  · subst hdc
    obtain rfl := hp.between hclient
    exact Phase.Fits.stays (by simpa [Phase.Fits] using hp.2) rfl
  · apply Phase.Fits.stays _ rfl
    exact hp.congr (by simp [Function.update_of_ne (Ne.symm hdc)]) rfl rfl

theorem call_follows {s t : System ι} {d : ι} {request : Request} {fs : List (Event ι)}
    (h : step floats s (.call d request) = some (t, fs)) {c : ι} {phase : Phase}
    (hp : phase.Fits floats c s) : Follows floats c phase fs t := by
  simp only [step] at h
  split at h
  · cases h
  · rename_i hidle
    have hclient : s.clients d ≠ .waiting := by
      rw [not_not.mp hidle]
      decide
    split at h
    · cases h
      by_cases hdc : d = c
      · subst hdc
        obtain rfl := hp.between hclient
        refine ⟨.asked request, by simp [own, Event.client, Phase.follow], ?_, ?_, hp.2.2⟩
        · simp
        · simp [requests_append, requests_own, hp.2.1]
      · apply Phase.Fits.stays _ (by simp [own, Event.client, hdc])
        exact hp.congr (by simp [Function.update_of_ne (Ne.symm hdc)])
          (by simp [requests_append, requests_other hdc]) rfl
    · cases h
      exact raise_follows hclient hp

theorem stop_follows {s t : System ι} {d : ι} {fs : List (Event ι)}
    (h : step floats s (.stop d) = some (t, fs)) {c : ι} {phase : Phase}
    (hp : phase.Fits floats c s) : Follows floats c phase fs t := by
  simp only [step] at h
  split at h
  · cases h
  · rename_i hidle
    split at h
    · cases h
      exact Phase.Fits.stays
        (hp.congr rfl (by simp [requests_append, requests_stop]) rfl) rfl
    · cases h
      exact raise_follows (by rw [not_not.mp hidle]; decide) hp

theorem serve_follows {s t : System ι} {fs : List (Event ι)}
    (h : step floats s .serve = some (t, fs)) {c : ι} {phase : Phase}
    (hp : phase.Fits floats c s) : Follows floats c phase fs t := by
  simp only [step] at h
  split at h
  · rename_i monitor message rest hserver hmailbox
    cases h
    have hreq := requests_cons c message rest
    cases message with
    | stop =>
      refine Phase.Fits.stays (hp.congr rfl ?_ ?_) rfl
      · rw [hmailbox, hreq, requests_stop, List.nil_append]
      · simp [loop, deliver]
    | msg d request =>
      by_cases hdc : d = c
      · subst hdc
        rw [requests_own, ← hmailbox] at hreq
        cases phase with
        | idle => simp [hp.2.1] at hreq
        | answered request' monitor' => simp [hp.2.1] at hreq
        | asked request' =>
          rw [hp.2.1] at hreq
          simp only [List.cons_append, List.nil_append, List.cons.injEq] at hreq
          obtain ⟨rfl, hrest⟩ := hreq
          refine ⟨.answered request' monitor, by simp [own, processed, Event.client, Phase.follow],
            hp.1, hrest.symm, ?_⟩
          exact (deliver_own d request' monitor s.inbox).trans (by rw [hp.2.2, List.nil_append])
      · rw [requests_other hdc, List.nil_append, ← hmailbox] at hreq
        apply Phase.Fits.stays _ (by simp [own, processed, Event.client, hdc])
        exact hp.congr rfl hreq.symm (deliver_other hdc request monitor s.inbox)
  · cases h

theorem receive_follows {s t : System ι} {d : ι} {fs : List (Event ι)}
    (h : step floats s (.receive d) = some (t, fs)) {c : ι} {phase : Phase}
    (hp : phase.Fits floats c s) : Follows floats c phase fs t := by
  simp only [step] at h
  split at h
  · rename_i answer rest hclient hinbox
    cases h
    by_cases hdc : d = c
    · subst hdc
      cases phase with
      | idle => exact absurd hclient hp.1
      | asked request =>
        rw [hp.2.2] at hinbox
        cases hinbox
      | answered request monitor =>
        have hsent := hp.2.2
        rw [hinbox] at hsent
        rcases sent_single floats d request monitor with hnone | ⟨answer', hone⟩
        · rw [hnone] at hsent
          cases hsent
        · rw [hone] at hsent
          obtain ⟨rfl, rfl⟩ := List.cons.inj hsent
          refine ⟨.idle, by simp [own, Event.client, Phase.follow, hone], ?_, hp.2.1, ?_⟩
          · simp
          · simp
    · apply Phase.Fits.stays _ (by simp [own, Event.client, hdc])
      exact hp.congr (by simp [Function.update_of_ne (Ne.symm hdc)]) rfl
        (by simp [Function.update_of_ne (Ne.symm hdc)])
  · cases h

theorem step_follows {s t : System ι} {a : Action ι} {fs : List (Event ι)}
    (h : step floats s a = some (t, fs)) {c : ι} {phase : Phase} (hp : phase.Fits floats c s) :
    Follows floats c phase fs t := by
  cases a with
  | call d request => exact call_follows h hp
  | stop d => exact stop_follows h hp
  | serve => exact serve_follows h hp
  | receive d => exact receive_follows h hp

theorem own_append (c : ι) (es fs : List (Event ι)) :
    own c (es++fs) = own c es ++ own c fs := by
  simp only [own, List.filter_append]

/-- In every run, the events of each client are exchanges with the server. -/
theorem run_exchanges (as : List (Action ι)) (s : System ι) (es : List (Event ι))
    (hr : run (step floats) as start = some (s, es)) (c : ι) : Follows floats c .idle es s := by
  refine run_induction (step floats) start (fun es s => Follows floats c .idle es s) ?_ ?_
    as s es hr
  · exact ⟨.idle, rfl, by simp [Phase.Fits, start, requests]⟩
  · rintro es s a t fs ⟨phase, hes, hp⟩ h
    obtain ⟨next, hfs, hnext⟩ := step_follows h hp
    refine ⟨next, ?_, hnext⟩
    rw [own_append, List.foldlM_append, hes]
    exact hfs

def Good (s : Server) : Prop := ∀ m, s = .loop (.map m) → Wellformed m

omit [DecidableEq ι] in
theorem good_next {s t : Server} {message : Message ι} {replies : List (ι × Term)} (hs : Good s)
    (h : serve floats s message = some (t, replies)) : Good t := by
  intro n ht
  cases s with
  | exited => cases h
  | crashed r => cases h
  | loop monitor =>
    cases monitor with
    | text text => exact absurd ht (serve_text h n)
    | map m =>
      have hm := hs m rfl
      cases serve_map h with
      | changed hcall happly =>
        cases ht
        exact apply_wellformed hm happly
      | answered hcall =>
        cases ht
        exact hm
      | refused hcall happly => cases ht
      | raised hcall happly => cases ht
      | failed hcall => cases ht
      | stopped => cases ht

theorem follow_last {c : ι} {es : List (Event ι)} {p : Phase}
    (h : es.foldlM (Phase.follow floats c) .idle = some p) :
    (es = [] ∧ p = .idle) ∨ ∃ earlier e q, es = earlier++[e] ∧
      earlier.foldlM (Phase.follow floats c) .idle = some q ∧
        Phase.follow floats c q e = some p := by
  rcases List.eq_nil_or_concat es with rfl | ⟨earlier, e, rfl⟩
  · cases h
    exact Or.inl ⟨rfl, rfl⟩
  · right
    rw [List.concat_eq_append, List.foldlM_append] at h
    obtain ⟨q, hq, he⟩ := Option.bind_eq_some_iff.mp h
    refine ⟨earlier, e, q, List.concat_eq_append, hq, ?_⟩
    simpa [List.foldlM] using he

theorem follow_asked {c : ι} {es : List (Event ι)} {request : Request}
    (h : es.foldlM (Phase.follow floats c) .idle = some (.asked request)) :
    ∃ earlier d, es = earlier++[.called d request] := by
  rcases follow_last h with ⟨-, hp⟩ | ⟨earlier, e, q, rfl, -, he⟩
  · cases hp
  · cases q <;> cases e <;> simp [Phase.follow] at he
    subst he
    exact ⟨_, _, rfl⟩

theorem follow_answered {c : ι} {es : List (Event ι)} {request : Request} {monitor : Monitor}
    (h : es.foldlM (Phase.follow floats c) .idle = some (.answered request monitor)) :
    ∃ earlier d d', es = earlier++[.called d request, .served d' request monitor] := by
  rcases follow_last h with ⟨-, hp⟩ | ⟨earlier, e, q, rfl, hq, he⟩
  · cases hp
  · cases q <;> cases e <;> simp [Phase.follow] at he
    obtain ⟨rfl, rfl, rfl⟩ := he
    obtain ⟨first, d, rfl⟩ := follow_asked hq
    exact ⟨first, d, _, List.append_assoc _ _ _⟩

def Processed (es : List (Event ι)) : Prop :=
  ∀ c request m, Event.served c request (.map m) ∈ es → Wellformed m

theorem step_processed {s t : System ι} {a : Action ι} {fs : List (Event ι)} (hs : Good s.server)
    (h : step floats s a = some (t, fs)) : Processed fs ∧ Good t.server := by
  cases a with
  | call c request =>
    simp only [step] at h
    (repeat' split at h) <;> cases h <;> exact ⟨by simp [Processed], hs⟩
  | stop c =>
    simp only [step] at h
    (repeat' split at h) <;> cases h <;> exact ⟨by simp [Processed], hs⟩
  | receive c =>
    simp only [step] at h
    split at h <;> cases h
    exact ⟨by simp [Processed], hs⟩
  | serve =>
    simp only [step] at h
    split at h
    · rename_i monitor message rest hserver hmailbox
      cases h
      rw [hserver] at hs
      have hserve : serve floats (.loop monitor) message = some (loop floats monitor message) := rfl
      refine ⟨?_, good_next hs hserve⟩
      intro c request m hmem
      cases message with
      | stop => cases hmem
      | msg d request' =>
        cases List.mem_singleton.mp hmem
        exact hs m rfl
    · cases h

theorem run_processed (as : List (Action ι)) (s : System ι) (es : List (Event ι))
    (hr : run (step floats) as start = some (s, es)) : Processed es ∧ Good s.server := by
  refine run_induction (step floats) start (fun es s => Processed es ∧ Good s.server) ?_ ?_
    as s es hr
  · refine ⟨fun _ _ _ h => absurd h List.not_mem_nil, ?_⟩
    intro m hm
    cases hm
    exact empty_wellformed
  · rintro es s a t fs ⟨hes, hs⟩ h
    obtain ⟨hfs, ht⟩ := step_processed hs h
    refine ⟨?_, ht⟩
    intro c request m hmem
    rcases List.mem_append.mp hmem with hmem | hmem
    · exact hes c request m hmem
    · exact hfs c request m hmem

omit [DecidableEq ι] in
theorem text_ne_ok (s : String) : ok ≠ Term.text s := by
  unfold Term.text ok
  cases s.toList with
  | nil => simp
  | cons c rest => simp

/-- The answer is `ok` exactly if the call returned a monitor, and the text of a
rejection exactly if the call returned that. -/
def Tells (call : Call) (monitor : Monitor) (answer : Term) : Prop :=
  (answer = ok ↔ ∃ m, call.apply monitor = .ok (.map m)) ∧
    ∀ s, answer = Term.text s ↔ call.apply monitor = .ok (.text s)

def AcceptedBy (call : Call) : Monitor → Prop
  | .map m => Accepts m call
  | .text _ => False

omit [DecidableEq ι] in
theorem ok_tells_iff {call : Call} {monitor : Monitor}
    (hm : ∀ m, monitor = .map m → Wellformed m) :
    Tells call monitor ok ↔ AcceptedBy call monitor := by
  cases monitor with
  | text text =>
    refine iff_of_false ?_ id
    intro h
    obtain ⟨n, hn⟩ := h.1.mp rfl
    obtain ⟨r, hr⟩ := apply_text call text
    rw [hr] at hn
    cases hn
  | map m =>
    constructor
    · intro h
      exact (accepts_iff (hm m rfl) call).mp (h.1.mp rfl)
    · intro h
      obtain ⟨n, hn⟩ := apply_accepts (hm m rfl) h
      refine ⟨iff_of_true rfl ⟨n, hn⟩, ?_⟩
      intro s
      refine iff_of_false (text_ne_ok s) ?_
      rw [hn]
      simp

/-- Every answer a client receives belongs to the call before it, which was
processed on some monitor. For a changing request it tells the outcome there
exactly if that monitor accepts the call. -/
theorem answer_tells_iff (floats : Arithmetic) (as : List (Action ι)) (s : System ι)
    (es : List (Event ι)) (hr : run (step floats) as start = some (s, es)) (c : ι)
    (before after : List (Event ι)) (answer : Term)
    (hes : own c es = before ++ .received c answer::after) :
    ∃ earlier request monitor,
      before = earlier ++ [.called c request, .served c request monitor] ∧
      ∀ call, request.call = some call → (Tells call monitor answer ↔ AcceptedBy call monitor) := by
  obtain ⟨phase, hfollow, -⟩ := run_exchanges as s es hr c
  rw [hes, List.foldlM_append] at hfollow
  obtain ⟨p, hbefore, hrest⟩ := Option.bind_eq_some_iff.mp hfollow
  rw [List.foldlM_cons] at hrest
  obtain ⟨q, hreceived, -⟩ := Option.bind_eq_some_iff.mp hrest
  cases p with
  | idle => cases hreceived
  | asked request => cases hreceived
  | answered request monitor =>
    simp only [Phase.follow, Option.ite_none_right_eq_some] at hreceived
    obtain ⟨earlier, d, d', rfl⟩ := follow_answered hbefore
    have hown : ∀ e ∈ own c es, e.client = c := fun e he =>
      of_decide_eq_true (List.mem_filter.mp he).2
    rw [hes] at hown
    obtain rfl : d = c := hown (.called d request) (by simp)
    obtain rfl : d' = d := hown (.served d' request monitor) (by simp)
    refine ⟨earlier, request, monitor, rfl, ?_⟩
    intro call hcall
    have hsent := hreceived.1
    rw [sent_call d' monitor hcall] at hsent
    obtain rfl : ok = answer := congrArg Prod.snd (List.cons.inj hsent).1
    apply ok_tells_iff
    rintro m rfl
    have hserved : Event.served d' request (.map m) ∈ own d' es := by
      rw [hes]
      simp
    exact (run_processed as s es hr).1 d' request m (List.mem_of_mem_filter hserved)

def unknownStation : List (Action Unit) :=
  [.call () (.rmV (.atom "a") (.int 7) (.atom "pm10")), .serve, .receive ()]

theorem rejected_call_answered_ok : ∃ s es request call monitor,
    run (step doubles) unknownStation start = some (s, es) ∧
    own () es = [.called () request, .served () request monitor, .received () ok] ∧
    request.call = some call ∧ call.apply monitor = .ok (.text noSuchStation) ∧
    ¬ Tells call monitor ok := by
  refine ⟨_, _, .rmV (.atom "a") (.int 7) (.atom "pm10"),
    .removeValue (.atom "a") (.int 7) (.atom "pm10"), .map createMonitor, rfl, rfl, rfl, rfl, ?_⟩
  intro h
  obtain ⟨m, hm⟩ := h.1.mp rfl
  cases hm

theorem answer_tells_iff_small : ∃ s es before,
    run (step doubles) unknownStation start = some (s, es) ∧
    own () es = before ++ [.received () ok] ∧
    ∃ earlier request monitor,
      before = earlier ++ [.called () request, .served () request monitor] ∧
      ∀ call, request.call = some call → (Tells call monitor ok ↔ AcceptedBy call monitor) := by
  have hr : run (step doubles) unknownStation start = some (_, _) := rfl
  refine ⟨_, _, [.called () (.rmV (.atom "a") (.int 7) (.atom "pm10")),
    .served () (.rmV (.atom "a") (.int 7) (.atom "pm10")) (.map createMonitor)], hr, rfl, ?_⟩
  exact answer_tells_iff doubles _ _ _ hr () _ [] ok rfl

end Semestr4.PollutionClients
