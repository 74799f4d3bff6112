import Mathlib.Data.Int.Notation
import Semestr4.PendingSlot
import Semestr4.ScheduledRun

/-!
# Permissions over signals

Each child asks its parent once with `SIGUSR1`. The parent collects the pids of
the first requests, answers all of these with `SIGUSR2` when the last of them
comes in, and from then on answers each request at once. While the handler runs
the signal is blocked, and only one instance of it can be pending.
-/

set_option autoImplicit false

namespace Semestr4.PermissionSignals
open Semestr4.ScheduledRun Semestr4.PendingSlot

variable {π : Type*}

/-- The next statement of the handler of `SIGUSR1`. -/
inductive Handler (π : Type*) where
  /-- `LEFTREQUESTS--` -/
  | request (pid : π)
  /-- the pid is stored, or answered at once -/
  | place (pid : π)
  /-- `LEFTREQUESTS == 0` -/
  | compare
  /-- the loop that answers the stored pids -/
  | permit (i : ℕ)
  deriving DecidableEq, Repr

structure State (π : Type*) where
  requests : ℕ
  leftRequests : ℤ
  /-- `PENDING`, with `none` for the zeros of `calloc` -/
  array : List (Option π)
  handler : Option (Handler π)
  /-- the sender of the pending `SIGUSR1` -/
  signal : Option π
  /-- children that have not asked yet -/
  asking : List π
  deriving DecidableEq, Repr

inductive Event (π : Type*) where
  | asked (pid : π)
  | merged (pid : π)
  | received (pid : π)
  /-- `kill(pid, SIGUSR2)` with what the handler takes for the pid -/
  | permission (pid : Option π)
  deriving DecidableEq, Repr

inductive Choice (π : Type*) where
  | ask (pid : π)
  | deliver
  | handle
  deriving DecidableEq, Repr

def initial (requests : ℕ) (children : List π) : State π where
  requests := requests
  leftRequests := requests
  array := List.replicate requests none
  handler := none
  signal := none
  asking := children

def handle (s : State π) : Handler π → State π × List (Event π)
  | .request pid =>
    ({ s with leftRequests := s.leftRequests-1, handler := some (.place pid) }, [])
  | .place pid =>
    if 0 ≤ s.leftRequests then
      ({ s with array := s.array.set s.leftRequests.toNat (some pid), handler := some .compare }, [])
    else ({ s with handler := some .compare }, [.permission (some pid)])
  | .compare =>
    if s.leftRequests = 0 then ({ s with handler := some (.permit 0) }, [])
    else ({ s with handler := none }, [])
  | .permit i =>
    if i < s.requests then
      ({ s with handler := some (.permit (i+1)) }, [.permission (s.array[i]?).join])
    else ({ s with handler := none }, [])

def step [DecidableEq π] : Step (State π) (Choice π) (Event π)
  | s, .ask pid =>
    if pid ∈ s.asking then
      some ({ s with asking := s.asking.erase pid, signal := post s.signal pid },
        .asked pid::(lostBy s.signal pid).map .merged)
    else none
  | s, .deliver => match s.handler, s.signal with
    | none, some pid => some ({ s with handler := some (.request pid), signal := none },
        [.received pid])
    | _, _ => none
  | s, .handle => s.handler.map (handle s)

def Alone (s : State π) : Choice π → Prop
  | .ask _ => s.signal = none
  | _ => True

/-- The child was sent `SIGUSR2`. The pid 0 stands for all processes. -/
def Permitted (es : List (Event π)) (pid : π) : Prop :=
  Event.permission (some pid) ∈ es ∨ Event.permission none ∈ es

instance [DecidableEq π] (es : List (Event π)) (pid : π) : Decidable (Permitted es pid) :=
  inferInstanceAs (Decidable (_ ∨ _))

def State.Settled (s : State π) : Prop := s.asking = [] ∧ s.signal = none ∧ s.handler = none

def asked (es : List (Event π)) : List π :=
  es.filterMap fun e => match e with
    | .asked pid => some pid
    | _ => none

def merged (es : List (Event π)) : List π :=
  es.filterMap fun e => match e with
    | .merged pid => some pid
    | _ => none

def received (es : List (Event π)) : List π :=
  es.filterMap fun e => match e with
    | .received pid => some pid
    | _ => none

theorem asked_append (es fs : List (Event π)) : asked (es++fs) = asked es++asked fs :=
  List.filterMap_append

theorem merged_append (es fs : List (Event π)) : merged (es++fs) = merged es++merged fs :=
  List.filterMap_append

theorem received_append (es fs : List (Event π)) : received (es++fs) = received es++received fs :=
  List.filterMap_append

@[simp] theorem received_permission (pid : Option π) : received [Event.permission pid] = [] := rfl

theorem step_cases [DecidableEq π] {s t : State π} {a : Choice π} {fs : List (Event π)}
    (h : step s a = some (t, fs)) :
    (∃ pid ∈ s.asking, a = .ask pid ∧
      t = { s with asking := s.asking.erase pid, signal := post s.signal pid } ∧
      fs = .asked pid::(lostBy s.signal pid).map .merged) ∨
    (∃ pid, a = .deliver ∧ s.handler = none ∧ s.signal = some pid ∧
      t = { s with handler := some (.request pid), signal := none } ∧ fs = [.received pid]) ∨
    (∃ x, a = .handle ∧ s.handler = some x ∧ t = (handle s x).1 ∧ fs = (handle s x).2) := by
  cases a with
  | ask pid =>
    simp only [step, Option.ite_none_right_eq_some, Option.some.injEq, Prod.mk.injEq] at h
    obtain ⟨hpid, rfl, rfl⟩ := h
    exact Or.inl ⟨pid, hpid, rfl, rfl, rfl⟩
  | deliver =>
    simp only [step] at h
    split at h
    · rename_i pid hhandler hsignal
      cases h
      exact Or.inr (Or.inl ⟨pid, rfl, hhandler, hsignal, rfl, rfl⟩)
    · cases h
  | handle =>
    obtain ⟨x, hx, hs⟩ := Option.map_eq_some_iff.mp h
    exact Or.inr (Or.inr ⟨x, rfl, hx, by rw [hs], by rw [hs]⟩)

theorem handle_events (s : State π) (x : Handler π) :
    asked (handle s x).2 = [] ∧ merged (handle s x).2 = [] ∧ received (handle s x).2 = [] ∧
      (handle s x).1.asking = s.asking ∧ (handle s x).1.signal = s.signal ∧
      (handle s x).1.requests = s.requests := by
  cases x with
  | request pid => exact ⟨rfl, rfl, rfl, rfl, rfl, rfl⟩
  | place pid => simp only [handle]; split <;> exact ⟨rfl, rfl, rfl, rfl, rfl, rfl⟩
  | compare => simp only [handle]; split <;> exact ⟨rfl, rfl, rfl, rfl, rfl, rfl⟩
  | permit i => simp only [handle]; split <;> exact ⟨rfl, rfl, rfl, rfl, rfl, rfl⟩

def State.current (s : State π) : List π :=
  match s.handler with
  | some (.request pid) => [pid]
  | some (.place pid) => [pid]
  | _ => []

def State.level (s : State π) : ℤ :=
  match s.handler with
  | some (.place _) => s.leftRequests+1
  | _ => s.leftRequests

def Stored (s : State π) (pid : π) : Prop := ∃ j : ℕ, s.level ≤ j ∧ s.array[j]? = some (some pid)

def Answered (es : List (Event π)) (s : State π) (done : List π) : Prop :=
  match s.handler with
  | some .compare => s.leftRequests < 0 → ∀ pid ∈ done, Permitted es pid
  | some (.permit i) => s.leftRequests = 0 ∧
    ∀ j < i, ∀ pid, s.array[j]? = some (some pid) → Permitted es pid
  | _ => s.level ≤ 0 → ∀ pid ∈ done, Permitted es pid

structure Keeps (es : List (Event π)) (s : State π) (done : List π) : Prop where
  received : received es = done++s.current
  length : s.array.length = s.requests
  level : s.level+done.length = s.requests
  filled : ∀ j : ℕ, s.level ≤ j → j < s.requests → ∃ pid ∈ done, s.array[j]? = some (some pid)
  kept : ∀ pid ∈ done, Permitted es pid ∨ Stored s pid
  answered : Answered es s done
  only : ∀ pid, Event.permission pid ∈ es → ∃ p ∈ done, pid = some p

theorem Permitted.later {es : List (Event π)} {pid : π} (h : Permitted es pid)
    (fs : List (Event π)) : Permitted (es++fs) pid :=
  h.imp (List.mem_append_left fs) (List.mem_append_left fs)

theorem initial_keeps (requests : ℕ) (children : List π) :
    Keeps [] (initial requests children) [] := by
  constructor
  · rfl
  · exact List.length_replicate
  · simp [initial, State.level]
  · intro j hj hlt
    simp only [initial, State.level] at hj hlt
    omega
  · intro pid hpid
    cases hpid
  · intro _ pid hpid
    cases hpid
  · intro pid hpid
    cases hpid

theorem Keeps.move {es : List (Event π)} {s t : State π} {done : List π} (h : Keeps es s done)
    (hcurrent : t.current = s.current) (hlevel : t.level = s.level) (harray : t.array = s.array)
    (hrequests : t.requests = s.requests) (hanswered : Answered es t done) : Keeps es t done := by
  refine ⟨?_, ?_, ?_, ?_, ?_, hanswered, h.only⟩
  · rw [hcurrent]
    exact h.received
  · rw [harray, hrequests]
    exact h.length
  · rw [hlevel, hrequests]
    exact h.level
  · rw [hlevel, harray, hrequests]
    exact h.filled
  · unfold Stored
    rw [hlevel, harray]
    exact h.kept

theorem Keeps.request {es : List (Event π)} {s : State π} {done : List π} {pid : π}
    (h : Keeps es s done) (hx : s.handler = some (.request pid)) :
    Keeps (es++(handle s (.request pid)).2) (handle s (.request pid)).1 done := by
  have hanswered := h.answered
  simp only [Answered, hx] at hanswered
  simp only [handle, List.append_nil]
  have hlevel : ({ s with
      leftRequests := s.leftRequests-1
      handler := some (.place pid) } : State π).level = s.level := by
    simp [State.level, hx]
  refine h.move (by simp [State.current, hx]) hlevel rfl rfl ?_
  simpa only [Answered, hlevel] using hanswered

theorem level_place {s : State π} {pid : π} (hx : s.handler = some (.place pid)) :
    s.level = s.leftRequests+1 := by
  simp [State.level, hx]

theorem current_place {s : State π} {pid : π} (hx : s.handler = some (.place pid)) :
    s.current = [pid] := by
  simp [State.current, hx]

theorem Keeps.store {es : List (Event π)} {s : State π} {done : List π} {pid : π}
    (h : Keeps es s done) (hx : s.handler = some (.place pid)) (hleft : 0 ≤ s.leftRequests) :
    Keeps (es++(handle s (.place pid)).2) (handle s (.place pid)).1 (done++[pid]) := by
  have hslevel := level_place hx
  have hcurrent := current_place hx
  have hreceived := h.received
  have hcount := h.level
  rw [hcurrent] at hreceived
  rw [hslevel] at hcount
  simp only [handle, if_pos hleft, List.append_nil]
  have hplace : s.leftRequests.toNat < s.array.length := by
    rw [h.length]
    omega
  have hother : ∀ j : ℕ, s.level ≤ j →
      (s.array.set s.leftRequests.toNat (some pid))[j]? = s.array[j]? :=
    fun j hj => List.getElem?_set_ne (by omega)
  have hself : (s.array.set s.leftRequests.toNat (some pid))[s.leftRequests.toNat]? =
      some (some pid) := List.getElem?_set_self hplace
  constructor
  · simpa [State.current] using hreceived
  · simpa using h.length
  · simp [State.level]
    omega
  · intro j hj hlt
    by_cases hjs : j = s.leftRequests.toNat
    · exact ⟨pid, by simp, hjs ▸ hself⟩
    · have hj' : s.level ≤ j := by
        simp only [State.level] at hj
        omega
      obtain ⟨q, hq, hat⟩ := h.filled j hj' hlt
      exact ⟨q, List.mem_append_left _ hq, (hother j hj').trans hat⟩
  · intro q hq
    rcases List.mem_append.mp hq with hq | hq
    · rcases h.kept q hq with hp | ⟨j, hj, hat⟩
      · exact Or.inl hp
      · refine Or.inr ⟨j, ?_, (hother j hj).trans hat⟩
        simp only [State.level]
        omega
    · rw [List.mem_singleton.mp hq]
      refine Or.inr ⟨s.leftRequests.toNat, ?_, hself⟩
      simp only [State.level]
      omega
  · intro hneg
    exact absurd hneg (by simpa using hleft)
  · intro q hq
    obtain ⟨p, hp, hqp⟩ := h.only q hq
    exact ⟨p, List.mem_append_left _ hp, hqp⟩

theorem Keeps.permit_now {es : List (Event π)} {s : State π} {done : List π} {pid : π}
    (h : Keeps es s done) (hx : s.handler = some (.place pid)) (hleft : ¬ 0 ≤ s.leftRequests) :
    Keeps (es++(handle s (.place pid)).2) (handle s (.place pid)).1 (done++[pid]) := by
  have hslevel := level_place hx
  have hcurrent := current_place hx
  have hreceived := h.received
  have hcount := h.level
  have hanswered := h.answered
  simp only [Answered, hx] at hanswered
  rw [hcurrent] at hreceived
  rw [hslevel] at hcount hanswered
  simp only [handle, if_neg hleft]
  have hpid : Permitted (es++[.permission (some pid)]) pid :=
    Or.inl (List.mem_append_right es (List.mem_singleton_self _))
  have hall : ∀ q ∈ done++[pid], Permitted (es++[.permission (some pid)]) q := by
    intro q hq
    rcases List.mem_append.mp hq with hq | hq
    · exact (hanswered (by omega) q hq).later _
    · rw [List.mem_singleton.mp hq]
      exact hpid
  constructor
  · rw [received_append, hreceived]
    simp [State.current]
  · exact h.length
  · simp [State.level]
    omega
  · intro j hj hlt
    obtain ⟨q, hq, hat⟩ := h.filled j (by omega) hlt
    exact ⟨q, List.mem_append_left _ hq, hat⟩
  · exact fun q hq => Or.inl (hall q hq)
  · exact fun _ => hall
  · intro q hq
    rcases List.mem_append.mp hq with hq | hq
    · obtain ⟨p, hp, hqp⟩ := h.only q hq
      exact ⟨p, List.mem_append_left _ hp, hqp⟩
    · cases List.mem_singleton.mp hq
      exact ⟨pid, by simp, rfl⟩

theorem Keeps.place {es : List (Event π)} {s : State π} {done : List π} {pid : π}
    (h : Keeps es s done) (hx : s.handler = some (.place pid)) :
    Keeps (es++(handle s (.place pid)).2) (handle s (.place pid)).1 (done++[pid]) := by
  by_cases hleft : 0 ≤ s.leftRequests
  · exact h.store hx hleft
  · exact h.permit_now hx hleft

theorem Keeps.compare {es : List (Event π)} {s : State π} {done : List π}
    (h : Keeps es s done) (hx : s.handler = some .compare) :
    Keeps (es++(handle s .compare).2) (handle s .compare).1 done := by
  have hanswered := h.answered
  simp only [Answered, hx] at hanswered
  by_cases hleft : s.leftRequests = 0
  · simp only [handle, if_pos hleft, List.append_nil]
    refine h.move (by simp [State.current, hx]) (by simp [State.level, hx]) rfl rfl ?_
    exact ⟨hleft, fun j hj => absurd hj (Nat.not_lt_zero j)⟩
  · simp only [handle, if_neg hleft, List.append_nil]
    refine h.move (by simp [State.current, hx]) (by simp [State.level, hx]) rfl rfl ?_
    intro hle
    simp only [State.level] at hle
    exact hanswered (by omega)

theorem Keeps.later {es fs : List (Event π)} {s : State π} {done : List π} (h : Keeps es s done)
    (hreceived : PermissionSignals.received fs = [])
    (honly : ∀ pid, Event.permission pid ∈ fs → ∃ p ∈ done, pid = some p) :
    Keeps (es++fs) s done := by
  refine ⟨?_, h.length, h.level, h.filled, ?_, ?_, ?_⟩
  · rw [received_append, hreceived, List.append_nil]
    exact h.received
  · exact fun q hq => (h.kept q hq).imp_left fun hp => hp.later fs
  · have hanswered := h.answered
    unfold Answered at hanswered ⊢
    split at hanswered
    · exact fun hneg q hq => (hanswered hneg q hq).later fs
    · exact ⟨hanswered.1, fun j hj q hq => (hanswered.2 j hj q hq).later fs⟩
    · exact fun hle q hq => (hanswered hle q hq).later fs
  · intro q hq
    exact (List.mem_append.mp hq).elim (h.only q) (honly q)

theorem Keeps.deliver {es : List (Event π)} {s : State π} {done : List π} {pid : π}
    (h : Keeps es s done) (hx : s.handler = none) :
    Keeps (es++[.received pid]) { s with handler := some (.request pid), signal := none } done := by
  have hreceived := h.received
  have hlevel := h.level
  have hfilled := h.filled
  have hkept := h.kept
  have hanswered := h.answered
  simp only [Answered, State.level, hx] at hanswered
  simp only [State.current, State.level, Stored, hx] at hreceived hlevel hfilled hkept
  refine ⟨?_, h.length, hlevel, hfilled, ?_, ?_, ?_⟩
  · rw [received_append, hreceived]
    simp [State.current, PermissionSignals.received]
  · exact fun q hq => (hkept q hq).imp_left fun hp => hp.later _
  · exact fun hle q hq => (hanswered hle q hq).later _
  · intro q hq
    rcases List.mem_append.mp hq with hq | hq
    · exact h.only q hq
    · cases List.mem_singleton.mp hq

theorem Keeps.permit {es : List (Event π)} {s : State π} {done : List π} {i : ℕ}
    (h : Keeps es s done) (hx : s.handler = some (.permit i)) :
    Keeps (es++(handle s (.permit i)).2) (handle s (.permit i)).1 done := by
  have hslevel : s.level = s.leftRequests := by simp [State.level, hx]
  have hanswered := h.answered
  simp only [Answered, hx] at hanswered
  obtain ⟨hleft, hbefore⟩ := hanswered
  by_cases hi : i < s.requests
  · obtain ⟨pid, hpid, hat⟩ := h.filled i (by omega) hi
    have hjoin : (s.array[i]?).join = some pid := by rw [hat]; rfl
    simp only [handle, if_pos hi, hjoin]
    have honly : ∀ p, Event.permission p ∈ [Event.permission (some pid)] →
        ∃ q ∈ done, p = some q := by
      intro p hp
      cases List.mem_singleton.mp hp
      exact ⟨pid, hpid, rfl⟩
    refine (h.later (received_permission _) honly).move (by simp [State.current, hx])
      (by simp [State.level, hx]) rfl rfl ?_
    refine ⟨hleft, fun j hj q hq => ?_⟩
    rcases Nat.lt_succ_iff_lt_or_eq.mp hj with hj | rfl
    · exact (hbefore j hj q hq).later _
    · rw [hat] at hq
      cases hq
      exact Or.inl (List.mem_append_right es (List.mem_singleton_self _))
  · simp only [handle, if_neg hi, List.append_nil]
    refine h.move (by simp [State.current, hx]) (by simp [State.level, hx]) rfl rfl ?_
    intro _ q hq
    rcases h.kept q hq with hp | ⟨j, -, hat⟩
    · exact hp
    · have hj : j < s.array.length := (List.getElem?_eq_some_iff.mp hat).1
      rw [h.length] at hj
      exact hbefore j (by omega) q hat

structure Invariant (children : List π) (requests : ℕ) (es : List (Event π)) (s : State π) :
    Prop where
  account : Account s.signal (asked es) (received es) (merged es)
  children : children.Perm (asked es++s.asking)
  requests : s.requests = requests
  keeps : ∃ done, Keeps es s done

theorem step_invariant [DecidableEq π] {children : List π} {requests : ℕ} {s t : State π}
    {a : Choice π} {es fs : List (Event π)} (hi : Invariant children requests es s)
    (h : step s a = some (t, fs)) : Invariant children requests (es++fs) t := by
  obtain ⟨done, hk⟩ := hi.keeps
  rcases step_cases h with ⟨pid, hpid, rfl, rfl, rfl⟩ | ⟨pid, rfl, hhandler, hsignal, rfl, rfl⟩ |
    ⟨x, rfl, hx, rfl, rfl⟩
  · have hasked : asked (.asked pid::(lostBy s.signal pid).map .merged) = [pid] := by
      cases s.signal <;> rfl
    have hmerged : merged (.asked pid::(lostBy s.signal pid).map .merged) =
        lostBy s.signal pid := by
      cases s.signal <;> rfl
    have hreceived : received (.asked pid::(lostBy s.signal pid).map .merged) = [] := by
      cases s.signal <;> rfl
    constructor
    · rw [asked_append, merged_append, received_append, hasked, hmerged, hreceived,
        List.append_nil]
      exact hi.account.post pid
    · rw [asked_append, hasked, List.append_assoc]
      exact hi.children.trans ((List.perm_cons_erase hpid).append_left (asked es))
    · exact hi.requests
    · have hl : Keeps (es++.asked pid::(lostBy s.signal pid).map .merged) s done := by
        refine hk.later hreceived fun p hp => ?_
        cases hs : s.signal <;> rw [hs] at hp <;> simp [lostBy] at hp
      exact ⟨done, hl.move rfl rfl rfl rfl hl.answered⟩
  · constructor
    · have ha := hi.account
      rw [hsignal] at ha
      rw [asked_append, merged_append, received_append]
      simpa [asked, merged, PermissionSignals.received] using ha.take
    · rw [asked_append]
      simpa [asked] using hi.children
    · exact hi.requests
    · exact ⟨done, hk.deliver hhandler⟩
  · obtain ⟨hasked, hmerged, hreceived, hasking, hsignal, hrequests⟩ := handle_events s x
    constructor
    · rw [asked_append, merged_append, received_append, hasked, hmerged, hreceived, hsignal]
      simpa using hi.account
    · rw [asked_append, hasked, hasking, List.append_nil]
      exact hi.children
    · rw [hrequests]
      exact hi.requests
    · cases x with
      | request pid => exact ⟨done, hk.request hx⟩
      | place pid => exact ⟨done++[pid], hk.place hx⟩
      | compare => exact ⟨done, hk.compare hx⟩
      | permit i => exact ⟨done, hk.permit hx⟩

theorem run_invariant [DecidableEq π] {children : List π} {requests : ℕ} {as : List (Choice π)}
    {s : State π} {es : List (Event π)}
    (hr : run step as (initial requests children) = some (s, es)) :
    Invariant children requests es s :=
  run_induction step (initial requests children) (Invariant children requests)
    ⟨Account.empty, List.Perm.refl children, rfl, [], initial_keeps requests children⟩
    (fun _ _ _ _ _ hi h => step_invariant hi h) as s es hr

theorem merged_eq_nil {es : List (Event π)} :
    merged es = [] ↔ ∀ e ∈ es, ¬ ∃ pid, e = .merged pid := by
  simp only [merged, List.filterMap_eq_nil_iff]
  refine forall₂_congr fun e _ => ?_
  cases e <;> simp

/-- A child that asks while a request is pending shows in the events. -/
theorem alone_shows [DecidableEq π] (s : State π) (a : Choice π) (t : State π)
    (fs : List (Event π)) (h : step s a = some (t, fs)) :
    Alone s a ↔ ∀ e ∈ fs, ¬ ∃ pid, e = .merged pid := by
  rw [← merged_eq_nil]
  rcases step_cases h with ⟨pid, -, rfl, -, rfl⟩ | ⟨pid, rfl, -, -, -, rfl⟩ | ⟨x, rfl, -, -, rfl⟩
  · have hmerged : merged (.asked pid::(lostBy s.signal pid).map .merged) =
        lostBy s.signal pid := by
      cases s.signal <;> rfl
    rw [hmerged, lostBy_eq_nil]
    rfl
  · exact iff_of_true trivial rfl
  · exact iff_of_true trivial (handle_events s x).2.1

theorem permitted_received {children : List π} {requests : ℕ} {es : List (Event π)}
    {s : State π} (hi : Invariant children requests es s) {pid : π} (h : Permitted es pid) :
    pid ∈ received es := by
  obtain ⟨done, hk⟩ := hi.keeps
  have hdone : ∀ q, Event.permission q ∈ es → ∃ p ∈ received es, q = some p := by
    intro q hq
    obtain ⟨p, hp, hqp⟩ := hk.only q hq
    exact ⟨p, hk.received ▸ List.mem_append_left _ hp, hqp⟩
  rcases h with h | h
  · obtain ⟨p, hp, hqp⟩ := hdone _ h
    cases hqp
    exact hp
  · obtain ⟨p, -, hqp⟩ := hdone _ h
    cases hqp

/-- With as many requests as the parent waits for, all of them are answered. -/
theorem received_permitted {children : List π} {requests : ℕ} {es : List (Event π)}
    {s : State π} (hi : Invariant children requests es s) (hs : s.handler = none)
    (hfull : requests ≤ (received es).length) {pid : π} (h : pid ∈ received es) :
    Permitted es pid := by
  obtain ⟨done, hk⟩ := hi.keeps
  have hdone : received es = done := by
    have hr := hk.received
    simpa only [State.current, hs, List.append_nil] using hr
  have hanswered := hk.answered
  have hlevel := hk.level
  simp only [Answered, hs] at hanswered
  rw [hi.requests, ← hdone] at hlevel
  exact hanswered (by omega) pid (hdone ▸ h)

/-- When all have asked and nothing is left to handle, each child has its
permission exactly if no child asked while a request was pending. -/
theorem all_permitted_iff [DecidableEq π] (children : List π) (hchildren : children.Nodup)
    (requests : ℕ) (hrequests : requests ≤ children.length) (as : List (Choice π)) (s : State π)
    (es : List (Event π)) (hr : run step as (initial requests children) = some (s, es))
    (hs : s.Settled) :
    (∀ pid ∈ children, Permitted es pid) ↔ Meets step Alone (initial requests children) as := by
  obtain ⟨hasking, hsignal, hhandler⟩ := hs
  have hi := run_invariant hr
  have haccount := hi.account
  have hasked := hi.children
  rw [hasking, List.append_nil] at hasked
  rw [hsignal] at haccount
  rw [meets_iff_events alone_shows hr, ← merged_eq_nil,
    ← haccount.nothing_lost (hasked.nodup_iff.mp hchildren)]
  constructor
  · exact fun h p hp => permitted_received hi (h p (hasked.mem_iff.mpr hp))
  · intro h pid hpid
    have hlost := (haccount.nothing_lost (hasked.nodup_iff.mp hchildren)).mp h
    have hlength : (received es).length = children.length := by
      rw [Account, hlost] at haccount
      simpa using (hasked.trans haccount).length_eq.symm
    exact received_permitted hi hhandler (by omega) (h pid (hasked.mem_iff.mp hpid))

def inTurn : List (Choice ℕ) :=
  [.ask 11, .deliver, .handle, .handle, .handle, .handle, .handle, .ask 12, .deliver, .handle,
    .handle, .handle]

theorem all_permitted_iff_small : ∃ s es, run step inTurn (initial 1 [11, 12]) = some (s, es) ∧
    s.Settled ∧ ((∀ pid ∈ [11, 12], Permitted es pid) ↔
      Meets step Alone (initial 1 [11, 12]) inTurn) := by
  have hr : run step inTurn (initial 1 [11, 12]) = some (_, _) := rfl
  exact ⟨_, _, hr, ⟨rfl, rfl, rfl⟩,
    all_permitted_iff [11, 12] (by decide) 1 (by decide) inTurn _ _ hr ⟨rfl, rfl, rfl⟩⟩

/-- Two children ask before the parent handles the first request. -/
theorem second_request_merged : ¬ ∀ (children : List ℕ) (requests : ℕ) (as : List (Choice ℕ))
    (s : State ℕ) (es : List (Event ℕ)), children.Nodup → requests ≤ children.length →
      run step as (initial requests children) = some (s, es) → s.Settled →
        ∀ pid ∈ children, Permitted es pid := by
  intro h
  have hr : run step [.ask 11, .ask 12, .deliver, .handle, .handle, .handle]
      (initial 0 [11, 12]) = some (_, _) := rfl
  have h12 := h [11, 12] 0 _ _ _ (by decide) (by decide) hr ⟨rfl, rfl, rfl⟩ 12 (by decide)
  revert h12
  decide

end Semestr4.PermissionSignals
