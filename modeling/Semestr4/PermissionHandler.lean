import Mathlib.Data.List.Perm.Basic
import Mathlib.Order.Basic
import Semestr4.PermissionSignals

/-!
# The handler of the requests

Seen as a whole, the handler of `SIGUSR1` counts down. It stores the pids of the
first requests from the end of the array on, answers all of them when the count
is zero, and below zero it answers each request at once.
-/

set_option autoImplicit false

namespace Semestr4.PermissionHandler
open Semestr4.ScheduledRun

variable {π : Type*}

structure Globals (π : Type*) where
  requests : ℕ
  leftRequests : ℤ
  /-- `PENDING`, with `none` for the zeros of `calloc` -/
  pending : List (Option π)
  deriving DecidableEq, Repr

inductive Event (π : Type*) where
  | stored (i : ℤ) (pid : π)
  | read (i : ℤ) (pid : Option π)
  /-- `kill(pid, SIGUSR2)` -/
  | permission (pid : Option π)
  deriving DecidableEq, Repr

def initial (numberOfRequests : ℕ) : Globals π where
  requests := numberOfRequests
  leftRequests := numberOfRequests
  pending := List.replicate numberOfRequests none

def release (pending : List (Option π)) (requests : ℕ) : List (Event π) :=
  (List.range requests).flatMap fun (i : ℕ) =>
    [.read i (pending[i]?).join, .permission (pending[i]?).join]

/-- The case `SIGUSR1`. -/
def signalHandling (g : Globals π) (pid : π) : Globals π × List (Event π) :=
  let left := g.leftRequests-1
  let pending := if 0 ≤ left then g.pending.set left.toNat (some pid) else g.pending
  let first : Event π := if 0 ≤ left then .stored left pid else .permission (some pid)
  ({ g with leftRequests := left, pending := pending },
    first::if left = 0 then release pending g.requests else [])

def process (g : Globals π) (pids : List π) : Globals π × List (Event π) :=
  pids.foldl (fun p pid => ((signalHandling p.1 pid).1, p.2++(signalHandling p.1 pid).2)) (g, [])

theorem process_snoc (g : Globals π) (pids : List π) (pid : π) :
    process g (pids++[pid]) = ((signalHandling (process g pids).1 pid).1,
      (process g pids).2++(signalHandling (process g pids).1 pid).2) :=
  List.foldl_concat _ _ _ _

def sent (es : List (Event π)) : List (Option π) :=
  es.filterMap fun e => match e with
    | .permission pid => some pid
    | _ => none

theorem sent_append (es fs : List (Event π)) : sent (es++fs) = sent es++sent fs :=
  List.filterMap_append

def ReadsStored (es : List (Event π)) : Prop :=
  ∀ before after i pid, es = before++.read i pid::after →
    ∃ p, pid = some p ∧ Event.stored i p ∈ before

theorem ReadsStored.append {es fs : List (Event π)} (h : ReadsStored es)
    (hfs : ∀ i pid, Event.read i pid ∈ fs → ∃ p, pid = some p ∧ Event.stored i p ∈ es) :
    ReadsStored (es++fs) := by
  intro before after i pid heq
  rcases List.append_eq_append_iff.mp heq with ⟨as, rfl, hrest⟩ | ⟨bs, hes, hrest⟩
  · obtain ⟨p, hp, hstored⟩ := hfs i pid (hrest ▸ List.mem_append_right as (List.mem_cons_self ..))
    exact ⟨p, hp, List.mem_append_left as hstored⟩
  · cases bs with
    | nil =>
      rw [List.append_nil] at hes
      obtain ⟨p, hp, hstored⟩ := hfs i pid (by rw [← List.nil_append fs, ← hrest]; simp)
      exact ⟨p, hp, hes ▸ hstored⟩
    | cons b bs =>
      obtain ⟨rfl, -⟩ := List.cons.inj hrest
      exact h before bs i pid hes

/-- The array after some requests: the pids of the first ones, from the end on. -/
def filled (requests : ℕ) (pids : List π) : List (Option π) :=
  List.replicate (requests-pids.length) none++((pids.take requests).map some).reverse

def given (requests : ℕ) (pids : List π) : List (Option π) :=
  if pids.length < requests then []
  else ((pids.take requests).map some).reverse++(pids.drop requests).map some

theorem filled_length (requests : ℕ) (pids : List π) : (filled requests pids).length = requests := by
  simp only [filled, List.length_append, List.length_replicate, List.length_reverse,
    List.length_map, List.length_take]
  omega

theorem filled_store {requests : ℕ} {pids : List π} (h : pids.length < requests) (pid : π) :
    (filled requests pids).set (requests-pids.length-1) (some pid) =
      filled requests (pids++[pid]) := by
  obtain ⟨m, hm⟩ : ∃ m, requests-pids.length = m+1 := ⟨requests-pids.length-1, by omega⟩
  have hm' : requests-(pids++[pid]).length = m := by
    rw [List.length_append, List.length_singleton]
    omega
  have htake : (pids++[pid]).take requests = pids.take requests++[pid] := by
    rw [List.take_of_length_le (by simpa using Nat.succ_le_of_lt h),
      List.take_of_length_le (Nat.le_of_lt h)]
  rw [filled, filled, hm, hm', htake, List.replicate_succ', List.append_assoc, Nat.add_sub_cancel,
    List.set_append_right _ _ (Nat.le_of_eq List.length_replicate), List.length_replicate,
    Nat.sub_self]
  simp

theorem filled_full {requests : ℕ} {pids : List π} (h : requests ≤ pids.length) (pid : π) :
    filled requests (pids++[pid]) = filled requests pids := by
  rw [filled, filled, List.take_append_of_le_length h]
  congr 2
  rw [List.length_append]
  omega

theorem given_perm {requests : ℕ} {pids : List π} (h : requests ≤ pids.length) :
    (given requests pids).Perm (pids.map some) := by
  rw [given, if_neg (by omega)]
  have hall : pids.map some = (pids.take requests).map some++(pids.drop requests).map some := by
    rw [← List.map_append, List.take_append_drop]
  rw [hall]
  exact (List.reverse_perm _).append_right _

theorem sent_release_range (pending : List (Option π)) (requests : ℕ) :
    sent (release pending requests) =
      (List.range' 0 requests).map fun j => (pending[j]?).join := by
  rw [sent, release, List.filterMap_flatMap, ← List.range_eq_range']
  exact List.map_eq_flatMap.symm

theorem sent_release (pending : List (Option π)) :
    sent (release pending pending.length) = pending := by
  rw [sent_release_range]
  refine List.ext_getElem (by simp) fun i hi hi' => ?_
  simp [List.getElem?_eq_getElem hi']

theorem release_reads {pending : List (Option π)} {requests : ℕ} {i : ℤ} {pid : Option π}
    (h : Event.read i pid ∈ release pending requests) :
    ∃ j : ℕ, i = j ∧ j < requests ∧ pid = (pending[j]?).join := by
  simp only [release, List.mem_flatMap, List.mem_range, List.mem_cons, List.not_mem_nil, or_false,
    Event.read.injEq, reduceCtorEq] at h
  obtain ⟨j, hj, rfl, hpid⟩ := h
  exact ⟨j, rfl, hj, hpid⟩

theorem release_stores {pending : List (Option π)} {requests : ℕ} {i : ℤ} {pid : π} :
    Event.stored i pid ∉ release pending requests := by
  simp [release]

structure Places (awaited : ℕ) (pids : List π) (pending : List (Option π))
    (es : List (Event π)) : Prop where
  filled : pending = filled awaited pids
  inside : ∀ i pid, Event.stored i pid ∈ es → 0 ≤ i ∧ i < awaited
  stored : ∀ (i : ℕ) pid, pending[i]? = some (some pid) → Event.stored i pid ∈ es
  reads : ReadsStored es

theorem Places.store {awaited : ℕ} {pids : List π} {pending : List (Option π)}
    {es : List (Event π)} (h : Places awaited pids pending es) (hlt : pids.length < awaited)
    (pid : π) : Places awaited (pids++[pid])
      (pending.set (awaited-pids.length-1) (some pid))
      (es++[.stored (awaited-pids.length-1 : ℕ) pid]) := by
  constructor
  · rw [h.filled, filled_store hlt]
  · intro i p hi
    rcases List.mem_append.mp hi with hi | hi
    · exact h.inside i p hi
    · cases List.mem_singleton.mp hi
      omega
  · intro i p hi
    by_cases hplace : i = awaited-pids.length-1
    · subst hplace
      rw [List.getElem?_set_self (by rw [h.filled, filled_length]; omega)] at hi
      cases hi
      exact List.mem_append_right es (List.mem_singleton_self _)
    · rw [List.getElem?_set_ne (Ne.symm hplace)] at hi
      exact List.mem_append_left _ (h.stored i p hi)
  · refine h.reads.append fun i p hread => ?_
    cases List.mem_singleton.mp hread

theorem Places.release {awaited : ℕ} {pids : List π} {pending : List (Option π)}
    {es : List (Event π)} (h : Places awaited pids pending es) (hle : awaited ≤ pids.length) :
    Places awaited pids pending (es++release pending awaited) := by
  refine ⟨h.filled, fun i p hi => ?_, fun i p hi => ?_, ?_⟩
  · exact h.inside i p ((List.mem_append.mp hi).resolve_right release_stores)
  · exact List.mem_append_left _ (h.stored i p hi)
  · refine h.reads.append fun i p hread => ?_
    obtain ⟨j, rfl, hj, rfl⟩ := release_reads hread
    have hlength : j < pending.length := by rwa [h.filled, filled_length]
    have hmem : pending[j] ∈ (pids.take awaited).map some := by
      rw [← List.mem_reverse]
      have hget := List.getElem_mem hlength
      simpa only [h.filled, PermissionHandler.filled, Nat.sub_eq_zero_of_le hle,
        List.replicate_zero, List.nil_append] using hget
    obtain ⟨p, -, hp⟩ := List.mem_map.mp hmem
    have hat : pending[j]? = some (some p) := by rw [List.getElem?_eq_getElem hlength, hp]
    exact ⟨p, by rw [hat]; rfl, h.stored j p hat⟩

theorem Places.answer {awaited : ℕ} {pids : List π} {pending : List (Option π)}
    {es : List (Event π)} (h : Places awaited pids pending es) (hle : awaited ≤ pids.length)
    (pid : π) : Places awaited (pids++[pid]) pending (es++[.permission (some pid)]) := by
  refine ⟨?_, fun i p hi => ?_, fun i p hi => ?_, ?_⟩
  · rw [h.filled, filled_full hle]
  · exact h.inside i p ((List.mem_append.mp hi).resolve_right (by simp))
  · exact List.mem_append_left _ (h.stored i p hi)
  · refine h.reads.append fun i p hread => ?_
    cases List.mem_singleton.mp hread

structure Kept (awaited : ℕ) (pids : List π) (g : Globals π) (es : List (Event π)) : Prop where
  requests : g.requests = awaited
  left : g.leftRequests = awaited-pids.length
  places : Places awaited pids g.pending es
  sent : sent es = given awaited pids

theorem initial_kept (awaited : ℕ) : Kept awaited [] (initial awaited : Globals π) [] := by
  refine ⟨rfl, by simp [initial], ⟨?_, fun i pid h => ?_, fun i pid h => ?_, ?_⟩, ?_⟩
  · simp [initial, filled]
  · cases h
  · have hmem := List.eq_of_mem_replicate (List.mem_of_getElem? h)
    cases hmem
  · intro before after i pid h
    simp at h
  · simp [PermissionHandler.sent, given]

theorem signalHandling_store {g : Globals π} {n : ℕ} (h : g.leftRequests-1 = n) (pid : π) :
    signalHandling g pid =
      ({ g with leftRequests := n, pending := g.pending.set n (some pid) },
        .stored n pid::if n = 0 then release (g.pending.set n (some pid)) g.requests else []) := by
  simp [signalHandling, h]

theorem signalHandling_answer {g : Globals π} (h : g.leftRequests-1 < 0) (pid : π) :
    signalHandling g pid =
      ({ g with leftRequests := g.leftRequests-1 }, [.permission (some pid)]) := by
  simp only [signalHandling, if_neg (Int.not_le.mpr h), if_neg (Int.ne_of_lt h)]

theorem Kept.handle {awaited : ℕ} {pids : List π} {g : Globals π} {es : List (Event π)}
    (h : Kept awaited pids g es) (pid : π) :
    Kept awaited (pids++[pid]) (signalHandling g pid).1 (es++(signalHandling g pid).2) := by
  have hlength : (pids++[pid]).length = pids.length+1 := List.length_append
  have hleft := h.left
  by_cases hlt : pids.length < awaited
  · have hplaces := h.places.store hlt pid
    have hsent : PermissionHandler.sent (es++[.stored (awaited-pids.length-1 : ℕ) pid]) = [] := by
      rw [sent_append, h.sent, given, if_pos hlt]
      rfl
    rw [signalHandling_store (n := awaited-pids.length-1) (by omega)]
    by_cases hlast : awaited-pids.length-1 = 0
    · have hall : awaited ≤ (pids++[pid]).length := by omega
      have hrelease := sent_release (filled awaited (pids++[pid]))
      rw [filled_length] at hrelease
      simp only [if_pos hlast, h.requests]
      rw [List.append_cons es]
      refine ⟨rfl, by simp only [hlength]; omega, hplaces.release hall, ?_⟩
      rw [sent_append, hsent, hplaces.filled, hrelease, given, if_neg (by omega), filled,
        Nat.sub_eq_zero_of_le hall, List.drop_of_length_le (by omega)]
      simp
    · simp only [if_neg hlast]
      refine ⟨h.requests, by simp only [hlength]; omega, hplaces, ?_⟩
      rw [hsent, given, if_pos (by omega)]
  · have hle : awaited ≤ pids.length := Nat.le_of_not_lt hlt
    rw [signalHandling_answer (by omega)]
    refine ⟨h.requests, by simp only [hlength]; omega, h.places.answer hle pid, ?_⟩
    rw [sent_append, h.sent, given, given, if_neg hlt, if_neg (by omega),
      List.take_append_of_le_length hle, List.drop_append_of_le_length hle]
    simp [PermissionHandler.sent]

theorem process_kept (awaited : ℕ) (pids : List π) :
    Kept awaited pids (process (initial awaited) pids).1 (process (initial awaited) pids).2 := by
  induction pids using List.reverseRecOn with
  | nil => exact initial_kept awaited
  | append_singleton pids pid ih =>
    rw [process_snoc]
    exact ih.handle pid

/-- No permission is given before as many requests as are awaited, then each
request has one. The array is written inside, and read where it was written. -/
theorem permissions_given (requests : ℕ) (pids : List π) :
    (pids.length < requests → sent (process (initial requests) pids).2 = []) ∧
    (requests ≤ pids.length →
      (sent (process (initial requests) pids).2).Perm (pids.map some)) ∧
    (∀ i pid, Event.stored i pid ∈ (process (initial requests) pids).2 → 0 ≤ i ∧ i < requests) ∧
    ReadsStored (process (initial requests) pids).2 := by
  have h := process_kept requests pids
  refine ⟨fun hlt => ?_, fun hle => ?_, h.places.inside, h.places.reads⟩
  · rw [h.sent, given, if_pos hlt]
  · rw [h.sent]
    exact given_perm hle

def globals (s : PermissionSignals.State π) : Globals π := ⟨s.requests, s.leftRequests, s.array⟩

def permissions (es : List (PermissionSignals.Event π)) : List (Option π) :=
  es.filterMap fun e => match e with
    | .permission pid => some pid
    | _ => none

theorem permissions_append (es fs : List (PermissionSignals.Event π)) :
    permissions (es++fs) = permissions es++permissions fs := List.filterMap_append

section
variable [DecidableEq π]

theorem permit_run {n i : ℕ} {s : PermissionSignals.State π}
    (hs : s.handler = some (.permit i)) (hn : s.requests = i+n) :
    ∃ es, run PermissionSignals.step (List.replicate (n+1) .handle) s =
        some ({ s with handler := none }, es) ∧
      permissions es = (List.range' i n).map fun j => (s.array[j]?).join := by
  induction n generalizing i s with
  | zero =>
    have hstep : PermissionSignals.step s .handle = some ({ s with handler := none }, []) := by
      simp [PermissionSignals.step, hs, PermissionSignals.handle, hn]
    exact ⟨[], run_cons.mpr ⟨_, [], [], hstep, rfl, rfl⟩, rfl⟩
  | succ n ih =>
    have hstep : PermissionSignals.step s .handle =
        some ({ s with handler := some (.permit (i+1)) }, [.permission (s.array[i]?).join]) := by
      simp [PermissionSignals.step, hs, PermissionSignals.handle, hn]
    obtain ⟨es, hr, hes⟩ := ih (i := i+1) (s := { s with handler := some (.permit (i+1)) }) rfl
      (by simp only [hn]; omega)
    refine ⟨_, run_cons.mpr ⟨_, _, es, hstep, hr, rfl⟩, ?_⟩
    rw [permissions_append, hes, List.range'_succ, List.map_cons]
    rfl

theorem placed_run (g : Globals π) (pid : π) (asking : List π) :
    run PermissionSignals.step [.deliver, .handle, .handle]
        ⟨g.requests, g.leftRequests, g.pending, none, some pid, asking⟩ =
      some (⟨g.requests, g.leftRequests-1,
        if 0 ≤ g.leftRequests-1 then g.pending.set (g.leftRequests-1).toNat (some pid) else g.pending,
        some .compare, none, asking⟩,
        .received pid::if 0 ≤ g.leftRequests-1 then [] else [.permission (some pid)]) := by
  by_cases hleft : 0 ≤ g.leftRequests-1
  · simp only [run, PermissionSignals.step, PermissionSignals.handle, Option.map_some,
      Option.bind_some, if_pos hleft, List.append_nil]
  · simp only [run, PermissionSignals.step, PermissionSignals.handle, Option.map_some,
      Option.bind_some, if_neg hleft, List.append_nil, List.nil_append, List.singleton_append]

theorem compared_run (g : Globals π) (asking : List π) : ∃ n es,
    run PermissionSignals.step (List.replicate n .handle)
        ⟨g.requests, g.leftRequests, g.pending, some .compare, none, asking⟩ =
      some (⟨g.requests, g.leftRequests, g.pending, none, none, asking⟩, es) ∧
    permissions es = sent (if g.leftRequests = 0 then release g.pending g.requests else []) := by
  by_cases hzero : g.leftRequests = 0
  · obtain ⟨es, hr, hes⟩ := permit_run (n := g.requests) (i := 0)
      (s := ⟨g.requests, g.leftRequests, g.pending, some (.permit 0), none, asking⟩)
      rfl (Nat.zero_add _).symm
    refine ⟨g.requests+2, es, ?_, ?_⟩
    · rw [List.replicate_succ]
      refine run_cons.mpr ⟨_, [], es, ?_, hr, rfl⟩
      simp only [PermissionSignals.step, PermissionSignals.handle, if_pos hzero, Option.map_some]
    · rw [hes, if_pos hzero, sent_release_range]
  · refine ⟨1, [], ?_, by rw [if_neg hzero]; rfl⟩
    simp only [run, PermissionSignals.step, PermissionSignals.handle, if_neg hzero,
      List.replicate_one, Option.map_some, Option.bind_some, List.append_nil]

/-- The statements of the handler, one after another, do what it does as a whole. -/
theorem handler_run (g : Globals π) (pid : π) (asking : List π) : ∃ n t es,
    run PermissionSignals.step (.deliver::List.replicate n .handle)
        ⟨g.requests, g.leftRequests, g.pending, none, some pid, asking⟩ = some (t, es) ∧
      t.handler = none ∧ globals t = (signalHandling g pid).1 ∧
      permissions es = sent (signalHandling g pid).2 := by
  have hfirst : permissions (.received pid::
      if 0 ≤ g.leftRequests-1 then [] else [.permission (some pid)]) =
        sent [if 0 ≤ g.leftRequests-1 then .stored (g.leftRequests-1) pid
          else .permission (some pid)] := by
    split <;> rfl
  have hsent : sent (signalHandling g pid).2 =
      sent [if 0 ≤ g.leftRequests-1 then .stored (g.leftRequests-1) pid
        else .permission (some pid)] ++
      sent (if g.leftRequests-1 = 0 then release (signalHandling g pid).1.pending g.requests
        else []) := (congrArg sent List.singleton_append.symm).trans (sent_append _ _)
  obtain ⟨n, es, hcompared, hes⟩ := compared_run (signalHandling g pid).1 asking
  have hwhole := run_append.mpr ⟨_, _, es, placed_run g pid asking, hcompared, rfl⟩
  have hreplicate : PermissionSignals.Choice.deliver::List.replicate (2+n) .handle =
      ([.deliver, .handle, .handle] : List (PermissionSignals.Choice π))++
        List.replicate n .handle := by
    rw [List.replicate_add]
    rfl
  rw [← hreplicate] at hwhole
  refine ⟨2+n, _, _, hwhole, rfl, rfl, ?_⟩
  rw [hsent, permissions_append, hfirst, hes]
  rfl

end

end Semestr4.PermissionHandler
