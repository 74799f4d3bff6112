import Semestr4.PollutionOutcome

/-!
# The pollution server

The process that owns the monitor takes one message after the other. Whatever a
changing call returns is passed on to `loop`, so a rejection becomes the state.
The reply to such a call is sent before the call is made; a reader's result is
the reply, and the monitor stays. A call that raises ends the process. `start` spawns
the process with `init`, which the module does not export; what follows is about the
process once `init` runs.
-/

set_option autoImplicit false

namespace Semestr4.PollutionServer
open Semestr4.ErlangTerm Semestr4.PollutionMonitor Semestr4.PollutionInvariant
open Semestr4.PollutionOutcome Semestr4.ScheduledRun

inductive Request where
  | addS (name location : Term)
  | addV (place time type val : Term)
  | rmV (place time type : Term)
  | get1V (place time type : Term)
  | getSMean (place type : Term)
  | getDMean (time type : Term)
  | getMinS (type : Term)
  deriving DecidableEq, Repr

inductive Message (ι : Type*) where
  | msg (pid : ι) (request : Request)
  | stop

inductive Server where
  | loop (monitor : Monitor)
  | exited
  | crashed (raised : Raised)

variable {ι : Type*} (floats : Arithmetic)

def ok : Term := .atom "ok"

/-- `Pid ! ok, loop(Result)`. -/
def pass (pid : ι) (result : Except Raised Monitor) : Server × List (ι × Term) :=
  match result with
  | .ok monitor => (.loop monitor, [(pid, ok)])
  | .error raised => (.crashed raised, [(pid, ok)])

/-- `Pid ! Result, loop(Monitor)`. -/
def reply (pid : ι) (result : Except Raised Term) (monitor : Monitor) : Server × List (ι × Term) :=
  match result with
  | .ok answer => (.loop monitor, [(pid, answer)])
  | .error raised => (.crashed raised, [])

/-- The clauses for a pair and for a name make the same call. -/
def loop (monitor : Monitor) : Message ι → Server × List (ι × Term)
  | .msg pid (.addS name location) => pass pid (addStation name location monitor)
  | .msg pid (.addV place time type val) => pass pid (addValue place time type val monitor)
  | .msg pid (.rmV place time type) => pass pid (removeValue place time type monitor)
  | .msg pid (.get1V place time type) => reply pid (getOneValue place time type monitor) monitor
  | .msg pid (.getSMean place type) => reply pid (getStationMean floats place type monitor) monitor
  | .msg pid (.getDMean time type) => reply pid (getDailyMean floats time type monitor) monitor
  | .msg pid (.getMinS type) => reply pid (getMinimumPollutionStation type monitor) monitor
  | .stop => (.exited, [])

/-- A server that has ended processes no more messages. -/
def serve : Step Server (Message ι) (ι × Term)
  | .loop monitor, message => some (loop floats monitor message)
  | .exited, _ => none
  | .crashed _, _ => none

def init : Server := .loop (.map createMonitor)

def Request.call : Request → Option Call
  | .addS name location => some (.addStation name location)
  | .addV place time type val => some (.addValue place time type val)
  | .rmV place time type => some (.removeValue place time type)
  | _ => none

def Rejects : Server → Message ι → Prop
  | .loop monitor, .msg _ request =>
    ∃ call s, request.call = some call ∧ call.apply monitor = .ok (.text s)
  | _, _ => False

/-- If the message passes a state to `loop`, it is a map, and it is the old one
if the request was rejected. -/
def Kept (s : Server) (message : Message ι) : Prop :=
  ∀ t replies monitor, serve floats s message = some (t, replies) → t = .loop monitor →
    (∃ m, monitor = .map m) ∧ (Rejects s message → t = s)

def Refused : Server → Message ι → Prop
  | .loop (.map m), .msg _ request => ∃ call, request.call = some call ∧ Refuses m call
  | _, _ => False

variable {floats}

theorem serve_call {monitor : Monitor} {pid : ι} {request : Request} {call : Call}
    (h : request.call = some call) :
    serve floats (.loop monitor) (.msg pid request) = some (pass pid (call.apply monitor)) := by
  cases request <;> cases h <;> rfl

theorem serve_query (floats : Arithmetic) {request : Request} (h : request.call = none)
    (monitor : Monitor) (pid : ι) : ∃ result, serve floats (.loop monitor) (.msg pid request) =
      some (reply pid result monitor) := by
  cases request <;> cases h <;> exact ⟨_, rfl⟩

inductive Serves (m : Stations) : Message ι → Server → List (ι × Term) → Prop
  | changed {pid : ι} {request : Request} {call : Call} {n : Stations}
      (hcall : request.call = some call) (happly : call.apply (.map m) = .ok (.map n)) :
      Serves m (.msg pid request) (.loop (.map n)) [(pid, ok)]
  | refused {pid : ι} {request : Request} {call : Call} {s : String}
      (hcall : request.call = some call) (happly : call.apply (.map m) = .ok (.text s)) :
      Serves m (.msg pid request) (.loop (.text s)) [(pid, ok)]
  | raised {pid : ι} {request : Request} {call : Call} {r : Raised}
      (hcall : request.call = some call) (happly : call.apply (.map m) = .error r) :
      Serves m (.msg pid request) (.crashed r) [(pid, ok)]
  | answered {pid : ι} {request : Request} {answer : Term} (hcall : request.call = none) :
      Serves m (.msg pid request) (.loop (.map m)) [(pid, answer)]
  | failed {pid : ι} {request : Request} {r : Raised} (hcall : request.call = none) :
      Serves m (.msg pid request) (.crashed r) []
  | stopped : Serves m .stop .exited []

theorem serve_map {m : Stations} {message : Message ι} {t : Server} {replies : List (ι × Term)}
    (h : serve floats (.loop (.map m)) message = some (t, replies)) :
    Serves m message t replies := by
  cases message with
  | stop =>
    cases h
    exact .stopped
  | msg pid request =>
    cases hcall : request.call with
    | some call =>
      rw [serve_call hcall] at h
      cases happly : call.apply (.map m) with
      | error r =>
        rw [happly] at h
        cases h
        exact .raised hcall happly
      | ok monitor =>
        rw [happly] at h
        cases h
        cases monitor with
        | map n => exact .changed hcall happly
        | text s => exact .refused hcall happly
    | none =>
      obtain ⟨result, hs⟩ := serve_query floats hcall (.map m) pid
      rw [hs] at h
      cases result with
      | ok answer =>
        cases h
        exact .answered hcall
      | error r =>
        cases h
        exact .failed hcall

theorem serve_some (floats : Arithmetic) (monitor : Monitor) (message : Message ι) :
    ∃ t replies, serve floats (.loop monitor) message = some (t, replies) := ⟨_, _, rfl⟩

theorem serve_text {text : String} {message : Message ι} {t : Server}
    {replies : List (ι × Term)} (h : serve floats (.loop (.text text)) message = some (t, replies))
    (m : Stations) : t ≠ .loop (.map m) := by
  rintro rfl
  cases message with
  | stop => cases h
  | msg pid request =>
    cases hcall : request.call with
    | some call =>
      obtain ⟨r, hr⟩ := apply_text call text
      rw [serve_call hcall, hr] at h
      cases h
    | none =>
      obtain ⟨result, hs⟩ := serve_query floats hcall (.text text) pid
      rw [hs] at h
      cases result <;> cases h

def Sound (s : Server) : Prop := ∀ monitor, s = .loop monitor → ∃ m, monitor = .map m ∧ Wellformed m

theorem init_sound : Sound init := by
  intro monitor h
  cases h
  exact ⟨createMonitor, rfl, empty_wellformed⟩

theorem rejects_iff {m : Stations} (hm : Wellformed m) (message : Message ι) :
    Rejects (.loop (.map m)) message ↔ Refused (.loop (.map m)) message := by
  cases message with
  | stop => rfl
  | msg pid request =>
    constructor
    · rintro ⟨call, s, hcall, happly⟩
      exact ⟨call, hcall, (refuses_iff hm call).mp ⟨s, happly⟩⟩
    · rintro ⟨call, hcall, hrefuses⟩
      obtain ⟨s, happly⟩ := apply_refuses hm hrefuses
      exact ⟨call, s, hcall, happly⟩

/-- Only a refused request leaves a text. -/
theorem Serves.refused_iff {m : Stations} {message : Message ι} {t : Server}
    {replies : List (ι × Term)} (hm : Wellformed m) (h : Serves m message t replies) :
    Refused (.loop (.map m)) message ↔ ∃ s, t = .loop (.text s) := by
  cases h with
  | stopped => simp [Refused]
  | answered hcall => simp [Refused, hcall]
  | failed hcall => simp [Refused, hcall]
  | changed hcall happly =>
    simp only [Refused, hcall, Option.some.injEq, exists_eq_left', ← refuses_iff hm, happly]
    simp
  | refused hcall happly =>
    simp only [Refused, hcall, Option.some.injEq, exists_eq_left', ← refuses_iff hm, happly]
    simp
  | raised hcall happly =>
    simp only [Refused, hcall, Option.some.injEq, exists_eq_left', ← refuses_iff hm, happly]
    simp

theorem kept_iff {s : Server} (hs : Sound s) (message : Message ι) :
    Kept floats s message ↔ ¬ Refused s message := by
  cases s with
  | exited => exact iff_of_true (fun _ _ _ h => by cases h) id
  | crashed r => exact iff_of_true (fun _ _ _ h => by cases h) id
  | loop monitor =>
    obtain ⟨m, rfl, hm⟩ := hs monitor rfl
    constructor
    · intro hkept hrefused
      obtain ⟨t, replies, h⟩ := serve_some floats (.map m) message
      obtain ⟨text, ht⟩ := ((serve_map h).refused_iff hm).mp hrefused
      obtain ⟨⟨n, hn⟩, -⟩ := hkept t replies (.text text) h ht
      cases hn
    · intro hrefused t replies monitor h ht
      have hrejects := mt (rejects_iff hm message).mp hrefused
      have hcond := (serve_map h).refused_iff hm
      cases monitor with
      | map n => exact ⟨⟨n, rfl⟩, fun hr => absurd hr hrejects⟩
      | text text => exact absurd (hcond.mpr ⟨text, ht⟩) hrefused

theorem sound_next {s t : Server} {message : Message ι} {replies : List (ι × Term)}
    (hs : Sound s) (hrefused : ¬ Refused s message)
    (h : serve floats s message = some (t, replies)) :
    Sound t := by
  cases s with
  | exited => cases h
  | crashed r => cases h
  | loop monitor =>
    obtain ⟨m, rfl, hm⟩ := hs monitor rfl
    have hserves := serve_map h
    have hcond := hserves.refused_iff hm
    intro monitor ht
    cases hserves with
    | changed hcall happly =>
      cases ht
      exact ⟨_, rfl, apply_wellformed hm happly⟩
    | answered hcall =>
      cases ht
      exact ⟨m, rfl, hm⟩
    | refused hcall happly => exact absurd (hcond.mpr ⟨_, rfl⟩) hrefused
    | raised hcall happly => cases ht
    | failed hcall => cases ht
    | stopped => cases ht

/-- The states passed to `loop` are maps and survive rejected requests exactly
in the runs in which no monitor refuses a request. -/
theorem state_kept_iff (floats : Arithmetic) (messages : List (Message ι)) :
    Meets (serve floats) (Kept floats) init messages ↔
      Meets (serve floats) (fun s message => ¬ Refused s message) init messages := by
  apply meets_congr (I := Sound) init_sound _ fun s message hs => kept_iff hs message
  intro s message t replies hs hkept h
  exact sound_next hs ((kept_iff hs message).mp hkept) h

def duplicate : List (Message ℕ) :=
  [.msg 0 (.addS (.atom "a") (.pair (.int 1) (.int 2)))] ++
    [.msg 0 (.addS (.atom "a") (.pair (.int 3) (.int 4)))]

theorem duplicate_station_lost :
    run (serve doubles) duplicate init = some (.loop (.text stationExists), [(0, ok), (0, ok)]) ∧
    ¬ Meets (serve doubles) (Kept doubles) init duplicate := by
  have hr : run (serve doubles) duplicate init =
    some (.loop (.text stationExists), [(0, ok), (0, ok)]) := rfl
  refine ⟨hr, ?_⟩
  intro h
  obtain ⟨s, fs, gs, hfirst, hlast, -⟩ := run_snoc.mp hr
  obtain ⟨⟨m, hm⟩, -⟩ := h.last hfirst _ _ _ hlast rfl
  cases hm

end Semestr4.PollutionServer
