import Semestr4.PollutionServer

/-!
# Requests for a station that does not exist

A name without a station is found missing by the map, and told so. A location
without a station raises in `getName`, in whichever call, and the mean of a
station has no clause for names. In the server each of these ends the process.
-/

set_option autoImplicit false

namespace Semestr4.PollutionMissing
open Semestr4.ErlangTerm Semestr4.PollutionMonitor Semestr4.PollutionInvariant
open Semestr4.PollutionOutcome Semestr4.PollutionServer Semestr4.ScheduledRun

variable {ι : Type*} (floats : Arithmetic)

def isNumber : Term → Bool
  | .int _ => true
  | .float _ => true
  | _ => false

/-- The place is the location, or where it is no pair the name, of no station. -/
def NoStation (m : Stations) (place : Term) : Prop :=
  if place.isPair then
    ∀ key station, m.lookup key = some station → ¬ station.location.Same place
  else m.lookup place = none

def Unknown (m : Stations) : Request → Prop
  | .addV place _ _ val => NoStation m place ∧ isNumber val = true
  | .rmV place _ _ => NoStation m place
  | .get1V place _ _ => NoStation m place
  | .getSMean place _ => NoStation m place
  | _ => False

def Tells (m : Stations) : Request → Prop
  | .addV place time type val => addValue place time type val (.map m) = .ok (.text noSuchStation)
  | .rmV place time type => removeValue place time type (.map m) = .ok (.text noSuchStation)
  | .get1V place time type => getOneValue place time type (.map m) = .ok (.text noSuchStation)
  | .getSMean place type => getStationMean floats place type (.map m) = .ok (.text noSuchStation)
  | _ => False

def Survives (m : Stations) (message : Message ι) : Prop :=
  ∀ t replies, serve floats (.loop (.map m)) message = some (t, replies) → ∀ r, t ≠ .crashed r

def ByName : Request → Prop
  | .addV place _ _ val => place.isPair = false ∧ (float val).isSome
  | .rmV place _ _ => place.isPair = false
  | .get1V place _ _ => place.isPair = false
  | _ => False

def FailsFor (m : Stations) : Request → Prop
  | .addV place time type val => FailsOn m (.addValue place time type val)
  | .rmV place time type => FailsOn m (.removeValue place time type)
  | .get1V place _ _ => Vacant m place
  | .getSMean place _ => place.isPair = false ∨ Vacant m place
  | _ => False

variable {floats}

theorem NoStation.lookup {m : Stations} {place : Term} (hname : place.isPair = false)
    (h : NoStation m place) : m.lookup place = none := by
  unfold NoStation at h
  rwa [if_neg (by simp [hname])] at h

theorem find_unknown {m : Stations} {place : Term} (hname : place.isPair = false)
    (h : NoStation m place) : find place m = .ok none := by
  rw [find, if_neg (by simp [hname]), h.lookup hname]
  rfl

theorem getOneValue_unknown {m : Stations} {place : Term} (hname : place.isPair = false)
    (h : NoStation m place) (time type : Term) :
    getOneValue place time type (.map m) = .ok (.text noSuchStation) := by
  simp only [getOneValue, keyOf, hname, Bool.false_eq_true, if_false, mapsFind, h.lookup hname,
    bind, Except.bind]
  rfl

theorem NoStation.vacant {m : Stations} {place : Term} (hpair : place.isPair = true)
    (h : NoStation m place) : Vacant m place := by
  unfold NoStation at h
  rw [if_pos hpair] at h
  exact ⟨hpair, h⟩

theorem unknown_told (floats : Arithmetic) {m : Stations} {request : Request}
    (h : Unknown m request) (hname : ByName request) : Tells floats m request := by
  cases request with
  | addV place time type val =>
    obtain ⟨value, hvalue⟩ := toFloat_some hname.2
    simp only [Tells, addValue_map, hvalue, find_unknown hname.1 h.1]
    rfl
  | rmV place time type =>
    simp only [Tells, removeValue_map, find_unknown hname h]
    rfl
  | get1V place time type => exact getOneValue_unknown hname h time type
  | addS name location => exact h.elim
  | getSMean place type => exact hname.elim
  | getDMean time type => exact h.elim
  | getMinS type => exact h.elim

theorem unknown_fails {m : Stations} {request : Request} (h : Unknown m request)
    (hname : ¬ ByName request) : FailsFor m request := by
  have hvacant : ∀ {place : Term}, place.isPair ≠ false → NoStation m place → Vacant m place :=
    fun hpair h => h.vacant (Bool.not_eq_false _ ▸ hpair)
  cases request with
  | addV place time type val =>
    by_cases hpair : place.isPair = false
    · left
      rw [← Option.not_isSome_iff_eq_none]
      exact fun hval => hname ⟨hpair, hval⟩
    · exact Or.inr (hvacant hpair h.1)
  | rmV place time type => exact hvacant hname h
  | get1V place time type => exact hvacant hname h
  | getSMean place type =>
    by_cases hpair : place.isPair = false
    · exact Or.inl hpair
    · exact Or.inr (hvacant hpair h)
  | addS name location => exact h.elim
  | getDMean time type => exact h.elim
  | getMinS type => exact h.elim

theorem call_survives {m : Stations} {request : Request} {call : Call}
    (hcall : request.call = some call) (pid : ι) :
    Survives floats m (.msg pid request) ↔ ∃ monitor, call.apply (.map m) = .ok monitor := by
  simp only [Survives, serve_call hcall, Option.some.injEq]
  cases call.apply (.map m) with
  | ok monitor =>
    refine iff_of_true ?_ ⟨monitor, rfl⟩
    rintro t replies hs r rfl
    cases hs
  | error r =>
    refine iff_of_false (fun hs => hs _ _ rfl r rfl) ?_
    rintro ⟨monitor, h⟩
    cases h

theorem query_survives {m : Stations} {pid : ι} {request : Request} {result : Except Raised Term}
    (hloop : loop floats (.map m) (.msg pid request) = reply pid result (.map m)) :
    Survives floats m (.msg pid request) ↔ ∃ answer, result = .ok answer := by
  simp only [Survives, serve, hloop, Option.some.injEq]
  cases result with
  | ok answer =>
    refine iff_of_true ?_ ⟨answer, rfl⟩
    rintro t replies hs r rfl
    cases hs
  | error r =>
    refine iff_of_false (fun hs => hs _ _ rfl r rfl) ?_
    rintro ⟨answer, h⟩
    cases h

theorem told_survives {m : Stations} {request : Request} (h : Tells floats m request) (pid : ι) :
    Survives floats m (.msg pid request) := by
  cases request with
  | addV place time type val =>
    rw [call_survives rfl]
    exact ⟨_, h⟩
  | rmV place time type =>
    rw [call_survives rfl]
    exact ⟨_, h⟩
  | get1V place time type =>
    rw [query_survives rfl]
    exact ⟨_, h⟩
  | getSMean place type =>
    rw [query_survives rfl]
    exact ⟨_, h⟩
  | addS name location => exact h.elim
  | getDMean time type => exact h.elim
  | getMinS type => exact h.elim

theorem fails_crashed (floats : Arithmetic) {m : Stations} {request : Request}
    (h : FailsFor m request) (pid : ι) : ¬ Survives floats m (.msg pid request) := by
  cases request with
  | addV place time type val =>
    obtain ⟨r, hr⟩ := apply_fails (show FailsOn m (.addValue place time type val) from h)
    rw [call_survives rfl, hr]
    simp
  | rmV place time type =>
    obtain ⟨r, hr⟩ := apply_fails (show FailsOn m (.removeValue place time type) from h)
    rw [call_survives rfl, hr]
    simp
  | get1V place time type =>
    rw [query_survives rfl, getOneValue_vacant h]
    simp
  | getSMean place type =>
    rw [query_survives rfl]
    rcases h with hname | hvacant
    · rw [getStationMean_name floats hname]
      simp
    · rw [getStationMean_vacant floats hvacant]
      simp
  | addS name location => exact h.elim
  | getDMean time type => exact h.elim
  | getMinS type => exact h.elim

/-- A request for a station that does not exist is told so, and leaves the server
running, if and only if it is by name, not for a mean, and its value can be made
a float. -/
theorem unknown_told_iff (floats : Arithmetic) {m : Stations} {request : Request}
    (h : Unknown m request) (pid : ι) :
    (Tells floats m request ↔ ByName request) ∧
    (Survives floats m (.msg pid request) ↔ ByName request) := by
  by_cases hname : ByName request
  · have ht := unknown_told floats h hname
    exact ⟨iff_of_true ht hname, iff_of_true (told_survives ht pid) hname⟩
  · have hf := fails_crashed floats (unknown_fails h hname) pid
    exact ⟨iff_of_false (fun ht => hf (told_survives ht pid)) hname, iff_of_false hf hname⟩

def oneStation : Stations :=
  createMonitor.insert (.atom "a") ⟨.pair (.int 1) (.int 2), []⟩

theorem unknown_told_small :
    Tells doubles oneStation (.rmV (.atom "b") (.int 7) (.atom "pm10")) ∧
    Survives doubles oneStation (.msg 0 (.rmV (.atom "b") (.int 7) (.atom "pm10"))) ∧
    ¬ Survives doubles oneStation
      (.msg 0 (.rmV (.pair (.int 3) (.int 4)) (.int 7) (.atom "pm10"))) := by
  have hname : Unknown oneStation (.rmV (.atom "b") (.int 7) (.atom "pm10")) := by
    change oneStation.lookup (.atom "b") = none
    rfl
  have hplace : Unknown oneStation (.rmV (.pair (.int 3) (.int 4)) (.int 7) (.atom "pm10")) := by
    intro key station hkey hlocation
    have hmem := AList.mem_lookup_iff.mp hkey
    obtain rfl : station = ⟨.pair (.int 1) (.int 2), []⟩ := by
      have hentries : oneStation.entries = [⟨.atom "a", ⟨.pair (.int 1) (.int 2), []⟩⟩] := rfl
      rw [hentries, List.mem_singleton] at hmem
      cases hmem
      rfl
    revert hlocation
    decide
  have h := unknown_told_iff doubles hname 0
  refine ⟨h.1.mpr rfl, h.2.mpr rfl, fun hs => ?_⟩
  cases (unknown_told_iff doubles hplace 0).2.mp hs

/-- On an empty monitor the removal of a value at a location ends the process. -/
theorem location_unanswered : ¬ ∀ m, Reachable step createMonitor m → ∀ request, Unknown m request →
    Tells doubles m request ∧ Survives doubles m (.msg 0 request) := by
  intro h
  have hplace : Unknown createMonitor (.rmV (.pair (.int 1) (.int 1)) (.int 1) .nil) := nofun
  cases (h createMonitor ⟨[], [], rfl⟩ _ hplace).1

end Semestr4.PollutionMissing
