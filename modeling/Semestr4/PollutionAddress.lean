import Mathlib.Data.Set.Finite.Basic
import Semestr4.PollutionOutcome
import Semestr4.PollutionRefinement

/-!
# Two addresses of one station

Each call that concerns a station takes its name or its location. The two
clauses of such a call are compared, on the station they both address. A pair in
the place of a name is taken for a location, the empty list is what the calls
take for a missing station, and the mean has no clause for names.
-/

set_option autoImplicit false

namespace Semestr4.PollutionAddress
open Semestr4.ErlangTerm Semestr4.PollutionMonitor Semestr4.PollutionInvariant
open Semestr4.PollutionOutcome Semestr4.PollutionRefinement Semestr4.ScheduledRun
open Semestr4.UniqueKeys

def SameMonitor : Except Raised Monitor → Except Raised Monitor → Prop
  | .ok (.map m), .ok (.map n) => m.entries.Perm n.entries
  | r, r' => r = r'

structure Agree (floats : Arithmetic) (m : Stations) (name place : Term) : Prop where
  addValue : ∀ time type val, SameMonitor (addValue name time type val (.map m))
    (addValue place time type val (.map m))
  removeValue : ∀ time type, SameMonitor (removeValue name time type (.map m))
    (removeValue place time type (.map m))
  getOneValue : ∀ time type,
    getOneValue name time type (.map m) = getOneValue place time type (.map m)
  getStationMean : ∀ type,
    getStationMean floats name type (.map m) = getStationMean floats place type (.map m)

theorem SameMonitor.refl (r : Except Raised Monitor) : SameMonitor r r := by
  cases r with
  | error r => rfl
  | ok monitor => cases monitor with
    | map m => exact List.Perm.refl _
    | text s => rfl

theorem SameMonitor.lookup {m n : Stations} (h : SameMonitor (.ok (.map m)) (.ok (.map n)))
    (key : Term) : m.lookup key = n.lookup key :=
  AList.perm_lookup h

theorem Agree.refl (floats : Arithmetic) (m : Stations) (place : Term) :
    Agree floats m place place :=
  ⟨fun _ _ _ => SameMonitor.refl _, fun _ _ => SameMonitor.refl _, fun _ _ => rfl, fun _ => rfl⟩

theorem exists_fresh (measurements : List Measurement) :
    ∃ time : Term, ∀ x ∈ measurements, ¬ x.time.Same time := by
  have hinj : Function.Injective Term.int := fun a b h => by injection h
  obtain ⟨-, ⟨z, rfl⟩, hz⟩ := (Set.infinite_range_of_injective hinj).exists_notMem_finset
    (measurements.map fun x => x.time.norm).toFinset
  refine ⟨.int z, fun x hx hsame => hz ?_⟩
  rw [List.mem_toFinset, List.mem_map]
  exact ⟨x, hx, hsame⟩

theorem find_pair {place : Term} {m : Stations} {key : Term} {found : Station}
    (hpair : place.isPair = true) (h : find place m = .ok (some (key, found))) :
    found.location = place := by
  rw [find, if_pos hpair] at h
  split at h
  · split at h
    · cases h
    · cases h
      rfl
  · cases h

section
variable {m : Stations} (hm : Wellformed m) {name x y : Term} {station : Station}
variable (hkey : m.lookup name = some station) (hlocation : station.location = .pair x y)
include hm hkey hlocation

theorem stationsAt_location : stationsAt (.pair x y) m = [⟨name, station⟩] :=
  stationsAt_eq hm hkey (hlocation ▸ Term.Same.refl _)

theorem find_location :
    find (.pair x y) m = .ok (if name = .nil then none else some (name, station)) := by
  have hp : (Term.pair x y).isPair = true := rfl
  rw [find, if_pos hp, stationsAt_location hm hkey hlocation, ← hlocation]
  by_cases hn : name = .nil
  · simp only [if_pos hn]
  · simp only [if_neg hn]

theorem getName_location : getName (.pair x y) (.map m) = .ok name := by
  rw [getName_map, stationsAt_location hm hkey hlocation]

theorem getOneValue_location (hname : name.isPair = false) (time type : Term) :
    getOneValue name time type (.map m) = getOneValue (.pair x y) time type (.map m) := by
  have hk : keyOf (.pair x y) (.map m) = keyOf name (.map m) := by
    have hp : (Term.pair x y).isPair = true := rfl
    rw [keyOf, keyOf, if_pos hp, getName_location hm hkey hlocation, hname]
    rfl
  rw [getOneValue, getOneValue, hk]

theorem getStationMean_location (floats : Arithmetic) (hname : name.isPair = false)
    (type : Term) :
    getStationMean floats name type (.map m) ≠ getStationMean floats (.pair x y) type (.map m) := by
  have hv : ¬ Vacant m (.pair x y) := fun hv =>
    hv.2 name station hkey (hlocation ▸ Term.Same.refl _)
  rw [getStationMean_name floats hname]
  rcases getStationMean_answers floats hm rfl hv type with ⟨answer, hanswer⟩ | hraised
  · rw [hanswer]
    exact fun h => by cases h
  · rw [hraised]
    exact fun h => by cases h

theorem addValue_location (hname : name.isPair = false) :
    (∀ time type val, SameMonitor (addValue name time type val (.map m))
      (addValue (.pair x y) time type val (.map m))) ↔ name ≠ .nil := by
  constructor
  · rintro h rfl
    have hs := h .nil .nil (.float 0)
    rw [addValue_map, addValue_map, find_location hm hkey hlocation, find_name hname, hkey] at hs
    change SameMonitor (if _ then .ok (.text measurementExists) else .ok (.map _))
      (.ok (.text noSuchStation)) at hs
    split at hs
    · injection hs with hs
      injection hs with hs
      exact absurd hs (by decide)
    · cases hs
  · intro hn time type val
    rw [addValue_map, addValue_map, find_location hm hkey hlocation, find_name hname, hkey,
      if_neg hn]
    exact SameMonitor.refl _

theorem removeValue_location (hname : name.isPair = false) :
    (∀ time type, SameMonitor (removeValue name time type (.map m))
      (removeValue (.pair x y) time type (.map m))) ↔ name ≠ .nil := by
  constructor
  · rintro h rfl
    have hs := h .nil .nil
    rw [removeValue_map, removeValue_map, find_location hm hkey hlocation, find_name hname,
      hkey] at hs
    cases hs
  · intro hn time type
    rw [removeValue_map, removeValue_map, find_location hm hkey hlocation, find_name hname, hkey,
      if_neg hn]
    exact SameMonitor.refl _

theorem pair_location (hname : name.isPair = true)
    (h : ∀ time type val, SameMonitor (addValue name time type val (.map m))
      (addValue (.pair x y) time type val (.map m))) : name = .pair x y := by
  have hn : name ≠ .nil := by
    rintro rfl
    cases hname
  obtain ⟨time, hfresh⟩ := exists_fresh station.measurements
  have hnew : (station.measurements.any fun z => z.At time .nil) = false := by
    rw [List.any_eq_false]
    exact fun z hz hat => hfresh z hz (of_decide_eq_true hat).1
  have hval : toFloat (.float 0) = .ok 0 := rfl
  have hs := h time .nil (.float 0)
  rw [addValue_map, addValue_map, find_location hm hkey hlocation, if_neg hn, hval] at hs
  simp only [Except.bind, hnew, Bool.false_eq_true, if_false] at hs
  cases hfind : find name m with
  | error r =>
    rw [hfind] at hs
    cases hs
  | ok found =>
    rw [hfind] at hs
    cases found with
    | none => cases hs
    | some found =>
      obtain ⟨key, found⟩ := found
      simp only at hs
      split at hs
      · cases hs
      · have hat := SameMonitor.lookup hs name
        rw [AList.lookup_insert] at hat
        by_cases hk : name = key
        · rw [← hk, AList.lookup_insert, find_pair hname hfind, hlocation] at hat
          injection hat with hat
          injection hat
        · -- the measurement went to another station
          rw [AList.lookup_insert_ne hk, hkey] at hat
          injection hat with hat
          have hlen := congrArg (fun s => s.measurements.length) hat
          simp at hlen

end

/-- The two addresses of a station only agree on all calls where they are the
same term. With a name that is no pair, changes agree unless the name is the
empty list, single values agree, and means never do. -/
theorem addresses_agree_iff (floats : Arithmetic) (m : Stations)
    (h : Reachable step createMonitor m)
    (name x y : Term) (station : Station) (hkey : m.lookup name = some station)
    (hlocation : station.location = .pair x y) :
    (Agree floats m name (.pair x y) ↔ name = .pair x y) ∧
    (name.isPair = false →
      ((∀ time type val, SameMonitor (addValue name time type val (.map m))
        (addValue (.pair x y) time type val (.map m))) ↔ name ≠ .nil) ∧
      ((∀ time type, SameMonitor (removeValue name time type (.map m))
        (removeValue (.pair x y) time type (.map m))) ↔ name ≠ .nil) ∧
      (∀ time type,
        getOneValue name time type (.map m) = getOneValue (.pair x y) time type (.map m)) ∧
      ∀ type,
        getStationMean floats name type (.map m) ≠
          getStationMean floats (.pair x y) type (.map m)) := by
  have hm := reachable_wellformed h
  constructor
  · constructor
    · intro ha
      cases hname : name.isPair with
      | true => exact pair_location hm hkey hlocation hname ha.addValue
      | false =>
        exact absurd (ha.getStationMean .nil)
          (getStationMean_location hm hkey hlocation floats hname .nil)
    · rintro rfl
      exact Agree.refl floats m _
  · intro hname
    exact ⟨addValue_location hm hkey hlocation hname, removeValue_location hm hkey hlocation hname,
      getOneValue_location hm hkey hlocation hname,
      getStationMean_location hm hkey hlocation floats hname⟩

def measuredCalls : List Move :=
  [.call (.addStation (.atom "a") (.pair (.int 1) (.int 2))),
    .call (.addValue (.atom "a") (.int 7) (.atom "pm10") (.float 50))]

theorem addresses_agree_iff_small : ∃ m, Reachable step createMonitor m ∧
    ¬ Agree doubles m (.atom "a") (.pair (.int 1) (.int 2)) := by
  have hr : run step measuredCalls createMonitor = some (_, _) := rfl
  have h := addresses_agree_iff doubles _ ⟨_, _, hr⟩ (.atom "a") (.int 1) (.int 2) _ rfl rfl
  exact ⟨_, ⟨_, _, hr⟩, fun ha => absurd (h.1.mp ha) (by decide)⟩

/-- The mean is told to the location and raises for the name. -/
theorem mean_by_name_raises : ¬ ∀ m, Reachable step createMonitor m →
    ∀ name x y station, m.lookup name = some station → station.location = .pair x y →
      Agree doubles m name (.pair x y) := by
  intro h
  have hr : run step measuredCalls createMonitor = some (_, _) := rfl
  have ha := h _ ⟨_, _, hr⟩ (.atom "a") (.int 1) (.int 2) _ rfl rfl
  exact absurd (ha.getStationMean (.atom "pm10")) (by decide +kernel)

end Semestr4.PollutionAddress
