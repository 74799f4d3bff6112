import Mathlib.Algebra.BigOperators.Group.Finset.Basic
import Mathlib.Data.List.Nodup
import Semestr4.PollutionInvariant

/-!
# The mean of a day

`getDailyMean` collects the measurements of all stations in one list. In a
monitor built by successful calls every measurement stands there once for each
station that holds it, so the mean is one over the set of what is stored.
-/

set_option autoImplicit false

namespace Semestr4.PollutionMean
open Semestr4.ErlangTerm Semestr4.PollutionMonitor Semestr4.PollutionInvariant
open Semestr4.ScheduledRun Semestr4.UniqueKeys

def Stored (m : Stations) (name : Term) (x : Measurement) : Prop :=
  ∃ station, m.lookup name = some station ∧ x ∈ station.measurements

def OfDay (day type : Term) (x : Measurement) : Prop :=
  x.type.Same type ∧ onDay day x.time = true

instance (day type : Term) (x : Measurement) : Decidable (OfDay day type x) :=
  inferInstanceAs (Decidable (_ ∧ _))

def stored (m : Stations) : List (Term × Measurement) :=
  m.entries.flatMap fun e => e.2.measurements.map fun x => (e.1, x)

def matching (m : Stations) (day type : Term) : Finset (Term × Measurement) :=
  ((stored m).filter fun p => OfDay day type p.2).toFinset

theorem onDay_iff {day time : Term} : onDay day time = true ↔ ∃ rest, time = .pair day rest := by
  constructor
  · intro h
    unfold onDay at h
    split at h
    · rename_i t rest
      exact ⟨rest, by rw [of_decide_eq_true h]; rfl⟩
    · cases h
  · rintro ⟨rest, rfl⟩
    exact decide_eq_true rfl

theorem mem_stored {m : Stations} {name : Term} {x : Measurement} :
    (name, x) ∈ stored m ↔ Stored m name x := by
  simp only [stored, List.mem_flatMap, List.mem_map, Prod.mk.injEq]
  constructor
  · rintro ⟨e, he, y, hy, rfl, rfl⟩
    exact ⟨e.2, mem_entries.mp he, hy⟩
  · rintro ⟨station, hstation, hx⟩
    exact ⟨⟨name, station⟩, mem_entries.mpr hstation, x, hx, rfl, rfl⟩

theorem mem_matching {m : Stations} {day type name : Term} {x : Measurement} :
    (name, x) ∈ matching m day type ↔ Stored m name x ∧ OfDay day type x := by
  simp only [matching, List.mem_toFinset, List.mem_filter, mem_stored, decide_eq_true_eq]

theorem Distinct.nodup {measurements : List Measurement} (h : Distinct measurements) :
    measurements.Nodup := by
  refine h.imp ?_
  rintro x y hat rfl
  exact hat ⟨Term.Same.refl _, Term.Same.refl _⟩

theorem stored_nodup {m : Stations} (hm : Wellformed m) : (stored m).Nodup := by
  rw [stored, List.nodup_flatMap]
  constructor
  · intro e he
    have hnodup := Distinct.nodup (hm.measurements e.1 e.2 (mem_entries.mp he))
    exact hnodup.map fun x y hxy => (Prod.mk.inj hxy).2
  · refine (List.nodupKeys_iff_pairwise.mp m.nodupKeys).imp ?_
    intro a b hne p ha hb
    obtain ⟨x, -, rfl⟩ := List.mem_map.mp ha
    obtain ⟨y, -, hy⟩ := List.mem_map.mp hb
    exact hne (Prod.mk.inj hy).1.symm

theorem mean_eq (measurements : List Measurement) :
    mean exact measurements =
      some ((measurements.map Measurement.value).sum/measurements.length) := by
  have hsum : measurements.foldrM (fun m acc => exact.add m.value acc) 0 =
      some (measurements.map Measurement.value).sum := by
    induction measurements with
    | nil => rfl
    | cons m rest ih =>
      rw [List.foldrM_cons, ih]
      rfl
  rw [mean, hsum]
  rfl

theorem dailyList (m : Stations) (day type : Term) :
    ((m.entries.flatMap fun e => e.2.measurements).filter fun x =>
      x.type.Same type ∧ onDay day x.time) =
    ((stored m).filter fun p => OfDay day type p.2).map Prod.snd := by
  have hall : (m.entries.flatMap fun e => e.2.measurements) = (stored m).map Prod.snd := by
    simp only [stored, List.map_flatMap, List.map_map, Function.comp_def, List.map_id']
  rw [hall, List.filter_map]
  rfl

theorem getDailyMean_matching {m : Stations} (hm : Wellformed m) (day type : Term) :
    getDailyMean exact day type (.map m) = .ok (if matching m day type = ∅ then .int 0
      else .float ((∑ p ∈ matching m day type, p.2.value)/(matching m day type).card)) := by
  have hnodup : ((stored m).filter fun p => OfDay day type p.2).Nodup := (stored_nodup hm).filter _
  simp only [getDailyMean, mapsToList, bind, Except.bind, dailyList, matching,
    List.sum_toFinset _ hnodup, List.toFinset_card_of_nodup hnodup, List.toFinset_eq_empty_iff]
  cases (stored m).filter fun p => OfDay day type p.2 with
  | nil => rfl
  | cons p rest =>
    have hmean : mean exact ((p::rest).map Prod.snd) =
        some (((p::rest).map fun p => p.2.value).sum/(p::rest).length) := by
      rw [mean_eq, List.map_map, List.length_map]
      rfl
    rw [if_neg (List.cons_ne_nil p rest)]
    exact congrArg toTerm hmean

/-- The mean of a day is that of the set of the stored measurements, and so the
same in every monitor with this set. -/
theorem dailyMean_of_set (m : Stations) (h : Reachable step createMonitor m) (day type : Term) :
    (∀ name x, (name, x) ∈ matching m day type ↔
      Stored m name x ∧ x.type.Same type ∧ ∃ rest, x.time = .pair day rest) ∧
    getDailyMean exact day type (.map m) = .ok (if matching m day type = ∅ then .int 0
      else .float ((∑ p ∈ matching m day type, p.2.value)/(matching m day type).card)) ∧
    ∀ n, Reachable step createMonitor n → (∀ name x, Stored n name x ↔ Stored m name x) →
      getDailyMean exact day type (.map n) = getDailyMean exact day type (.map m) := by
  refine ⟨?_, getDailyMean_matching (reachable_wellformed h) day type, ?_⟩
  · intro name x
    rw [mem_matching, OfDay, onDay_iff]
  · intro n hn hsame
    have hset : matching n day type = matching m day type := by
      ext ⟨name, x⟩
      rw [mem_matching, mem_matching, hsame]
    rw [getDailyMean_matching (reachable_wellformed hn), hset,
      getDailyMean_matching (reachable_wellformed h)]

def threeValues : List Move :=
  [.call (.addStation (.atom "a") (.pair (.int 1) (.int 1))),
    .call (.addStation (.atom "b") (.pair (.int 2) (.int 2))),
    .call (.addValue (.atom "a") (.pair (.int 7) (.int 1)) (.atom "pm10") (.float 50)),
    .call (.addValue (.atom "b") (.pair (.int 7) (.int 1)) (.atom "pm10") (.float 10)),
    .call (.addValue (.atom "b") (.pair (.int 8) (.int 1)) (.atom "pm10") (.float 90))]

theorem dailyMean_of_set_small : ∃ m, Reachable step createMonitor m ∧
    getDailyMean exact (.int 7) (.atom "pm10") (.map m) = .ok (.float 30) ∧
    (matching m (.int 7) (.atom "pm10")).card = 2 := by
  have hr : run step threeValues createMonitor = some (_, _) := rfl
  have h := (dailyMean_of_set _ ⟨_, _, hr⟩ (.int 7) (.atom "pm10")).2.1
  refine ⟨_, ⟨_, _, hr⟩, h.trans ?_, ?_⟩
  · decide +kernel
  · decide +kernel

end Semestr4.PollutionMean
