import Semestr4.ErlangOrder
import Semestr4.FoldLeast
import Semestr4.PollutionInvariant

/-!
# The station of the least value

`getMinimumPollutionStation` takes the newest measurement of the type of each
station and compares whole records, in which the time stands before the value.
What it returns is the station whose record comes first. Whether its value is the
least of all is a matter of the times.
-/

set_option autoImplicit false

namespace Semestr4.PollutionMinimum
open Semestr4.ErlangTerm Semestr4.ErlangOrder Semestr4.PollutionMonitor Semestr4.FoldLeast
open Semestr4.PollutionInvariant Semestr4.ScheduledRun

def Measured (m : Stations) (type name : Term) (x : Measurement) : Prop :=
  ∃ station, m.lookup name = some station ∧ x ∈ station.measurements ∧ x.type.Same type

def HoldsMinimum (m : Stations) (type name : Term) : Prop :=
  ∃ x, Measured m type name x ∧ ∀ other y, Measured m type other y → x.value ≤ y.value

def ReturnsMinimum (m : Stations) (type : Term) : Prop :=
  ∃ name, getMinimumPollutionStation type (.map m) = .ok name ∧ HoldsMinimum m type name

/-- The comparison `V<V1` of two measurements, each with the name of its station. -/
def Before (e f : Term × Measurement) : Prop := e.2.record.Less f.2.record

instance (e f : Term × Measurement) : Decidable (Before e f) :=
  inferInstanceAs (Decidable (e.2.record.Less f.2.record))

/-- The newest measurement of this station comes before those of all others. Of
equal ones the first of the list does, or else the last. -/
def Leads (newest : List (Term × Measurement)) (e : Term × Measurement) : Prop :=
  ∃ first rest, newest = first::rest ∧ Foremost Before first newest e

theorem getMinimumPollutionStation_map (type : Term) (m : Stations) :
    getMinimumPollutionStation type (.map m) = .ok (match firstMeasurements type m.entries with
      | [] => .text noEnoughData
      | first::rest => (least Before first (first::rest)).1) := by
  simp only [getMinimumPollutionStation, mapsToList, bind, Except.bind]
  cases firstMeasurements type m.entries <;> rfl

theorem least_leads {newest : List (Term × Measurement)} {e : Term × Measurement} :
    Leads newest e ↔ ∃ first rest, newest = first::rest ∧ least Before first newest = e := by
  have hiff : ∀ first, least Before first newest = e ↔ Foremost Before first newest e := by
    intro first
    exact least_eq_iff (fun a b => less_asymm a.2.record b.2.record)
      (fun a b c => less_split a.2.record b.2.record c.2.record)
  simp only [Leads, hiff]

theorem firstMeasurements_ne_nil {m : Stations} {type name : Term} {x : Measurement}
    (h : Measured m type name x) : firstMeasurements type m.entries ≠ [] := by
  obtain ⟨station, hstation, hx, htype⟩ := h
  intro hnil
  have hnone := List.filterMap_eq_nil_iff.mp hnil ⟨name, station⟩
    (UniqueKeys.mem_entries.mpr hstation)
  rw [Option.map_eq_none_iff, List.head?_eq_none_iff] at hnone
  have hmem : x ∈ station.measurements.filter fun y => y.type.Same type :=
    List.mem_filter.mpr ⟨hx, decide_eq_true htype⟩
  rw [hnone] at hmem
  exact List.not_mem_nil hmem

/-- The station returned holds a minimal value of the type if and only if the one
whose newest measurement comes first does. -/
theorem returnsMinimum_iff (m : Stations) (type : Term) :
    ReturnsMinimum m type ↔
      ∃ e, Leads (firstMeasurements type m.entries) e ∧ HoldsMinimum m type e.1 := by
  simp only [ReturnsMinimum, getMinimumPollutionStation_map, Except.ok.injEq, least_leads]
  cases h : firstMeasurements type m.entries with
  | nil =>
    constructor
    · rintro ⟨name, -, x, hx, -⟩
      exact absurd h (firstMeasurements_ne_nil hx)
    · rintro ⟨e, ⟨first, rest, hlist, -⟩, -⟩
      cases hlist
  | cons first rest =>
    constructor
    · rintro ⟨name, rfl, hmin⟩
      exact ⟨_, ⟨first, rest, rfl, rfl⟩, hmin⟩
    · rintro ⟨e, ⟨first', rest', hlist, rfl⟩, hmin⟩
      cases hlist
      exact ⟨_, rfl, hmin⟩

def twoValues : List Move :=
  [.call (.addStation (.atom "a") (.pair (.int 1) (.int 1))),
    .call (.addStation (.atom "b") (.pair (.int 2) (.int 2))),
    .call (.addValue (.atom "a") (.int 1) (.atom "pm10") (.float 50)),
    .call (.addValue (.atom "b") (.int 2) (.atom "pm10") (.float 10))]

/-- The station of the earlier measurement is returned. -/
theorem earlier_returned : ¬ ∀ m, Reachable step createMonitor m → ∀ type,
    (∃ name x, Measured m type name x) → ReturnsMinimum m type := by
  intro h
  have hr : run step twoValues createMonitor = some (_, _) := rfl
  obtain ⟨name, hname, x, ⟨s, hs, hx, -⟩, hmin⟩ := h _ ⟨_, _, hr⟩ (.atom "pm10")
    ⟨.atom "b", ⟨.int 2, .atom "pm10", 10⟩, _, rfl, List.mem_singleton_self _, rfl⟩
  obtain rfl : Term.atom "a" = name := Except.ok.inj hname
  cases hs
  obtain rfl := List.mem_singleton.mp hx
  exact absurd (hmin (.atom "b") _ ⟨_, rfl, List.mem_singleton_self _, rfl⟩) (by decide)

end Semestr4.PollutionMinimum
