import Semestr4.PollutionInvariant

/-!
# Which calls a monitor accepts, refuses or fails on

The three kinds of outcome, each as a condition on the monitor before the call.
On a wellformed monitor they exclude each other and leave no other case. A call
addressed by a location is refused only where the station there is named by the
empty string, because a location without a station raises.
-/

set_option autoImplicit false

namespace Semestr4.PollutionOutcome
open Semestr4.ErlangTerm Semestr4.PollutionMonitor Semestr4.PollutionInvariant
open Semestr4.UniqueKeys

def Addresses (m : Stations) (place key : Term) (station : Station) : Prop :=
  m.lookup key = some station ∧
    if place.isPair then station.location.Same place ∧ key ≠ .nil else key = place

/-- The code takes `place` for that of no station. -/
def Missing (m : Stations) (place : Term) : Prop :=
  if place.isPair then ∃ station, m.lookup .nil = some station ∧ station.location.Same place
  else m.lookup place = none

def Vacant (m : Stations) (place : Term) : Prop :=
  place.isPair = true ∧ ∀ key station, m.lookup key = some station → ¬ station.location.Same place

def Accepts (m : Stations) : Call → Prop
  | .addStation name location => ∀ key station, m.lookup key = some station →
    ¬ key.Same name ∧ ¬ station.location.Same location
  | .addValue place time type val => (float val).isSome ∧
    ∃ key station, Addresses m place key station ∧ ∀ x ∈ station.measurements, ¬ x.At time type
  | .removeValue place _ _ => ∃ key station, Addresses m place key station

def Refuses (m : Stations) : Call → Prop
  | .addStation name location => ∃ key station, m.lookup key = some station ∧
    (key.Same name ∨ station.location.Same location)
  | .addValue place time type val => (float val).isSome ∧
    (Missing m place ∨
      ∃ key station, Addresses m place key station ∧ ∃ x ∈ station.measurements, x.At time type)
  | .removeValue place _ _ => Missing m place

def FailsOn (m : Stations) : Call → Prop
  | .addStation _ _ => False
  | .addValue place _ _ val => float val = none ∨ Vacant m place
  | .removeValue place _ _ => Vacant m place

theorem stationsAt_eq {m : Stations} (hm : Wellformed m) {key location : Term} {station : Station}
    (hkey : m.lookup key = some station) (hlocation : station.location.Same location) :
    stationsAt location m = [⟨key, station⟩] :=
  filter_eq_singleton (hm.stationsAt_le location) (mem_entries.mpr hkey)
    (decide_eq_true hlocation)

theorem stationsAt_vacant {m : Stations} {location : Term}
    (h : ∀ key station, m.lookup key = some station → ¬ station.location.Same location) :
    stationsAt location m = [] := by
  rw [List.eq_nil_iff_forall_not_mem]
  intro e he
  obtain ⟨hkey, hlocation⟩ := mem_stationsAt.mp he
  exact h e.1 e.2 hkey hlocation

theorem find_addresses {m : Stations} (hm : Wellformed m) {place key : Term} {station : Station}
    (h : Addresses m place key station) :
    ∃ location, find place m = .ok (some (key, { station with location := location })) := by
  obtain ⟨hkey, haddress⟩ := h
  unfold find
  by_cases hpair : place.isPair = true
  · rw [if_pos hpair] at haddress
    rw [if_pos hpair, stationsAt_eq hm hkey haddress.1]
    exact ⟨place, if_neg haddress.2⟩
  · rw [if_neg hpair] at haddress
    subst haddress
    rw [if_neg hpair, hkey]
    exact ⟨station.location, rfl⟩

theorem find_missing {m : Stations} (hm : Wellformed m) {place : Term} (h : Missing m place) :
    find place m = .ok none := by
  unfold Missing at h
  unfold find
  by_cases hpair : place.isPair = true
  · rw [if_pos hpair] at h
    obtain ⟨station, hkey, hlocation⟩ := h
    rw [if_pos hpair, stationsAt_eq hm hkey hlocation]
    rfl
  · rw [if_neg hpair] at h
    rw [if_neg hpair, h]
    rfl

theorem find_vacant {m : Stations} {place : Term} (h : Vacant m place) :
    find place m = .error .caseClause := by
  unfold find
  rw [if_pos h.1, stationsAt_vacant h.2]

theorem place_cases (m : Stations) (place : Term) :
    (∃ key station, Addresses m place key station) ∨ Missing m place ∨ Vacant m place := by
  by_cases hpair : place.isPair = true
  · by_cases hvacant : ∀ key station, m.lookup key = some station → ¬ station.location.Same place
    · exact Or.inr (Or.inr ⟨hpair, hvacant⟩)
    · push Not at hvacant
      obtain ⟨key, station, hkey, hlocation⟩ := hvacant
      by_cases hnil : key = .nil
      · right
        left
        unfold Missing
        rw [if_pos hpair]
        exact ⟨station, hnil ▸ hkey, hlocation⟩
      · left
        refine ⟨key, station, hkey, ?_⟩
        rw [if_pos hpair]
        exact ⟨hlocation, hnil⟩
  · cases hkey : m.lookup place with
    | none =>
      right
      left
      unfold Missing
      rw [if_neg hpair]
      exact hkey
    | some station =>
      left
      refine ⟨place, station, hkey, ?_⟩
      rw [if_neg hpair]

theorem toFloat_some {val : Term} (h : (float val).isSome) : ∃ value, toFloat val = .ok value := by
  obtain ⟨value, hvalue⟩ := Option.isSome_iff_exists.mp h
  exact ⟨value, by simp only [toFloat, hvalue]⟩

theorem toFloat_none {val : Term} (h : float val = none) : toFloat val = .error .badarg := by
  simp only [toFloat, h]

theorem any_taken {m : Stations} {name location : Term} :
    (m.entries.any fun e => e.1.Same name ∨ e.2.location.Same location) = true ↔
      Refuses m (.addStation name location) := by
  rw [List.any_eq_true]
  constructor
  · rintro ⟨e, he, hsame⟩
    exact ⟨e.1, e.2, mem_entries.mp he, of_decide_eq_true hsame⟩
  · rintro ⟨key, station, hkey, hsame⟩
    exact ⟨⟨key, station⟩, mem_entries.mpr hkey, decide_eq_true hsame⟩

theorem any_at {measurements : List Measurement} {time type : Term} :
    (measurements.any fun x => x.At time type) = true ↔ ∃ x ∈ measurements, x.At time type := by
  simp [List.any_eq_true]

theorem apply_accepts {m : Stations} (hm : Wellformed m) {call : Call} (h : Accepts m call) :
    ∃ n, call.apply (.map m) = .ok (.map n) := by
  cases call with
  | addStation name location =>
    have hfree : ¬ Refuses m (.addStation name location) := by
      rintro ⟨key, station, hkey, hsame | hsame⟩
      · exact (h key station hkey).1 hsame
      · exact (h key station hkey).2 hsame
    exact ⟨_, (addStation_map name location m).trans (if_neg (mt any_taken.mp hfree))⟩
  | addValue place time type val =>
    obtain ⟨hval, key, station, haddress, hnew⟩ := h
    obtain ⟨value, hvalue⟩ := toFloat_some hval
    obtain ⟨location, hfind⟩ := find_addresses hm haddress
    have hnone : ¬ ∃ x ∈ station.measurements, x.At time type :=
      fun ⟨x, hx, hat⟩ => hnew x hx hat
    have hmap := addValue_map place time type val m
    rw [hvalue, hfind] at hmap
    exact ⟨_, hmap.trans (if_neg (mt any_at.mp hnone))⟩
  | removeValue place time type =>
    obtain ⟨key, station, haddress⟩ := h
    obtain ⟨location, hfind⟩ := find_addresses hm haddress
    have hmap := removeValue_map place time type m
    rw [hfind] at hmap
    exact ⟨_, hmap⟩

theorem apply_refuses {m : Stations} (hm : Wellformed m) {call : Call} (h : Refuses m call) :
    ∃ s, call.apply (.map m) = .ok (.text s) := by
  cases call with
  | addStation name location =>
    exact ⟨_, (addStation_map name location m).trans (if_pos (any_taken.mpr h))⟩
  | addValue place time type val =>
    obtain ⟨hval, hcase⟩ := h
    obtain ⟨value, hvalue⟩ := toFloat_some hval
    rcases hcase with hmissing | ⟨key, station, haddress, hexists⟩
    · refine ⟨noSuchStation, (addValue_map place time type val m).trans ?_⟩
      rw [hvalue, find_missing hm hmissing]
      rfl
    · obtain ⟨location, hfind⟩ := find_addresses hm haddress
      refine ⟨measurementExists, (addValue_map place time type val m).trans ?_⟩
      rw [hvalue, hfind]
      exact if_pos (any_at.mpr hexists)
  | removeValue place time type =>
    refine ⟨noSuchStation, (removeValue_map place time type m).trans ?_⟩
    rw [find_missing hm h]
    rfl

theorem apply_fails {m : Stations} {call : Call} (h : FailsOn m call) :
    ∃ r, call.apply (.map m) = .error r := by
  cases call with
  | addStation name location => exact absurd h id
  | addValue place time type val =>
    cases hval : float val with
    | none =>
      refine ⟨.badarg, (addValue_map place time type val m).trans ?_⟩
      rw [toFloat_none hval]
      rfl
    | some value =>
      have hsome : (float val).isSome := by
        rw [hval]
        rfl
      obtain ⟨value, hvalue⟩ := toFloat_some hsome
      have hvacant : Vacant m place := h.resolve_left (by rw [hval]; simp)
      refine ⟨.caseClause, (addValue_map place time type val m).trans ?_⟩
      rw [hvalue, find_vacant hvacant]
      rfl
  | removeValue place time type =>
    refine ⟨.caseClause, (removeValue_map place time type m).trans ?_⟩
    rw [find_vacant h]
    rfl

theorem call_cases (m : Stations) (call : Call) :
    Accepts m call ∨ Refuses m call ∨ FailsOn m call := by
  cases call with
  | addStation name location =>
    by_cases h : Refuses m (.addStation name location)
    · exact Or.inr (Or.inl h)
    · left
      intro key station hkey
      exact ⟨fun hsame => h ⟨key, station, hkey, Or.inl hsame⟩,
        fun hsame => h ⟨key, station, hkey, Or.inr hsame⟩⟩
  | addValue place time type val =>
    cases hval : float val with
    | none => exact Or.inr (Or.inr (Or.inl hval))
    | some value =>
      have hsome : (float val).isSome := by
        rw [hval]
        rfl
      rcases place_cases m place with ⟨key, station, haddress⟩ | hmissing | hvacant
      · by_cases hexists : ∃ x ∈ station.measurements, x.At time type
        · exact Or.inr (Or.inl ⟨hsome, Or.inr ⟨key, station, haddress, hexists⟩⟩)
        · exact Or.inl ⟨hsome, key, station, haddress, fun x hx hat => hexists ⟨x, hx, hat⟩⟩
      · exact Or.inr (Or.inl ⟨hsome, Or.inl hmissing⟩)
      · exact Or.inr (Or.inr (Or.inr hvacant))
  | removeValue place time type => exact place_cases m place

theorem call_outcome {m : Stations} (hm : Wellformed m) (call : Call) :
    (Accepts m call ∧ ∃ n, call.apply (.map m) = .ok (.map n)) ∨
    (Refuses m call ∧ ∃ s, call.apply (.map m) = .ok (.text s)) ∨
    (FailsOn m call ∧ ∃ r, call.apply (.map m) = .error r) := by
  rcases call_cases m call with h | h | h
  · exact Or.inl ⟨h, apply_accepts hm h⟩
  · exact Or.inr (Or.inl ⟨h, apply_refuses hm h⟩)
  · exact Or.inr (Or.inr ⟨h, apply_fails h⟩)

theorem accepts_iff {m : Stations} (hm : Wellformed m) (call : Call) :
    (∃ n, call.apply (.map m) = .ok (.map n)) ↔ Accepts m call := by
  refine ⟨?_, apply_accepts hm⟩
  rintro ⟨n, hn⟩
  rcases call_outcome hm call with ⟨h, -⟩ | ⟨-, s, hs⟩ | ⟨-, r, hr⟩
  · exact h
  · simp [hs] at hn
  · simp [hr] at hn

theorem refuses_iff {m : Stations} (hm : Wellformed m) (call : Call) :
    (∃ s, call.apply (.map m) = .ok (.text s)) ↔ Refuses m call := by
  refine ⟨?_, apply_refuses hm⟩
  rintro ⟨s, hs⟩
  rcases call_outcome hm call with ⟨-, n, hn⟩ | ⟨h, -⟩ | ⟨-, r, hr⟩
  · simp [hn] at hs
  · exact h
  · simp [hr] at hs

theorem fails_iff {m : Stations} (hm : Wellformed m) (call : Call) :
    (∃ r, call.apply (.map m) = .error r) ↔ FailsOn m call := by
  refine ⟨?_, apply_fails⟩
  rintro ⟨r, hr⟩
  rcases call_outcome hm call with ⟨-, n, hn⟩ | ⟨-, s, hs⟩ | ⟨h, -⟩
  · simp [hn] at hr
  · simp [hs] at hr
  · exact h

theorem apply_text (call : Call) (s : String) : ∃ r, call.apply (.text s) = .error r := by
  cases call with
  | addStation name location => exact ⟨.badmap, rfl⟩
  | addValue place time type val =>
    simp only [Call.apply, addValue]
    cases toFloat val with
    | error r => exact ⟨r, by split <;> rfl⟩
    | ok value => exact ⟨.badmap, by split <;> rfl⟩
  | removeValue place time type =>
    simp only [Call.apply, removeValue]
    exact ⟨.badmap, by split <;> rfl⟩

theorem getName_vacant {m : Stations} {place : Term} (h : Vacant m place) :
    getName place (.map m) = .error .caseClause := by
  rw [getName_map, stationsAt_vacant h.2]

theorem getName_occupied {m : Stations} (hm : Wellformed m) {place : Term}
    (hpair : place.isPair = true) (h : ¬ Vacant m place) :
    ∃ key, getName place (.map m) = .ok key := by
  have hsome : ∃ key station, m.lookup key = some station ∧ station.location.Same place := by
    by_contra hnone
    exact h ⟨hpair, fun key station hkey hlocation => hnone ⟨key, station, hkey, hlocation⟩⟩
  obtain ⟨key, station, hkey, hlocation⟩ := hsome
  refine ⟨key, ?_⟩
  rw [getName_map, stationsAt_eq hm hkey hlocation]

theorem getOneValue_vacant {m : Stations} {place : Term} (h : Vacant m place) (time type : Term) :
    getOneValue place time type (.map m) = .error .caseClause := by
  simp only [getOneValue, keyOf, if_pos h.1, getName_vacant h, bind, Except.bind]

variable (floats : Arithmetic)

theorem toTerm_answers (value : Option ℚ) :
    (∃ answer, toTerm value = .ok answer) ∨ toTerm value = .error .badarith := by
  cases value with
  | none => exact Or.inr rfl
  | some q => exact Or.inl ⟨_, rfl⟩

theorem getStationMean_answers {m : Stations} (hm : Wellformed m) {place : Term}
    (hpair : place.isPair = true) (h : ¬ Vacant m place) (type : Term) :
    (∃ answer, getStationMean floats place type (.map m) = .ok answer) ∨
      getStationMean floats place type (.map m) = .error .badarith := by
  obtain ⟨key, hkey⟩ := getName_occupied hm hpair h
  simp only [getStationMean, if_pos hpair, hkey, mapsFind, bind, Except.bind]
  cases hfound : m.lookup key with
  | none => exact Or.inl ⟨_, rfl⟩
  | some station =>
    simp only
    split
    · exact Or.inl ⟨_, rfl⟩
    · exact toTerm_answers _

theorem getStationMean_name {m : Stations} {place : Term} (h : place.isPair = false)
    (type : Term) : getStationMean floats place type (.map m) = .error .functionClause := by
  simp only [getStationMean, h]
  rfl

theorem getStationMean_vacant {m : Stations} {place : Term} (h : Vacant m place) (type : Term) :
    getStationMean floats place type (.map m) = .error .caseClause := by
  simp only [getStationMean, if_pos h.1, getName_vacant h, bind, Except.bind]

end Semestr4.PollutionOutcome
