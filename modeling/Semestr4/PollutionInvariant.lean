import Semestr4.PollutionMonitor
import Semestr4.ScheduledRun
import Semestr4.UniqueKeys

/-!
# What successful calls keep of a monitor

The readers of a monitor rely on a station to be the only one of its name and
of its location, and on a measurement to be the only one of its time and type.
Calls that succeed keep all three. A call addressed by a location writes that
location back, which can differ from the stored one in the kind of its numbers.
-/

set_option autoImplicit false

namespace Semestr4.PollutionInvariant
open Semestr4.ErlangTerm Semestr4.PollutionMonitor Semestr4.ScheduledRun Semestr4.UniqueKeys

def stationsAt (location : Term) (m : Stations) : List Entry :=
  m.entries.filter fun e => e.2.location.Same location

/-- The station a call addresses, with the location the call writes back, or
nothing where it is told that there is none. -/
def find (place : Term) (m : Stations) : Except Raised (Option (Term × Station)) :=
  if place.isPair then match stationsAt place m with
    | [e] => if e.1 = .nil then .ok none else .ok (some (e.1, { e.2 with location := place }))
    | _ => .error .caseClause
  else .ok ((m.lookup place).map fun station => (place, station))

theorem getName_map (location : Term) (m : Stations) :
    getName location (.map m) = match stationsAt location m with
      | [e] => .ok e.1
      | _ => .error .caseClause := rfl

theorem mem_stationsAt {location : Term} {m : Stations} {e : Entry} :
    e ∈ stationsAt location m ↔ m.lookup e.1 = some e.2 ∧ e.2.location.Same location := by
  simp only [stationsAt, List.mem_filter, mem_entries, decide_eq_true_eq]

theorem mapsGet_found {m : Stations} {key : Term} {station : Station}
    (h : m.lookup key = some station) : mapsGet key (.map m) = .ok station := by
  simp only [mapsGet, h]

theorem addStation_map (name location : Term) (m : Stations) :
    addStation name location (.map m) =
      if m.entries.any fun e => e.1.Same name ∨ e.2.location.Same location then
        .ok (.text stationExists)
      else .ok (.map (m.insert name { location := location, measurements := [] })) := rfl

/-- Both addressing modes look a station up and go on with its key, the location
to write and the measurements. -/
theorem addressed_map (place : Term) (m : Stations)
    (f : Term → Term → List Measurement → Except Raised Monitor) :
    (if place.isPair then do
      let key ← getName place (.map m)
      if key = .nil then
        return .text noSuchStation
      else
        let station ← mapsGet key (.map m)
        f key place station.measurements
    else do
      match ← mapsFind place (.map m) with
      | none => return .text noSuchStation
      | some station => f place station.location station.measurements) =
    (find place m).bind fun found => match found with
      | none => .ok (.text noSuchStation)
      | some (key, station) => f key station.location station.measurements := by
  unfold find
  split
  · simp only [bind, Except.bind, getName_map]
    cases hat : stationsAt place m with
    | nil => rfl
    | cons e rest =>
      cases rest with
      | cons e' rest => rfl
      | nil =>
        have he : m.lookup e.1 = some e.2 := (mem_stationsAt.mp (hat ▸ List.mem_singleton_self e)).1
        by_cases hkey : e.1 = .nil
        · simp only [if_pos hkey]
          rfl
        · simp only [if_neg hkey, mapsGet_found he]
  · cases hfound : m.lookup place with
    | none =>
      simp only [bind, Except.bind, mapsFind, hfound, Option.map_none]
      rfl
    | some station => simp only [bind, Except.bind, mapsFind, hfound, Option.map_some]

theorem addValue_map (place time type val : Term) (m : Stations) :
    addValue place time type val (.map m) =
      (toFloat val).bind fun value => (find place m).bind fun found => match found with
        | none => .ok (.text noSuchStation)
        | some (key, station) =>
          if station.measurements.any fun x => x.At time type then .ok (.text measurementExists)
          else .ok (.map (m.insert key
            { location := station.location
              measurements :=
                { time := time, type := type, value := value }::station.measurements })) := by
  unfold addValue
  cases hval : toFloat val with
  | error r => split <;> rfl
  | ok value =>
    exact addressed_map place m fun key location measurements =>
      if measurements.any fun x => x.At time type then .ok (.text measurementExists)
      else .ok (.map (m.insert key
        { location := location
          measurements := { time := time, type := type, value := value }::measurements }))

theorem removeValue_map (place time type : Term) (m : Stations) :
    removeValue place time type (.map m) =
      (find place m).bind fun found => match found with
        | none => .ok (.text noSuchStation)
        | some (key, station) => .ok (.map (m.insert key
            { location := station.location
              measurements := station.measurements.filter fun x =>
                ¬ x.type.Same type ∨ ¬ x.time.Same time })) :=
  addressed_map place m fun key location measurements =>
    .ok (.map (m.insert key
      { location := location
        measurements := measurements.filter fun x => ¬ x.type.Same type ∨ ¬ x.time.Same time }))

theorem find_stored {place : Term} {m : Stations} {key : Term} {station : Station}
    (h : find place m = .ok (some (key, station))) :
    ∃ stored, m.lookup key = some stored ∧ station.location.Same stored.location ∧
      station.measurements = stored.measurements := by
  unfold find at h
  split at h
  · split at h
    · rename_i e hat
      have he := mem_stationsAt.mp (hat ▸ List.mem_singleton_self e)
      split at h
      · cases h
      · cases h
        exact ⟨e.2, he.1, he.2.symm, rfl⟩
    · cases h
  · cases hfound : m.lookup place with
    | none =>
      rw [hfound] at h
      cases h
    | some stored =>
      rw [hfound] at h
      cases h
      exact ⟨_, hfound, Term.Same.refl _, rfl⟩

theorem bind_ok {α β : Type} {x : Except Raised α} {f : α → Except Raised β} {b : β}
    (h : x.bind f = .ok b) : ∃ a, x = .ok a ∧ f a = .ok b := by
  cases x with
  | error r => cases h
  | ok a => exact ⟨a, rfl, h⟩

def SameName (k : Term) (_ : Station) (l : Term) (_ : Station) : Prop := k.Same l

def SameLocation (_ : Term) (s : Station) (_ : Term) (t : Station) : Prop :=
  s.location.Same t.location

def Distinct (measurements : List Measurement) : Prop :=
  measurements.Pairwise fun x y => ¬ x.At y.time y.type

structure Wellformed (m : Stations) : Prop where
  names : Identifies SameName m
  locations : Identifies SameLocation m
  measurements : Everywhere (fun s => Distinct s.measurements) m

theorem SameName.symm (k : Term) (s : Station) (l : Term) (t : Station) (h : SameName k s l t) :
    SameName l t k s := Term.Same.symm h

theorem SameLocation.symm (k : Term) (s : Station) (l : Term) (t : Station)
    (h : SameLocation k s l t) : SameLocation l t k s := Term.Same.symm h

theorem empty_wellformed : Wellformed createMonitor :=
  ⟨identifies_empty, identifies_empty, everywhere_empty _⟩

theorem Wellformed.perm {m n : Stations} (hm : Wellformed m) (h : m.entries.Perm n.entries) :
    Wellformed n :=
  ⟨identifies_perm h hm.names, identifies_perm h hm.locations, everywhere_perm h hm.measurements⟩

theorem Wellformed.add {m : Stations} {name location : Term} (hm : Wellformed m)
    (hnames : ∀ l t, m.lookup l = some t → ¬ l.Same name)
    (hlocations : ∀ l t, m.lookup l = some t → ¬ t.location.Same location) :
    Wellformed (m.insert name { location := location, measurements := [] }) := by
  constructor
  · exact identifies_insert SameName.symm hm.names
      fun l t _ hl hsame => hnames l t hl (Term.Same.symm hsame)
  · exact identifies_insert SameLocation.symm hm.locations
      fun l t _ hl hsame => hlocations l t hl (Term.Same.symm hsame)
  · exact everywhere_insert hm.measurements List.Pairwise.nil

theorem Wellformed.put {m : Stations} {key : Term} {stored station : Station} (hm : Wellformed m)
    (hkey : m.lookup key = some stored) (hlocation : station.location.Same stored.location)
    (hdistinct : Distinct station.measurements) : Wellformed (m.insert key station) := by
  constructor
  · apply identifies_insert SameName.symm hm.names
    exact unrelated_update hm.names hkey fun _ _ h => h
  · apply identifies_insert SameLocation.symm hm.locations
    exact unrelated_update hm.locations hkey fun _ _ h => Term.Same.trans hlocation.symm h
  · exact everywhere_insert hm.measurements hdistinct

theorem Wellformed.found {m : Stations} {place key : Term} {station : Station} (hm : Wellformed m)
    (hfind : find place m = .ok (some (key, station))) : Distinct station.measurements := by
  obtain ⟨stored, hkey, -, hms⟩ := find_stored hfind
  rw [hms]
  exact hm.measurements key stored hkey

theorem Wellformed.put_found {m : Stations} {place key : Term} {station : Station}
    {measurements : List Measurement} (hm : Wellformed m)
    (hfind : find place m = .ok (some (key, station))) (hdistinct : Distinct measurements) :
    Wellformed (m.insert key { location := station.location, measurements := measurements }) := by
  obtain ⟨stored, hkey, hlocation, -⟩ := find_stored hfind
  exact hm.put hkey hlocation hdistinct

theorem Distinct.cons {measurements : List Measurement} (h : Distinct measurements)
    (time type : Term) (value : ℚ)
    (hnew : ¬ measurements.any (fun x => x.At time type) = true) :
    Distinct ({ time := time, type := type, value := value }::measurements) := by
  refine List.Pairwise.cons ?_ h
  intro x hx hat
  apply hnew
  rw [List.any_eq_true]
  exact ⟨x, hx, by simpa using ⟨hat.1.symm, hat.2.symm⟩⟩

theorem apply_wellformed {m n : Stations} {call : Call} (hm : Wellformed m)
    (h : call.apply (.map m) = .ok (.map n)) : Wellformed n := by
  cases call with
  | addStation name location =>
    simp only [Call.apply, addStation_map] at h
    split at h
    · cases h
    · rename_i hfree
      cases h
      have hnone : ∀ l t, m.lookup l = some t → ¬ (l.Same name ∨ t.location.Same location) := by
        intro l t hl htaken
        apply hfree
        rw [List.any_eq_true]
        exact ⟨⟨l, t⟩, mem_entries.mpr hl, by simpa using htaken⟩
      exact hm.add (fun l t hl hsame => hnone l t hl (Or.inl hsame))
        (fun l t hl hsame => hnone l t hl (Or.inr hsame))
  | addValue place time type val =>
    simp only [Call.apply, addValue_map] at h
    obtain ⟨value, -, h⟩ := bind_ok h
    obtain ⟨found, hfind, h⟩ := bind_ok h
    cases found with
    | none => cases h
    | some found =>
      obtain ⟨key, station⟩ := found
      simp only at h
      split at h
      · cases h
      · rename_i hnew
        cases h
        exact hm.put_found hfind ((hm.found hfind).cons time type value hnew)
  | removeValue place time type =>
    simp only [Call.apply, removeValue_map] at h
    obtain ⟨found, hfind, h⟩ := bind_ok h
    cases found with
    | none => cases h
    | some found =>
      cases h
      exact hm.put_found hfind ((hm.found hfind).filter _)

/-- A call on the monitor, or the listing of its map in another order. -/
inductive Move where
  | call (call : Call)
  | relist (stations : Stations)

/-- Only calls that return a monitor lead on. -/
def step : Step Stations Move Empty
  | m, .call call => match call.apply (.map m) with
    | .ok (.map n) => some (n, [])
    | _ => none
  | m, .relist n => if m.entries.Perm n.entries then some (n, []) else none

theorem step_wellformed {m n : Stations} {a : Move} {es : List Empty} (hm : Wellformed m)
    (h : step m a = some (n, es)) : Wellformed n := by
  cases a with
  | call call =>
    simp only [step] at h
    split at h
    · rename_i n' happly
      cases h
      exact apply_wellformed hm happly
    · cases h
  | relist n' =>
    simp only [step, Option.ite_none_right_eq_some, Option.some.injEq, Prod.mk.injEq] at h
    obtain ⟨hperm, rfl, -⟩ := h
    exact hm.perm hperm

theorem reachable_wellformed {m : Stations} (h : Reachable step createMonitor m) :
    Wellformed m :=
  h.induction empty_wellformed fun _ _ _ _ hm hs => step_wellformed hm hs

theorem Wellformed.stationsAt_le {m : Stations} (hm : Wellformed m) (location : Term) :
    (stationsAt location m).length ≤ 1 := by
  apply filter_length_le_one (identifies_pairwise hm.locations)
  intro a b ha hb
  exact Term.Same.trans (of_decide_eq_true ha) (Term.Same.symm (of_decide_eq_true hb))

theorem Distinct.selected_le {measurements : List Measurement} (h : Distinct measurements)
    (time type : Term) : (selected time type measurements).length ≤ 1 := by
  apply filter_length_le_one h
  intro x y hx hy
  have hx' := of_decide_eq_true hx
  have hy' := of_decide_eq_true hy
  exact ⟨Term.Same.trans hx'.2 hy'.2.symm, Term.Same.trans hx'.1 hy'.1.symm⟩

/-- In a monitor built by successful calls no two stations share a name or a
location, and no two measurements of a station a time and a type. So `getName`
and `getOneValue` never meet a second match. -/
theorem monitor_unambiguous (m : Stations) (h : Reachable step createMonitor m) :
    m.entries.Pairwise (fun a b => ¬ a.1.Same b.1) ∧
    m.entries.Pairwise (fun a b => ¬ a.2.location.Same b.2.location) ∧
    (∀ e ∈ m.entries, e.2.measurements.Pairwise fun x y =>
      ¬ (x.time.Same y.time ∧ x.type.Same y.type)) ∧
    (∀ e ∈ m.entries, ∀ time type, (selected time type e.2.measurements).length ≤ 1) ∧
    ∀ location, (stationsAt location m).length ≤ 1 := by
  have hm := reachable_wellformed h
  refine ⟨identifies_pairwise hm.names, identifies_pairwise hm.locations, ?_, ?_, ?_⟩
  · exact fun e he => hm.measurements e.1 e.2 (mem_entries.mp he)
  · intro e he time type
    exact Distinct.selected_le (hm.measurements e.1 e.2 (mem_entries.mp he)) time type
  · exact hm.stationsAt_le

def smallCalls : List Move :=
  [.call (.addStation (.atom "a") (.pair (.int 1) (.int 2))),
    .call (.addStation (.atom "b") (.pair (.int 2) (.int 2))),
    .call (.addValue (.pair (.float 1) (.float 2)) (.int 7) (.atom "pm10") (.float 50))]

theorem monitor_unambiguous_small : ∃ m, Reachable step createMonitor m ∧
    m.entries.length = 2 ∧ ∀ location, (stationsAt location m).length ≤ 1 := by
  have hr : run step smallCalls createMonitor = some (_, _) := rfl
  have h := monitor_unambiguous _ ⟨_, _, hr⟩
  exact ⟨_, ⟨_, _, hr⟩, rfl, h.2.2.2.2⟩

end Semestr4.PollutionInvariant
