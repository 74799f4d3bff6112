import Semestr4.PollutionOutcome

/-!
# The monitor as a table

What a monitor says when its stations are addressed by name: where a station
is, and the value measured there for a time and a type. Each call acts on the
table alone, and a call by name reaches one key of it. Times and types are one
key when `==` holds between them; a name is found as it was written.
-/

set_option autoImplicit false

namespace Semestr4.PollutionRefinement
open Semestr4.ErlangTerm Semestr4.PollutionMonitor Semestr4.PollutionInvariant
open Semestr4.PollutionOutcome Semestr4.ScheduledRun Semestr4.UniqueKeys

/-- The abstract monitor: a partial map from names to locations, and one from
names, times and types to values. -/
@[ext] structure Table where
  location : Term → Option Term
  value : Term → Term → Term → Option ℚ

def Table.empty : Table where
  location := fun _ => none
  value := fun _ _ _ => none

def Table.put (t : Table) (name time type : Term) (value : Option ℚ) : Table :=
  { t with
    value := fun n x y =>
      if n = name ∧ time.Same x ∧ type.Same y then value else t.value n x y }

open Classical in
noncomputable def Table.addStation (t : Table) (name location : Term) : Except String Table :=
  if ∃ n l, t.location n = some l ∧ (n.Same name ∨ l.Same location) then .error stationExists
  else .ok { t with location := fun n => if n = name then some location else t.location n }

def Table.addValue (t : Table) (name time type : Term) (value : ℚ) : Except String Table :=
  if t.location name = none then .error noSuchStation
  else if (t.value name time type).isSome then .error measurementExists
  else .ok (t.put name time type (some value))

def Table.removeValue (t : Table) (name time type : Term) : Except String Table :=
  if t.location name = none then .error noSuchStation
  else .ok (t.put name time type none)

def Table.getOneValue (t : Table) (name time type : Term) : Except String ℚ :=
  if t.location name = none then .error noSuchStation
  else match t.value name time type with
    | none => .error noSuchMeasurement
    | some value => .ok value

def valueAt (time type : Term) (measurements : List Measurement) : Option ℚ :=
  (measurements.find? fun x => x.At time type).map Measurement.value

def table (m : Stations) : Table where
  location := fun name => (m.lookup name).map Station.location
  value := fun name time type => (m.lookup name).bind fun s => valueAt time type s.measurements

/-- The code returns a monitor of the table the abstract call comes to, or the
text with which the abstract call is refused. -/
def Follows (r : Except Raised Monitor) : Except String Table → Prop
  | .ok t => ∃ n, r = .ok (.map n) ∧ table n = t
  | .error s => r = .ok (.text s)

def answer : Except String ℚ → Term
  | .ok value => .float value
  | .error s => .text s

theorem table_empty : table createMonitor = Table.empty := rfl

theorem table_perm {m n : Stations} (h : m.entries.Perm n.entries) : table m = table n := by
  simp only [table, AList.perm_lookup h]

theorem table_location_none {m : Stations} {name : Term} :
    (table m).location name = none ↔ m.lookup name = none := Option.map_eq_none_iff

theorem table_location_some {m : Stations} {name : Term} {station : Station}
    (hkey : m.lookup name = some station) : ¬ (table m).location name = none := by
  rw [table_location_none, hkey]
  simp

theorem table_value {m : Stations} {name : Term} {station : Station}
    (h : m.lookup name = some station) (time type : Term) :
    (table m).value name time type = valueAt time type station.measurements := by
  simp only [table, h, Option.bind_some]

theorem At.congr {x : Measurement} {time time' type type' : Term} (htime : time.Same time')
    (htype : type.Same type') : x.At time type ↔ x.At time' type' :=
  ⟨fun h => ⟨h.1.trans htime, h.2.trans htype⟩,
    fun h => ⟨h.1.trans htime.symm, h.2.trans htype.symm⟩⟩

theorem valueAt_cons (x : Measurement) (measurements : List Measurement) (time type : Term) :
    valueAt time type (x::measurements) =
      if x.At time type then some x.value else valueAt time type measurements := by
  unfold valueAt
  by_cases h : x.At time type <;> simp [h]

theorem valueAt_isSome {measurements : List Measurement} {time type : Term} :
    (valueAt time type measurements).isSome = true ↔
      (measurements.any fun x => x.At time type) = true := by
  simp only [valueAt, Option.isSome_map, List.find?_isSome, List.any_eq_true]

theorem valueAt_filter (measurements : List Measurement) (time type x y : Term) :
    valueAt x y (measurements.filter fun m => ¬ m.type.Same type ∨ ¬ m.time.Same time) =
      if time.Same x ∧ type.Same y then none else valueAt x y measurements := by
  induction measurements with
  | nil => simp [valueAt]
  | cons m rest ih =>
    by_cases hm : m.At time type
    · have hdrop : ¬ (¬ m.type.Same type ∨ ¬ m.time.Same time) := by
        simpa using And.intro hm.2 hm.1
      rw [List.filter_cons_of_neg (by simpa using hdrop), ih, valueAt_cons]
      by_cases hkey : time.Same x ∧ type.Same y
      · rw [if_pos hkey, if_pos hkey]
      · have hat : ¬ m.At x y := fun h => hkey ⟨hm.1.symm.trans h.1, hm.2.symm.trans h.2⟩
        rw [if_neg hkey, if_neg hkey, if_neg hat]
    · have hkeep : ¬ m.type.Same type ∨ ¬ m.time.Same time := by
        by_contra h
        push Not at h
        exact hm ⟨h.2, h.1⟩
      rw [List.filter_cons_of_pos (by simpa using hkeep), valueAt_cons, valueAt_cons, ih]
      by_cases hkey : time.Same x ∧ type.Same y
      · have hat : ¬ m.At x y := fun h => hm ((At.congr hkey.1 hkey.2).mpr h)
        rw [if_neg hat, if_pos hkey, if_pos hkey]
      · rw [if_neg hkey, if_neg hkey]

theorem filter_absent {measurements : List Measurement} {time type : Term}
    (h : ¬ (measurements.any fun x => x.At time type) = true) :
    (measurements.filter fun m => ¬ m.type.Same type ∨ ¬ m.time.Same time) = measurements := by
  rw [List.filter_eq_self]
  intro m hm
  by_contra hdrop
  apply h
  rw [List.any_eq_true]
  refine ⟨m, hm, ?_⟩
  simp only [decide_eq_true_eq, not_or, not_not] at hdrop ⊢
  exact ⟨hdrop.2, hdrop.1⟩

theorem table_insert {m : Stations} {name : Term} {station : Station}
    (h : m.lookup name = some station) (measurements : List Measurement) :
    table (m.insert name { location := station.location, measurements := measurements }) =
      { table m with
        value := fun n x y => if n = name then valueAt x y measurements else (table m).value n x y } := by
  ext1
  · funext n
    by_cases hn : n = name
    · simp [table, hn, h]
    · simp [table, AList.lookup_insert_ne hn]
  · funext n x y
    by_cases hn : n = name
    · simp [table, hn]
    · simp [table, hn, AList.lookup_insert_ne hn]

theorem table_insert_put {m : Stations} {name time type : Term} {station : Station}
    {measurements : List Measurement} {value : Option ℚ} (h : m.lookup name = some station)
    (hvalue : ∀ x y, valueAt x y measurements =
      if time.Same x ∧ type.Same y then value else valueAt x y station.measurements) :
    table (m.insert name { location := station.location, measurements := measurements }) =
      (table m).put name time type value := by
  rw [table_insert h]
  ext1
  · rfl
  · funext n x y
    simp only [Table.put]
    by_cases hn : n = name
    · subst hn
      rw [if_pos rfl, hvalue, table_value h]
      by_cases hkey : time.Same x ∧ type.Same y
      · rw [if_pos hkey, if_pos ⟨rfl, hkey⟩]
      · rw [if_neg hkey, if_neg fun hc => hkey hc.2]
    · rw [if_neg hn, if_neg fun hc => hn hc.1]

theorem addStation_follows (m : Stations) (name location : Term) :
    Follows (addStation name location (.map m)) ((table m).addStation name location) := by
  have htaken : (∃ n l, (table m).location n = some l ∧ (n.Same name ∨ l.Same location)) ↔
      (m.entries.any fun e => e.1.Same name ∨ e.2.location.Same location) = true := by
    rw [any_taken]
    constructor
    · rintro ⟨n, l, hl, hsame⟩
      obtain ⟨station, hkey, rfl⟩ := Option.map_eq_some_iff.mp hl
      exact ⟨n, station, hkey, hsame⟩
    · rintro ⟨n, station, hkey, hsame⟩
      exact ⟨n, station.location, by simp [table, hkey], hsame⟩
  rw [addStation_map]
  unfold Table.addStation
  by_cases h : ∃ n l, (table m).location n = some l ∧ (n.Same name ∨ l.Same location)
  · rw [if_pos h, if_pos (htaken.mp h)]
    rfl
  · rw [if_neg h, if_neg (mt htaken.mpr h)]
    refine ⟨_, rfl, ?_⟩
    have hnone : m.lookup name = none := by
      cases hkey : m.lookup name with
      | none => rfl
      | some station =>
        exact absurd ⟨name, station.location, by simp [table, hkey], Or.inl (Term.Same.refl _)⟩ h
    ext1
    · funext n
      by_cases hn : n = name
      · simp [table, hn]
      · simp [table, hn, AList.lookup_insert_ne hn]
    · funext n x y
      by_cases hn : n = name
      · simp [table, hn, hnone, valueAt]
      · simp [table, AList.lookup_insert_ne hn]

theorem find_name {name : Term} (h : name.isPair = false) (m : Stations) :
    find name m = .ok ((m.lookup name).map fun station => (name, station)) := by
  unfold find
  rw [h]
  rfl

theorem addValue_name {name val : Term} {value : ℚ} (h : name.isPair = false)
    (hval : float val = some value) (time type : Term) (m : Stations) :
    addValue name time type val (.map m) = match m.lookup name with
      | none => .ok (.text noSuchStation)
      | some station =>
        if station.measurements.any fun x => x.At time type then .ok (.text measurementExists)
        else .ok (.map (m.insert name
          { location := station.location
            measurements :=
              { time := time, type := type, value := value }::station.measurements })) := by
  rw [addValue_map, find_name h]
  simp only [toFloat, hval, Except.bind]
  cases m.lookup name <;> rfl

theorem removeValue_name {name : Term} (h : name.isPair = false) (time type : Term)
    (m : Stations) :
    removeValue name time type (.map m) = match m.lookup name with
      | none => .ok (.text noSuchStation)
      | some station => .ok (.map (m.insert name
          { location := station.location
            measurements := station.measurements.filter fun x =>
              ¬ x.type.Same type ∨ ¬ x.time.Same time })) := by
  rw [removeValue_map, find_name h]
  simp only [Except.bind]
  cases m.lookup name <;> rfl

theorem addValue_badarg {val : Term} (hval : float val = none) (name time type : Term)
    (m : Stations) : addValue name time type val (.map m) = .error .badarg := by
  rw [addValue_map, toFloat_none hval]
  rfl

theorem addValue_follows {name val : Term} {value : ℚ} (h : name.isPair = false)
    (hval : float val = some value) (time type : Term) (m : Stations) :
    Follows (addValue name time type val (.map m))
      ((table m).addValue name time type value) := by
  rw [addValue_name h hval]
  unfold Table.addValue
  cases hkey : m.lookup name with
  | none =>
    rw [if_pos (table_location_none.mpr hkey)]
    rfl
  | some station =>
    rw [if_neg (table_location_some hkey), table_value hkey]
    simp only [valueAt_isSome]
    by_cases hexists : (station.measurements.any fun x => x.At time type) = true
    · rw [if_pos hexists, if_pos hexists]
      rfl
    · rw [if_neg hexists, if_neg hexists]
      refine ⟨_, rfl, table_insert_put hkey ?_⟩
      intro x y
      rw [valueAt_cons]
      rfl

theorem removeValue_follows {name : Term} (h : name.isPair = false) (time type : Term)
    (m : Stations) :
    Follows (removeValue name time type (.map m)) ((table m).removeValue name time type) := by
  rw [removeValue_name h]
  unfold Table.removeValue
  cases hkey : m.lookup name with
  | none =>
    rw [if_pos (table_location_none.mpr hkey)]
    rfl
  | some station =>
    rw [if_neg (table_location_some hkey)]
    exact ⟨_, rfl, table_insert_put hkey (valueAt_filter station.measurements time type)⟩

theorem selected_valueAt {measurements : List Measurement} (h : Distinct measurements)
    (time type : Term) :
    (∃ x, selected time type measurements = [x] ∧ valueAt time type measurements = some x.value) ∨
    selected time type measurements = [] ∧ valueAt time type measurements = none := by
  have hsel : selected time type measurements = measurements.filter fun x => x.At time type := by
    apply List.filter_congr
    intro x _
    rw [decide_eq_decide]
    exact and_comm
  have hle := h.selected_le time type
  have hfind : (selected time type measurements).head? =
      measurements.find? fun x => x.At time type := by
    rw [hsel, List.head?_filter]
  unfold valueAt
  rw [← hfind]
  match hs : selected time type measurements with
  | [] => exact Or.inr ⟨rfl, rfl⟩
  | [x] => exact Or.inl ⟨x, rfl, rfl⟩
  | x::y::rest =>
    rw [hs] at hle
    simp at hle

theorem getOneValue_follows {m : Stations} (hm : Wellformed m) {name : Term}
    (h : name.isPair = false) (time type : Term) :
    getOneValue name time type (.map m) = .ok (answer ((table m).getOneValue name time type)) := by
  have hname : keyOf name (.map m) = .ok name := if_neg (by simp [h])
  simp only [getOneValue, hname, mapsFind, bind, Except.bind, Table.getOneValue]
  cases hkey : m.lookup name with
  | none =>
    rw [if_pos (table_location_none.mpr hkey)]
    rfl
  | some station =>
    rw [if_neg (table_location_some hkey), table_value hkey]
    simp only
    rcases selected_valueAt (hm.measurements name station hkey) time type with
      ⟨x, hs, hv⟩ | ⟨hs, hv⟩
    · rw [hs, hv]
      rfl
    · rw [hs, hv]
      rfl

/-- What `addValue` put is all that `removeValue` takes away. -/
theorem removeValue_addValue {m n : Stations} {name val : Term} {value : ℚ}
    (h : name.isPair = false) (hval : float val = some value) {time type : Term}
    (hadd : addValue name time type val (.map m) = .ok (.map n)) :
    ∃ k, removeValue name time type (.map n) = .ok (.map k) ∧ k.entries.Perm m.entries := by
  rw [addValue_name h hval] at hadd
  cases hkey : m.lookup name with
  | none =>
    rw [hkey] at hadd
    cases hadd
  | some station =>
    rw [hkey] at hadd
    simp only at hadd
    split at hadd
    · cases hadd
    · rename_i hnew
      cases hadd
      have hdrop : ¬ (¬ type.Same type ∨ ¬ time.Same time) := by
        simp [Term.Same.refl]
      have hremove := removeValue_name h time type (m.insert name
        { location := station.location
          measurements := { time := time, type := type, value := value }::station.measurements })
      rw [AList.lookup_insert] at hremove
      simp only at hremove
      rw [List.filter_cons_of_neg (by simpa using hdrop), filter_absent hnew] at hremove
      exact ⟨_, hremove, insert_restored hkey⟩

def ByName : Call → Prop
  | .addStation _ _ => True
  | .addValue place _ _ _ => place.isPair = false
  | .removeValue place _ _ => place.isPair = false

noncomputable def Table.next (t : Table) : Move → Option Table
  | .call (.addStation name location) => (t.addStation name location).toOption
  | .call (.addValue place time type val) =>
    (float val).bind fun value => (t.addValue place time type value).toOption
  | .call (.removeValue place time type) => (t.removeValue place time type).toOption
  | .relist _ => some t

theorem Follows.next {r : Except Raised Monitor} {x : Except String Table} {n : Stations}
    (h : Follows r x) (hr : r = .ok (.map n)) : x.toOption = some (table n) := by
  cases x with
  | ok t =>
    obtain ⟨k, hk, ht⟩ := h
    rw [hr] at hk
    cases hk
    exact congrArg some ht.symm
  | error s =>
    rw [hr] at h
    cases h

theorem step_table {m n : Stations} {move : Move} {es : List Empty}
    (hname : ∀ call, move = .call call → ByName call) (h : step m move = some (n, es)) :
    (table m).next move = some (table n) := by
  cases move with
  | relist k =>
    simp only [step, Option.ite_none_right_eq_some, Option.some.injEq, Prod.mk.injEq] at h
    obtain ⟨hperm, rfl, -⟩ := h
    exact congrArg some (table_perm hperm)
  | call call =>
    simp only [step] at h
    split at h
    · rename_i k happly
      cases h
      have hcall := hname call rfl
      cases call with
      | addStation name location => exact (addStation_follows m name location).next happly
      | addValue place time type val =>
        cases hval : float val with
        | none => cases (addValue_badarg hval place time type m).symm.trans happly
        | some value =>
          simp only [Table.next, hval, Option.bind_some]
          exact (addValue_follows hcall hval time type m).next happly
      | removeValue place time type => exact (removeValue_follows hcall time type m).next happly
    · cases h

/-- A whole run of calls by name is a run on the table. -/
theorem run_table {moves : List Move} {m n : Stations} {es : List Empty}
    (hname : ∀ call, .call call ∈ moves → ByName call) (h : run step moves m = some (n, es)) :
    moves.foldlM Table.next (table m) = some (table n) := by
  induction moves generalizing m es with
  | nil =>
    cases h
    rfl
  | cons move rest ih =>
    obtain ⟨k, es', fs, hs, hr, -⟩ := run_cons.mp h
    rw [List.foldlM_cons, step_table (fun call hc => hname call (by simp [hc])) hs]
    exact ih (fun call hc => hname call (List.mem_cons_of_mem _ hc)) hr

/-- In every monitor successful calls lead to, a call that addresses a station
by name does what the table says, for every value `float/1` accepts; and
`removeValue` undoes a successful `addValue`. -/
theorem monitor_refines_table (m : Stations) (h : Reachable step createMonitor m) :
    (∀ name location, Follows (addStation name location (.map m))
      ((table m).addStation name location)) ∧
    (∀ name time type val value, name.isPair = false → float val = some value →
      Follows (addValue name time type val (.map m))
        ((table m).addValue name time type value)) ∧
    (∀ name time type val, name.isPair = false → float val = none →
      addValue name time type val (.map m) = .error .badarg) ∧
    (∀ name time type, name.isPair = false →
      Follows (removeValue name time type (.map m)) ((table m).removeValue name time type)) ∧
    (∀ name time type, name.isPair = false →
      getOneValue name time type (.map m) =
        .ok (answer ((table m).getOneValue name time type))) ∧
    ∀ name time type val n, name.isPair = false →
      addValue name time type val (.map m) = .ok (.map n) →
        ∃ k, removeValue name time type (.map n) = .ok (.map k) ∧ k.entries.Perm m.entries := by
  have hm := reachable_wellformed h
  refine ⟨addStation_follows m, ?_, ?_, ?_, ?_, ?_⟩
  · exact fun name time type val value hname hval => addValue_follows hname hval time type m
  · exact fun name time type val _ hval => addValue_badarg hval name time type m
  · exact fun name time type hname => removeValue_follows hname time type m
  · exact fun name time type hname => getOneValue_follows hm hname time type
  · intro name time type val n hname hadd
    cases hval : float val with
    | none => cases (addValue_badarg hval name time type m).symm.trans hadd
    | some value => exact removeValue_addValue hname hval hadd

def namedCalls : List Move :=
  [.call (.addStation (.atom "a") (.pair (.int 1) (.int 2))),
    .call (.addValue (.atom "a") (.int 7) (.atom "pm10") (.float 50))]

theorem monitor_refines_table_small : ∃ m, Reachable step createMonitor m ∧
    getOneValue (.atom "a") (.float 7) (.atom "pm10") (.map m) = .ok (.float 50) := by
  have hr : run step namedCalls createMonitor = some (_, _) := rfl
  have h := monitor_refines_table _ ⟨_, _, hr⟩
  exact ⟨_, ⟨_, _, hr⟩, h.2.2.2.2.1 (.atom "a") (.float 7) (.atom "pm10") rfl⟩

/-- A value that is no number is refused although station and key are there. -/
theorem addValue_needs_number : ¬ ∀ m, Reachable step createMonitor m →
    ∀ name time type val, name.isPair = false →
      ((∃ n, addValue name time type val (.map m) = .ok (.map n)) ↔
        (table m).location name ≠ none ∧ (table m).value name time type = none) := by
  intro h
  have hr : run step namedCalls createMonitor = some (_, _) := rfl
  obtain ⟨n, hn⟩ := (h _ ⟨_, _, hr⟩ (.atom "a") (.int 8) (.atom "pm10") (.atom "high") rfl).mpr
    ⟨by decide, by decide⟩
  cases hn

end Semestr4.PollutionRefinement
