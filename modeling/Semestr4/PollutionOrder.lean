import Semestr4.PollutionMean

/-!
# The order of the measurements cannot be seen

Two monitors that hold the same measurements in any order answer alike, and
every call leaves them alike. So the order in which measurements were added is
seen by no later sequence of calls. The smallest value is not among the answers:
it is looked for among the newest measurements. The means are those of exact values;
doubles are rounded at every addition, which shows the order.
-/

set_option autoImplicit false

namespace Semestr4.PollutionOrder
open Semestr4.ErlangTerm Semestr4.PollutionMonitor Semestr4.PollutionInvariant
open Semestr4.PollutionMean Semestr4.ScheduledRun Semestr4.UniqueKeys

def Like (R : List Measurement → List Measurement → Prop) (s t : Station) : Prop :=
  s.location.Same t.location ∧ R s.measurements t.measurements

def Alikes (R : List Measurement → List Measurement → Prop) (m n : Stations) : Prop :=
  ∀ name, Option.Rel (Like R) (m.lookup name) (n.lookup name)

abbrev Alike (m n : Stations) : Prop := Alikes List.Perm m n

abbrev Placed (m n : Stations) : Prop := Alikes (fun _ _ => True) m n

inductive Agree : Except Raised Monitor → Except Raised Monitor → Prop
  | raises (r : Raised) : Agree (.error r) (.error r)
  | refuses (s : String) : Agree (.ok (.text s)) (.ok (.text s))
  | returns {m n : Stations} (h : Alike m n) : Agree (.ok (.map m)) (.ok (.map n))

variable {R : List Measurement → List Measurement → Prop} {m n : Stations}

theorem Alikes.found (h : Alikes R m n) {name : Term} {s : Station} (hm : m.lookup name = some s) :
    ∃ t, n.lookup name = some t ∧ Like R s t := by
  have hname := h name
  rw [hm] at hname
  cases hn : n.lookup name with
  | none =>
    rw [hn] at hname
    cases hname
  | some t =>
    rw [hn] at hname
    cases hname with
    | some hsame => exact ⟨t, rfl, hsame⟩

theorem Alikes.swap (h : Alikes R m n) : Alikes (fun x y => R y x) n m := by
  intro name
  have hname := h name
  cases hm : m.lookup name <;> cases hn : n.lookup name <;> rw [hm, hn] at hname <;> cases hname
  · exact .none
  · rename_i hsame
    exact .some ⟨hsame.1.symm, hsame.2⟩

theorem Alikes.insert (h : Alikes R m n) (name : Term) {s t : Station} (hs : Like R s t) :
    Alikes R (m.insert name s) (n.insert name t) := by
  intro k
  by_cases hk : k = name
  · rw [hk, AList.lookup_insert, AList.lookup_insert]
    exact .some hs
  · rw [AList.lookup_insert_ne hk, AList.lookup_insert_ne hk]
    exact h k

theorem Alikes.imp {R' : List Measurement → List Measurement → Prop} (h : Alikes R m n)
    (hR : ∀ x y, R x y → R' x y) : Alikes R' m n := by
  intro name
  have hname := h name
  cases hm : m.lookup name <;> cases hn : n.lookup name <;> rw [hm, hn] at hname <;> cases hname
  · exact .none
  · rename_i hsame
    exact .some ⟨hsame.1, hR _ _ hsame.2⟩

theorem Alike.symm (h : Alike m n) : Alike n m := h.swap.imp fun _ _ => List.Perm.symm

theorem Alike.refl (m : Stations) : Alike m m := by
  intro name
  cases m.lookup name with
  | none => exact .none
  | some s => exact .some ⟨.refl _, .refl _⟩

theorem Alike.trans {o : Stations} (h : Alike m n) (h' : Alike n o) : Alike m o := by
  intro name
  have hname := h name
  cases hm : m.lookup name with
  | none =>
    have hname' := h' name
    cases hn : n.lookup name <;> rw [hm, hn] at hname <;> cases hname
    cases ho : o.lookup name <;> rw [hn, ho] at hname' <;> cases hname'
    exact .none
  | some s =>
    obtain ⟨t, ht, hst⟩ := h.found hm
    obtain ⟨u, hu, htu⟩ := h'.found ht
    rw [hu]
    exact .some ⟨hst.1.trans htu.1, hst.2.trans htu.2⟩

theorem Alikes.entry (h : Alikes R m n) {e : Entry} (he : e ∈ m.entries) :
    ∃ t, (⟨e.1, t⟩ : Entry) ∈ n.entries ∧ Like R e.2 t := by
  obtain ⟨t, ht, hsame⟩ := h.found (mem_entries.mp he)
  exact ⟨t, mem_entries.mpr ht, hsame⟩

theorem Alikes.stationsAt (h : Alikes R m n) {place : Term} {e : Entry}
    (he : e ∈ stationsAt place m) :
    ∃ t, (⟨e.1, t⟩ : Entry) ∈ stationsAt place n ∧ Like R e.2 t := by
  obtain ⟨hkey, hplace⟩ := mem_stationsAt.mp he
  obtain ⟨t, ht, hsame⟩ := h.found hkey
  exact ⟨t, mem_stationsAt.mpr ⟨ht, hsame.1.symm.trans hplace⟩, hsame⟩

theorem Alikes.stationsAt_cases (h : Alikes R m n) (hm : Wellformed m) (hn : Wellformed n)
    (place : Term) :
    PollutionInvariant.stationsAt place m = [] ∧ PollutionInvariant.stationsAt place n = [] ∨
    ∃ key s t, PollutionInvariant.stationsAt place m = [⟨key, s⟩] ∧
      PollutionInvariant.stationsAt place n = [⟨key, t⟩] ∧ Like R s t := by
  have hlength := hm.stationsAt_le place
  have hlength' := hn.stationsAt_le place
  cases hat : PollutionInvariant.stationsAt place m with
  | nil =>
    left
    refine ⟨rfl, List.eq_nil_iff_forall_not_mem.mpr fun e he => ?_⟩
    obtain ⟨s, hs, -⟩ := h.swap.stationsAt he
    rw [hat] at hs
    cases hs
  | cons e rest =>
    right
    rw [hat, List.length_cons] at hlength
    obtain rfl : rest = [] := List.length_eq_zero_iff.mp (by omega)
    obtain ⟨t, ht, hsame⟩ := h.stationsAt (hat ▸ List.mem_singleton_self e)
    refine ⟨e.1, e.2, t, rfl, ?_, hsame⟩
    obtain ⟨e', he'⟩ := List.length_eq_one_iff.mp
      (Nat.le_antisymm hlength' (List.length_pos_of_mem ht))
    rw [he'] at ht ⊢
    rw [List.mem_singleton.mp ht]

theorem getName_alike (h : Alikes R m n) (hm : Wellformed m) (hn : Wellformed n) (place : Term) :
    getName place (.map m) = getName place (.map n) := by
  rw [getName_map, getName_map]
  rcases h.stationsAt_cases hm hn place with ⟨hat, hat'⟩ | ⟨key, s, t, hat, hat', -⟩ <;>
    rw [hat, hat']

inductive Finds (R : List Measurement → List Measurement → Prop) :
    Except Raised (Option (Term × Station)) → Except Raised (Option (Term × Station)) → Prop
  | raises (r : Raised) : Finds R (.error r) (.error r)
  | nothing : Finds R (.ok none) (.ok none)
  | station (key : Term) {s t : Station} (h : Like R s t) :
      Finds R (.ok (some (key, s))) (.ok (some (key, t)))

theorem find_alike (h : Alikes R m n) (hm : Wellformed m) (hn : Wellformed n) (place : Term) :
    Finds R (find place m) (find place n) := by
  unfold find
  split
  · rcases h.stationsAt_cases hm hn place with ⟨hat, hat'⟩ | ⟨key, s, t, hat, hat', hsame⟩
    · rw [hat, hat']
      exact .raises _
    · rw [hat, hat']
      by_cases hkey : key = .nil
      · simp only [if_pos hkey]
        exact .nothing
      · simp only [if_neg hkey]
        exact .station key ⟨.refl _, hsame.2⟩
  · have hplace := h place
    cases hs : m.lookup place <;> cases ht : n.lookup place <;> rw [hs, ht] at hplace <;>
      cases hplace
    · exact .nothing
    · rename_i hsame
      exact .station place hsame

theorem any_alike {s t : Station} (h : Like List.Perm s t) (time type : Term) :
    (s.measurements.any fun x => x.At time type) = t.measurements.any fun x => x.At time type :=
  h.2.any_eq

theorem addStation_alike (h : Alike m n) (name location : Term) :
    Agree (addStation name location (.map m)) (addStation name location (.map n)) := by
  have hany : ∀ {m n : Stations}, Alike m n →
      (m.entries.any fun e => e.1.Same name ∨ e.2.location.Same location) = true →
      (n.entries.any fun e => e.1.Same name ∨ e.2.location.Same location) = true := by
    intro m n h htaken
    obtain ⟨e, he, hsame⟩ := List.any_eq_true.mp htaken
    obtain ⟨t, ht, hst⟩ := h.entry he
    refine List.any_eq_true.mpr ⟨_, ht, decide_eq_true ?_⟩
    exact (of_decide_eq_true hsame).imp_right hst.1.symm.trans
  rw [addStation_map, addStation_map, Bool.eq_iff_iff.mpr ⟨hany h, hany h.symm⟩]
  split
  · exact .refuses _
  · exact .returns (h.insert name ⟨.refl _, .refl _⟩)

theorem addValue_alike (h : Alike m n) (hm : Wellformed m) (hn : Wellformed n)
    (place time type val : Term) :
    Agree (addValue place time type val (.map m)) (addValue place time type val (.map n)) := by
  rw [addValue_map, addValue_map]
  cases toFloat val with
  | error r => exact .raises r
  | ok value =>
    have hfind := find_alike h hm hn place
    simp only [Except.bind]
    cases hm' : find place m <;> cases hn' : find place n <;> rw [hm', hn'] at hfind <;>
      cases hfind
    · exact .raises _
    · exact .refuses _
    · rename_i key s t hsame
      simp only [any_alike hsame]
      split
      · exact .refuses _
      · exact .returns (h.insert key ⟨hsame.1, hsame.2.cons _⟩)

theorem removeValue_alike (h : Alike m n) (hm : Wellformed m) (hn : Wellformed n)
    (place time type : Term) :
    Agree (removeValue place time type (.map m)) (removeValue place time type (.map n)) := by
  rw [removeValue_map, removeValue_map]
  have hfind := find_alike h hm hn place
  cases hm' : find place m <;> cases hn' : find place n <;> rw [hm', hn'] at hfind <;> cases hfind
  · exact .raises _
  · exact .refuses _
  · rename_i key s t hsame
    exact .returns (h.insert key ⟨hsame.1, hsame.2.filter _⟩)

theorem apply_alike (h : Alike m n) (hm : Wellformed m) (hn : Wellformed n) (call : Call) :
    Agree (call.apply (.map m)) (call.apply (.map n)) := by
  cases call with
  | addStation name location => exact addStation_alike h name location
  | addValue place time type val => exact addValue_alike h hm hn place time type val
  | removeValue place time type => exact removeValue_alike h hm hn place time type

theorem lookup_alike (h : Alikes R m n) (key : Term) :
    m.lookup key = none ∧ n.lookup key = none ∨
      ∃ s t, m.lookup key = some s ∧ n.lookup key = some t ∧ Like R s t := by
  have hkey := h key
  cases hm : m.lookup key <;> cases hn : n.lookup key <;> rw [hm, hn] at hkey <;> cases hkey
  · exact .inl ⟨rfl, rfl⟩
  · rename_i s t hsame
    exact .inr ⟨s, t, rfl, rfl, hsame⟩

theorem mean_perm {l l' : List Measurement} (h : l.Perm l') : mean exact l = mean exact l' := by
  rw [mean_eq, mean_eq, (h.map _).sum_eq, h.length_eq]

-- With doubles the order shows: a one is lost in the first sum, two are not in the second.
example : mean doubles ([10^16, 1, 1].map fun v => ⟨.nil, .nil, v⟩) ≠
    mean doubles ([1, 1, 10^16].map fun v => ⟨.nil, .nil, v⟩) := by decide +kernel

theorem getOneValue_alike (h : Alike m n) (hm : Wellformed m) (hn : Wellformed n)
    (place time type : Term) :
    getOneValue place time type (.map m) = getOneValue place time type (.map n) := by
  have hkey : keyOf place (.map m) = keyOf place (.map n) := by
    rw [keyOf, keyOf, getName_alike h hm hn]
  simp only [getOneValue, hkey, bind, Except.bind, mapsFind]
  cases keyOf place (.map n) with
  | error r => rfl
  | ok key =>
    rcases lookup_alike h key with ⟨hs, ht⟩ | ⟨s, t, hs, ht, hsame⟩
    · simp only [hs, ht]
    · have hperm : (selected time type s.measurements).Perm (selected time type t.measurements) :=
        hsame.2.filter _
      have hle := (hm.measurements key s hs).selected_le time type
      simp only [hs, ht]
      cases hsel : selected time type s.measurements with
      | nil =>
        rw [hsel] at hperm
        rw [← hperm.nil_eq]
      | cons x rest =>
        rw [hsel, List.length_cons] at hle
        obtain rfl : rest = [] := List.length_eq_zero_iff.mp (by omega)
        rw [hsel] at hperm
        rw [List.perm_singleton.mp hperm.symm]

theorem getStationMean_alike (h : Alike m n) (hm : Wellformed m) (hn : Wellformed n)
    (place type : Term) :
    getStationMean exact place type (.map m) = getStationMean exact place type (.map n) := by
  simp only [getStationMean, getName_alike h hm hn, bind, Except.bind, mapsFind]
  split
  · cases getName place (.map n) with
    | error r => rfl
    | ok key =>
      rcases lookup_alike h key with ⟨hs, ht⟩ | ⟨s, t, hs, ht, hsame⟩
      · simp only [hs, ht]
      · have hperm := hsame.2.filter fun x => decide (x.type.Same type)
        simp only [hs, ht]
        cases hsel : s.measurements.filter fun x => decide (x.type.Same type) with
        | nil =>
          rw [hsel] at hperm
          rw [← hperm.nil_eq]
        | cons x rest =>
          rw [hsel] at hperm
          cases hsel' : t.measurements.filter fun x => decide (x.type.Same type) with
          | nil =>
            rw [hsel'] at hperm
            exact absurd hperm.eq_nil (List.cons_ne_nil x rest)
          | cons y rest' =>
            rw [hsel'] at hperm
            simp only [mean_perm hperm]
  · rfl

theorem stored_alike (h : Alike m n) {name : Term} {x : Measurement} (hx : Stored m name x) :
    Stored n name x := by
  obtain ⟨s, hs, hmem⟩ := hx
  obtain ⟨t, ht, hsame⟩ := h.found hs
  exact ⟨t, ht, hsame.2.mem_iff.mp hmem⟩

theorem getDailyMean_alike (h : Alike m n) (hm : Wellformed m) (hn : Wellformed n)
    (day type : Term) :
    getDailyMean exact day type (.map m) = getDailyMean exact day type (.map n) := by
  have hset : matching m day type = matching n day type := by
    ext ⟨name, x⟩
    rw [mem_matching, mem_matching]
    exact and_congr_left fun _ => ⟨stored_alike h, stored_alike h.symm⟩
  rw [getDailyMean_matching hm, getDailyMean_matching hn, hset]

def Addresses (m : Stations) (place key : Term) : Prop := ∃ s, find place m = .ok (some (key, s))

theorem Addresses.placed {place key : Term} (ha : Addresses m place key) (h : Placed m n)
    (hm : Wellformed m) (hn : Wellformed n) : Addresses n place key := by
  obtain ⟨s, hs⟩ := ha
  have hfind := find_alike h hm hn place
  cases hn' : find place n <;> rw [hs, hn'] at hfind <;> cases hfind
  exact ⟨_, hn'⟩

theorem placed_insert {key location : Term} {r : Station} (hr : m.lookup key = some r)
    (hlocation : location.Same r.location) (measurements : List Measurement) :
    Placed m (m.insert key ⟨location, measurements⟩) := by
  intro k
  by_cases hk : k = key
  · rw [hk, hr, AList.lookup_insert]
    exact .some ⟨hlocation.symm, trivial⟩
  · rw [AList.lookup_insert_ne hk]
    exact (Alike.refl m).imp (fun _ _ _ => trivial) k

theorem alike_perm (h : m.entries.Perm n.entries) : Alike m n := by
  intro name
  rw [AList.perm_lookup h]
  exact Alike.refl n name

structure Addition where
  place : Term
  time : Term
  type : Term
  val : Term

def Addition.call (a : Addition) : Call := .addValue a.place a.time a.type a.val

def Addition.measurement (a : Addition) (value : ℚ) : Measurement := ⟨a.time, a.type, value⟩

def Addition.New (a : Addition) (measurements : List Measurement) : Prop :=
  ¬ (measurements.any fun x => x.At a.time a.type) = true

theorem Addition.new_cons {a : Addition} {x : Measurement} {measurements : List Measurement} :
    a.New (x::measurements) ↔ ¬ x.At a.time a.type ∧ a.New measurements := by
  simp [Addition.New]

theorem added {a : Addition} (h : a.call.apply (.map m) = .ok (.map n)) :
    ∃ value key r location, toFloat a.val = .ok value ∧ Addresses m a.place key ∧
      m.lookup key = some r ∧ a.New r.measurements ∧ location.Same r.location ∧
      n = m.insert key ⟨location, a.measurement value::r.measurements⟩ := by
  simp only [Addition.call, Call.apply, addValue_map] at h
  obtain ⟨value, hv, h⟩ := bind_ok h
  obtain ⟨found, hfind, h⟩ := bind_ok h
  cases found with
  | none => cases h
  | some found =>
    obtain ⟨key, s⟩ := found
    obtain ⟨r, hr, hlocation, hmeasurements⟩ := find_stored hfind
    simp only at h
    split at h
    · cases h
    · rename_i hnew
      cases h
      refine ⟨value, key, r, s.location, hv, ⟨s, hfind⟩, hr, hmeasurements ▸ hnew, hlocation, ?_⟩
      rw [← hmeasurements]
      rfl

theorem can_add {a : Addition} {value : ℚ} {key : Term} {r : Station}
    (hv : toFloat a.val = .ok value) (ha : Addresses m a.place key)
    (hr : m.lookup key = some r) (hnew : a.New r.measurements) :
    ∃ location, location.Same r.location ∧ a.call.apply (.map m) =
      .ok (.map (m.insert key ⟨location, a.measurement value::r.measurements⟩)) := by
  obtain ⟨s, hs⟩ := ha
  obtain ⟨r', hr', hlocation, hmeasurements⟩ := find_stored hs
  obtain rfl : r = r' := Option.some_inj.mp (hr.symm.trans hr')
  refine ⟨s.location, hlocation, ?_⟩
  rw [Addition.call, Call.apply, addValue_map, hv, hs]
  simp only [Except.bind]
  rw [hmeasurements, if_neg hnew]
  rfl

/-- Two additions that are accepted are accepted the other way round. -/
theorem additions_swap {a b : Addition} {m₁ m₂ : Stations} (hm : Wellformed m)
    (h : a.call.apply (.map m) = .ok (.map m₁)) (h' : b.call.apply (.map m₁) = .ok (.map m₂)) :
    ∃ n₁ n₂, b.call.apply (.map m) = .ok (.map n₁) ∧ a.call.apply (.map n₁) = .ok (.map n₂) ∧
      Alike m₂ n₂ := by
  have hm₁ := apply_wellformed hm h
  obtain ⟨value, key, r, location, hv, ha, hr, hnew, hlocation, rfl⟩ := added h
  obtain ⟨value', key', r', location', hv', hb, hr', hnew', hlocation', rfl⟩ := added h'
  have hb' := hb.placed (placed_insert hr hlocation _).swap hm₁ hm
  by_cases hk : key' = key
  · subst hk
    rw [AList.lookup_insert, Option.some_inj] at hr'
    subst hr'
    obtain ⟨hne, hfree⟩ := Addition.new_cons.mp hnew'
    obtain ⟨l₁, hl₁, hadd⟩ := can_add hv' hb' hr hfree
    have hn₁ := apply_wellformed hm hadd
    have hne' : ¬ (b.measurement value').At a.time a.type :=
      fun hat => hne ⟨hat.1.symm, hat.2.symm⟩
    obtain ⟨l₂, hl₂, hadd'⟩ := can_add hv (ha.placed (placed_insert hr hl₁ _) hm hn₁)
      (AList.lookup_insert m) (Addition.new_cons.mpr ⟨hne', hnew⟩)
    refine ⟨_, _, hadd, hadd', ?_⟩
    rw [AList.insert_insert, AList.insert_insert]
    exact (Alike.refl m).insert key' ⟨(hlocation'.trans hlocation).trans (hl₂.trans hl₁).symm,
      .swap ..⟩
  · rw [AList.lookup_insert_ne hk] at hr'
    obtain ⟨l₁, hl₁, hadd⟩ := can_add hv' hb' hr' hnew'
    have hn₁ := apply_wellformed hm hadd
    have hr₁ : (m.insert key' ⟨l₁, b.measurement value'::r'.measurements⟩).lookup key = some r := by
      rw [AList.lookup_insert_ne (Ne.symm hk), hr]
    obtain ⟨l₂, hl₂, hadd'⟩ := can_add hv (ha.placed (placed_insert hr' hl₁ _) hm hn₁) hr₁ hnew
    refine ⟨_, _, hadd, hadd', (alike_perm (AList.insert_insert_of_ne m (Ne.symm hk))).trans ?_⟩
    refine ((Alike.refl m).insert key' ?_).insert key ?_
    · exact ⟨hlocation'.trans hl₁.symm, .refl _⟩
    · exact ⟨hlocation.trans hl₂.symm, .refl _⟩

theorem step_returns {call : Call} {es : List Empty} :
    step m (.call call) = some (n, es) ↔ call.apply (.map m) = .ok (.map n) ∧ es = [] := by
  simp only [step]
  split
  · rename_i n' happly
    simp only [happly, Option.some.injEq, Prod.mk.injEq, Except.ok.injEq, Monitor.map.injEq,
      eq_comm (a := [])]
  · rename_i hnone
    constructor
    · intro h
      cases h
    · rintro ⟨h, -⟩
      exact absurd h (hnone n)

def moves (calls : List Call) : List Move := calls.map Move.call

theorem run_wellformed {as : List Move} {es : List Empty} (hm : Wellformed m)
    (hr : run step as m = some (n, es)) : Wellformed n :=
  run_induction step m (fun _ n => Wellformed n) hm (fun _ _ _ _ _ h hs => step_wellformed h hs)
    as n es hr

/-- Calls that are accepted are accepted by a monitor that is alike. -/
theorem run_alike {calls : List Call} {m' : Stations} {es : List Empty} (h : Alike m n)
    (hm : Wellformed m) (hn : Wellformed n) (hr : run step (moves calls) m = some (m', es)) :
    ∃ n', run step (moves calls) n = some (n', []) ∧ Alike m' n' := by
  induction calls generalizing m n es with
  | nil =>
    cases hr
    exact ⟨n, rfl, h⟩
  | cons call calls ih =>
    obtain ⟨m₁, fs, gs, hs, hr, -⟩ := run_cons.mp hr
    obtain ⟨happly, -⟩ := step_returns.mp hs
    have hagree := apply_alike h hm hn call
    rw [happly] at hagree
    cases hn₁ : call.apply (.map n) <;> rw [hn₁] at hagree <;> cases hagree
    rename_i n₁ hlike
    obtain ⟨n', hr', hlike'⟩ := ih hlike (apply_wellformed hm happly) (apply_wellformed hn hn₁) hr
    exact ⟨n', run_cons.mpr ⟨n₁, [], [], step_returns.mpr ⟨hn₁, rfl⟩, hr', rfl⟩, hlike'⟩

def additions (as : List Addition) : List Move := moves (as.map Addition.call)

theorem additions_perm {as bs : List Addition} (hp : as.Perm bs) {m' : Stations} {es : List Empty}
    (hm : Wellformed m) (hr : run step (additions as) m = some (m', es)) :
    ∃ n', run step (additions bs) m = some (n', []) ∧ Alike m' n' := by
  induction hp generalizing m m' es with
  | nil =>
    cases hr
    exact ⟨m, rfl, .refl m⟩
  | cons a hp ih =>
    obtain ⟨m₁, fs, gs, hs, hr, -⟩ := run_cons.mp hr
    obtain ⟨happly, -⟩ := step_returns.mp hs
    obtain ⟨n', hr', hlike⟩ := ih (apply_wellformed hm happly) hr
    exact ⟨n', run_cons.mpr ⟨m₁, [], [], step_returns.mpr ⟨happly, rfl⟩, hr', rfl⟩, hlike⟩
  | swap a b rest =>
    obtain ⟨m₁, fs, gs, hs, hr, -⟩ := run_cons.mp hr
    obtain ⟨m₂, fs', gs', hs', hr, -⟩ := run_cons.mp hr
    obtain ⟨happly, -⟩ := step_returns.mp hs
    obtain ⟨happly', -⟩ := step_returns.mp hs'
    obtain ⟨n₁, n₂, hadd, hadd', hlike⟩ := additions_swap hm happly happly'
    have hm₂ := apply_wellformed (apply_wellformed hm happly) happly'
    have hn₂ := apply_wellformed (apply_wellformed hm hadd) hadd'
    obtain ⟨n', hr', hlike'⟩ := run_alike hlike hm₂ hn₂ hr
    exact ⟨n', run_cons.mpr ⟨n₁, [], [], step_returns.mpr ⟨hadd, rfl⟩, run_cons.mpr
      ⟨n₂, [], [], step_returns.mpr ⟨hadd', rfl⟩, hr', rfl⟩, rfl⟩, hlike'⟩
  | trans _ _ ih ih' =>
    obtain ⟨n', hr', hlike⟩ := ih hm hr
    obtain ⟨n'', hr'', hlike'⟩ := ih' hm hr'
    exact ⟨n'', hr'', hlike.trans hlike'⟩

/-- No query but that for the smallest value tells the monitors apart, with means of exact
values, and no call is answered differently. -/
structure SameAnswers (m n : Stations) : Prop where
  oneValue : ∀ place time type,
    getOneValue place time type (.map m) = getOneValue place time type (.map n)
  stationMean : ∀ place type,
    getStationMean exact place type (.map m) = getStationMean exact place type (.map n)
  dailyMean : ∀ day type,
    getDailyMean exact day type (.map m) = getDailyMean exact day type (.map n)
  calls : ∀ call : Call, Agree (call.apply (.map m)) (call.apply (.map n))

/-- Measurements that are accepted in one order are accepted in every order, and after
any further calls the answers are the same. -/
theorem additions_in_any_order (m : Stations) (h : Reachable step createMonitor m)
    (as bs : List Addition) (hp : as.Perm bs) (m' : Stations) (es : List Empty)
    (hr : run step (additions as) m = some (m', es)) :
    ∃ n', run step (additions bs) m = some (n', []) ∧
      ∀ calls m'' fs, run step (moves calls) m' = some (m'', fs) →
        ∃ n'', run step (moves calls) n' = some (n'', []) ∧ SameAnswers m'' n'' := by
  have hm := reachable_wellformed h
  obtain ⟨n', hr', hlike⟩ := additions_perm hp hm hr
  refine ⟨n', hr', fun calls m'' fs hcalls => ?_⟩
  have hm' := run_wellformed hm hr
  have hn' := run_wellformed hm hr'
  obtain ⟨n'', hcalls', hlike'⟩ := run_alike hlike hm' hn' hcalls
  have hm'' := run_wellformed hm' hcalls
  have hn'' := run_wellformed hn' hcalls'
  exact ⟨n'', hcalls', ⟨getOneValue_alike hlike' hm'' hn'', getStationMean_alike hlike' hm'' hn'',
    getDailyMean_alike hlike' hm'' hn'', apply_alike hlike' hm'' hn''⟩⟩

def twoValues : List Addition :=
  [⟨.pair (.int 1) (.int 1), .int 7, .atom "pm10", .float 50⟩,
    ⟨.pair (.float 1) (.int 1), .int 8, .atom "pm10", .float 10⟩]

def oneStation : Stations :=
  createMonitor.insert (.atom "a") ⟨.pair (.int 1) (.int 1), []⟩

theorem two_values_in_any_order : ∃ m, Reachable step createMonitor m ∧
    ∃ m', run step (additions twoValues) m = some (m', []) ∧
    ∃ n', run step (additions twoValues.reverse) m = some (n', []) ∧
      ∀ calls m'' fs, run step (moves calls) m' = some (m'', fs) →
        ∃ n'', run step (moves calls) n' = some (n'', []) ∧ SameAnswers m'' n'' := by
  have hr : run step [.call (.addStation (.atom "a") (.pair (.int 1) (.int 1)))] createMonitor =
    some (oneStation, []) := rfl
  have hr' : run step (additions twoValues) oneStation = some (_, _) := rfl
  exact ⟨_, ⟨_, _, hr⟩, _, hr',
    additions_in_any_order _ ⟨_, _, hr⟩ twoValues _ (List.reverse_perm _).symm _ _ hr'⟩

end Semestr4.PollutionOrder
