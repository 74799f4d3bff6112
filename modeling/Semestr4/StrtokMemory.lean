import Mathlib.Data.List.Basic
import Semestr4.DecimalText

/-!
# Tokens cut in memory

`strtok` ends a token by writing a terminator into the string, and goes on behind
it when it is called with a null pointer. Everything it returns points into that
string. Calls until the null pointer return the tokens, and later cuts leave the
strings before them as they are.
-/

set_option autoImplicit false

namespace Semestr4.StrtokMemory
open Semestr4.ByteText Semestr4.DecimalText

/-- The bytes of a string and where a call with a null pointer goes on. -/
structure Memory where
  bytes : Text
  saved : ℕ

def Memory.string (m : Memory) (p : ℕ) : Text := cstring (m.bytes.drop p)

def Memory.first (m : Memory) (delim : Text) (start : ℕ) : ℕ :=
  start+((m.string start).takeWhile (· ∈ delim)).length

def Memory.token (m : Memory) (delim : Text) (start : ℕ) : Text :=
  ((m.string start).dropWhile (· ∈ delim)).takeWhile (· ∉ delim)

def Memory.last (m : Memory) (delim : Text) (start : ℕ) : ℕ :=
  m.first delim start+(m.token delim start).length

/-- A call with the pointer `s`, `none` for a null pointer. -/
def strtok (delim : Text) (s : Option ℕ) (m : Memory) : Option ℕ × Memory :=
  let start := s.getD m.saved
  if m.token delim start = [] then (none, ⟨m.bytes, m.first delim start⟩)
  else if m.string (m.last delim start) = [] then
    (some (m.first delim start), ⟨m.bytes, m.last delim start⟩)
  else (some (m.first delim start), ⟨m.bytes.set (m.last delim start) 0, m.last delim start+1⟩)

/-- `while (p) { ...; p = strtok(NULL, delim); }`: the values of `p`, for at most
`fuel` calls. -/
def rest (delim : Text) : ℕ → Option ℕ → Memory → Option (List ℕ × Memory)
  | _, none, m => some ([], m)
  | 0, some _, _ => none
  | fuel+1, some p, m =>
    let next := strtok delim none m
    (rest delim fuel next.1 next.2).map fun r => (p::r.1, r.2)

def pointers (delim : Text) (fuel s : ℕ) (m : Memory) : Option (List ℕ × Memory) :=
  let next := strtok delim (some s) m
  rest delim fuel next.1 next.2

/-- `strtok(p, delim)` for one pointer after the other. -/
def each (delim : Text) : List (Option ℕ) → Memory → Memory
  | [], m => m
  | p::ps, m => each delim ps (strtok delim p m).2

theorem cstring_set (l : Text) (i : ℕ) : cstring (l.set i 0) = (cstring l).take i := by
  induction l generalizing i with
  | nil => simp [cstring]
  | cons b l ih =>
    cases i with
    | zero => simp [cstring]
    | succ i =>
      by_cases hb : b = 0
      · simp [cstring, hb]
      · have hcons : ∀ l : Text, cstring (b::l) = b::cstring l := fun l => by simp [cstring, hb]
        rw [List.set_cons_succ, hcons, hcons, ih, List.take_succ_cons]

theorem cstring_drop (l : Text) {k : ℕ} (h : k ≤ (cstring l).length) :
    cstring (l.drop k) = (cstring l).drop k := by
  induction l generalizing k with
  | nil => simp [cstring]
  | cons b l ih =>
    cases k with
    | zero => rfl
    | succ k =>
      by_cases hb : b = 0
      · simp [cstring, hb] at h
      · have hcons : cstring (b::l) = b::cstring l := by simp [cstring, hb]
        rw [hcons, List.length_cons] at h
        rw [hcons, List.drop_succ_cons, List.drop_succ_cons]
        exact ih (by omega)

variable {m : Memory} {delim : Text}

theorem string_set (bytes : Text) (saved i p : ℕ) :
    Memory.string ⟨bytes.set i 0, saved⟩ p =
      if i < p then cstring (bytes.drop p) else (cstring (bytes.drop p)).take (i-p) := by
  rw [Memory.string, List.drop_set]
  split
  · rfl
  · exact cstring_set _ _

theorem string_add {p k : ℕ} (h : k ≤ (m.string p).length) :
    m.string (p+k) = (m.string p).drop k := by
  rw [Memory.string, ← List.drop_drop]
  exact cstring_drop _ h

theorem string_no_zero (m : Memory) (p : ℕ) : 0 ∉ m.string p := fun hmem => by
  simpa using List.mem_takeWhile_imp hmem

theorem drop_takeWhile (p : UInt8 → Bool) (l : Text) :
    l.drop (l.takeWhile p).length = l.dropWhile p := by
  have hdrop := @List.drop_left _ (l.takeWhile p) (l.dropWhile p)
  rwa [List.takeWhile_append_dropWhile] at hdrop

theorem string_split (m : Memory) (delim : Text) (start : ℕ) : m.string start =
    (m.string start).takeWhile (· ∈ delim)++(m.token delim start++
      ((m.string start).dropWhile (· ∈ delim)).dropWhile (· ∉ delim)) := by
  rw [Memory.token, List.takeWhile_append_dropWhile, List.takeWhile_append_dropWhile]

theorem first_le (m : Memory) (delim : Text) (start : ℕ) : start ≤ m.first delim start :=
  Nat.le_add_right _ _

theorem last_le (m : Memory) (delim : Text) (start : ℕ) :
    m.last delim start ≤ start+(m.string start).length := by
  have hsplit := congrArg List.length (string_split m delim start)
  rw [List.length_append, List.length_append] at hsplit
  rw [Memory.last, Memory.first]
  omega

theorem first_lt_last {start : ℕ} (h : m.token delim start ≠ []) :
    m.first delim start < m.last delim start :=
  Nat.lt_add_of_pos_right (List.length_pos_iff.mpr h)

theorem string_first (m : Memory) (delim : Text) (start : ℕ) :
    m.string (m.first delim start) = (m.string start).dropWhile (· ∈ delim) := by
  rw [Memory.first, string_add (List.takeWhile_sublist _).length_le]
  exact drop_takeWhile _ _

theorem string_last (m : Memory) (delim : Text) (start : ℕ) : m.string (m.last delim start) =
    ((m.string start).dropWhile (· ∈ delim)).dropWhile (· ∉ delim) := by
  have hle : (m.token delim start).length ≤ (m.string (m.first delim start)).length := by
    rw [string_first]
    exact (List.takeWhile_sublist _).length_le
  rw [Memory.last, string_add hle, string_first]
  exact drop_takeWhile _ _

theorem token_nil {s : Text} :
    (s.dropWhile (· ∈ delim)).takeWhile (· ∉ delim) = [] ↔ s.dropWhile (· ∈ delim) = [] := by
  have hhead := List.head?_dropWhile_not (p := (· ∈ delim)) (l := s)
  cases hs : s.dropWhile (· ∈ delim) with
  | nil => simp
  | cons b s =>
    rw [hs] at hhead
    simpa using hhead

theorem token_eq_nil {start : ℕ} :
    m.token delim start = [] ↔ (m.string start).dropWhile (· ∈ delim) = [] := token_nil

theorem words_string (m : Memory) (delim : Text) (start : ℕ) : words delim (m.string start) =
    if m.token delim start = [] then []
    else m.token delim start::words delim (m.string (m.last delim start)).tail := by
  cases hs : (m.string start).dropWhile (· ∈ delim) with
  | nil => rw [if_pos (token_eq_nil.mpr hs), words_strtok, DecimalText.strtok, hs]
  | cons b s =>
    have hne : m.token delim start ≠ [] := fun hnil => by simp [token_eq_nil.mp hnil] at hs
    rw [if_neg hne, words_strtok, DecimalText.strtok, string_last, Memory.token, hs]

/-- What a call leaves of a string: delimiters at the beginning and one token. -/
def cut (delim s : Text) : Text :=
  s.takeWhile (· ∈ delim)++(s.dropWhile (· ∈ delim)).takeWhile (· ∉ delim)

theorem cut_isPrefix (delim s : Text) : cut delim s <+: s := by
  have hprefix := List.takeWhile_prefix (· ∉ delim) (l := s.dropWhile (· ∈ delim))
  have happend := (List.prefix_append_right_inj (s.takeWhile (· ∈ delim))).mpr hprefix
  rwa [List.takeWhile_append_dropWhile] at happend

theorem cut_of_nil {s : Text} (h : s.dropWhile (· ∈ delim) = []) : cut delim s = s := by
  have hsplit := List.takeWhile_append_dropWhile (p := (· ∈ delim)) (l := s)
  rw [h, List.append_nil] at hsplit
  rw [cut, h, List.takeWhile_nil, List.append_nil, hsplit]

theorem dropWhile_cut (delim s : Text) : (cut delim s).dropWhile (· ∈ delim) =
    (s.dropWhile (· ∈ delim)).takeWhile (· ∉ delim) := by
  have hskip : ∀ b ∈ s.takeWhile (· ∈ delim), decide (b ∈ delim) = true :=
    fun b hb => List.mem_takeWhile_imp (p := (· ∈ delim)) hb
  rw [cut, List.dropWhile_append_of_pos hskip, List.dropWhile_eq_self_iff]
  intro hpos
  have hmem := List.mem_takeWhile_imp (List.getElem_mem hpos)
  simpa using hmem

theorem strtok_first (delim s : Text) : (DecimalText.strtok delim s).map Prod.fst =
    if s.dropWhile (· ∈ delim) = [] then none
    else some ((s.dropWhile (· ∈ delim)).takeWhile (· ∉ delim)) := by
  rw [DecimalText.strtok]
  cases s.dropWhile (· ∈ delim) <;> rfl

theorem strtok_cut_first (delim s : Text) :
    (DecimalText.strtok delim (cut delim s)).map Prod.fst =
      (DecimalText.strtok delim s).map Prod.fst := by
  have hall : ((s.dropWhile (· ∈ delim)).takeWhile (· ∉ delim)).takeWhile (· ∉ delim) =
      (s.dropWhile (· ∈ delim)).takeWhile (· ∉ delim) := by
    rw [List.takeWhile_eq_self_iff]
    exact fun b hb => List.mem_takeWhile_imp (p := (· ∉ delim)) hb
  rw [strtok_first, strtok_first, dropWhile_cut, hall]
  simp only [token_nil]

theorem cut_continues {s : Text} (h : Continues delim s) :
    cut delim s = s.takeWhile (· ∉ delim) := by
  cases s with
  | nil => exact absurd h id
  | cons b s =>
    have hb : b ∉ delim := h
    rw [cut, List.takeWhile_cons_of_neg (by simpa using hb), List.dropWhile_cons_of_neg
      (by simpa using hb), List.nil_append]

theorem strtok_none {s : Option ℕ} (h : m.token delim (s.getD m.saved) = []) :
    strtok delim s m = (none, ⟨m.bytes, m.first delim (s.getD m.saved)⟩) := if_pos h

/-- A terminator was written at `last`, or had been there, and the call with a null
pointer goes on behind it. -/
structure CutAt (m m' : Memory) (last : ℕ) : Prop where
  strings : ∀ p, m'.string p = if last < p then m.string p else (m.string p).take (last-p)
  remaining : m'.string m'.saved = (m.string last).tail
  saved : last ≤ m'.saved
  ended : last = m'.saved → m'.string m'.saved = []

theorem CutAt.before {m m' : Memory} {last p : ℕ} (h : CutAt m m' last)
    (hp : p+(m.string p).length ≤ last) : m'.string p = m.string p := by
  rw [h.strings, if_neg (by omega)]
  exact List.take_of_length_le (by omega)

theorem CutAt.behind {m m' : Memory} {last p : ℕ} (h : CutAt m m' last) (hp : last < p) :
    m'.string p = m.string p := by
  rw [h.strings, if_pos hp]

theorem string_stops {p last : ℕ} (hp : p ≤ last) (h : m.string last = []) :
    (m.string p).length ≤ last-p := by
  by_contra hlt
  have hdrop := string_add (m := m) (p := p) (not_le.mp hlt).le
  rw [Nat.add_sub_cancel' hp, h] at hdrop
  have hlength := congrArg List.length hdrop
  rw [List.length_drop, List.length_nil] at hlength
  omega

theorem strtok_some {s : Option ℕ} (h : m.token delim (s.getD m.saved) ≠ []) :
    ∃ m', strtok delim s m = (some (m.first delim (s.getD m.saved)), m') ∧
      CutAt m m' (m.last delim (s.getD m.saved)) := by
  by_cases hend : m.string (m.last delim (s.getD m.saved)) = []
  · refine ⟨_, by rw [strtok, if_neg h, if_pos hend], ⟨fun p => ?_, ?_, le_refl _, fun _ => hend⟩⟩
    · split
      · rfl
      · rename_i hp
        exact (List.take_of_length_le (string_stops (not_lt.mp hp) hend)).symm
    · rw [hend]
      exact hend
  · refine ⟨_, by rw [strtok, if_neg h, if_neg hend], ⟨fun p => string_set _ _ _ p, ?_,
      Nat.le_succ _, fun heq => absurd heq (Nat.ne_of_lt (Nat.lt_succ_self _))⟩⟩
    rw [string_set, if_pos (Nat.lt_succ_self _), ← List.drop_one]
    exact string_add (List.length_pos_iff.mpr hend)

theorem CutAt.token {m m' : Memory} {start : ℕ} (h : CutAt m m' (m.last delim start)) :
    m'.string (m.first delim start) = m.token delim start := by
  have hle : ¬m.last delim start < m.first delim start := not_lt.mpr (Nat.le_add_right _ _)
  rw [h.strings, if_neg hle, string_first, Memory.last, Nat.add_sub_cancel_left, Memory.token]
  exact (List.prefix_iff_eq_take.mp (List.takeWhile_prefix _)).symm

theorem last_eq (m : Memory) (delim : Text) (start : ℕ) :
    m.last delim start = start+(cut delim (m.string start)).length := by
  rw [Memory.last, Memory.first, cut, List.length_append, Nat.add_assoc]
  rfl

theorem le_last (m : Memory) (delim : Text) (start : ℕ) : start ≤ m.last delim start := by
  rw [last_eq]
  exact Nat.le_add_right _ _

theorem CutAt.start {m m' : Memory} {start : ℕ} (h : CutAt m m' (m.last delim start)) :
    m'.string start = cut delim (m.string start) := by
  rw [h.strings, if_neg (not_lt.mpr (le_last ..)), last_eq, Nat.add_sub_cancel_left]
  exact (List.prefix_iff_eq_take.mp (cut_isPrefix ..)).symm

theorem strtok_saved (delim : Text) (s : Option ℕ) (m : Memory) :
    m.last delim (s.getD m.saved) ≤ (strtok delim s m).2.saved := by
  by_cases hne : m.token delim (s.getD m.saved) = []
  · rw [strtok_none hne, Memory.last, hne]
    exact le_refl _
  · obtain ⟨m', hcall, hcut⟩ := strtok_some hne
    rw [hcall]
    exact hcut.saved

/-- A call in memory is a call on the string. -/
theorem strtok_string (delim : Text) (s : Option ℕ) (m : Memory) :
    match DecimalText.strtok delim (m.string (s.getD m.saved)) with
    | none => (strtok delim s m).1 = none
    | some (token, rest) => ∃ p m', strtok delim s m = (some p, m') ∧ m'.string p = token ∧
        m'.string m'.saved = rest ∧ p+token.length ≤ m'.saved := by
  by_cases hne : m.token delim (s.getD m.saved) = []
  · rw [DecimalText.strtok, token_eq_nil.mp hne]
    exact congrArg Prod.fst (strtok_none hne)
  · obtain ⟨m', hcall, hcut⟩ := strtok_some hne
    have hlast := string_last m delim (s.getD m.saved)
    rw [DecimalText.strtok]
    cases hs : (m.string (s.getD m.saved)).dropWhile (· ∈ delim) with
    | nil => exact absurd (token_eq_nil.mpr hs) hne
    | cons b t =>
      rw [hs] at hlast
      refine ⟨_, m', hcall, ?_, ?_, ?_⟩
      · rw [hcut.token, Memory.token, hs]
      · rw [hcut.remaining, hlast]
      · have hsaved := hcut.saved
        rwa [Memory.last, Memory.token, hs] at hsaved

structure Cuts (m m' : Memory) (delim : Text) (start : ℕ) (ps : List ℕ) : Prop where
  strings : ps.map m'.string = words delim (m.string start)
  apart : ps.Pairwise fun p q => p+(m'.string p).length < q
  behind : ∀ p ∈ ps, start ≤ p
  frame : ∀ q, q+(m.string q).length ≤ start → m'.string q = m.string q

theorem Cuts.cons {m m₁ m' : Memory} {start : ℕ} {ps : List ℕ} (hne : m.token delim start ≠ [])
    (hcut : CutAt m m₁ (m.last delim start)) (h : Cuts m₁ m' delim m₁.saved ps) :
    Cuts m m' delim start (m.first delim start::ps) := by
  have hstart := le_last m delim start
  have hframe : ∀ q, q+(m₁.string q).length ≤ m.last delim start → m'.string q = m₁.string q :=
    fun q hq => h.frame q (hq.trans hcut.saved)
  have htoken : m'.string (m.first delim start) = m.token delim start := by
    rw [hframe _ (by rw [hcut.token, Memory.last]), hcut.token]
  refine ⟨?_, List.pairwise_cons.mpr ⟨fun q hq => ?_, h.apart⟩, ?_, fun q hq => ?_⟩
  · rw [List.map_cons, htoken, h.strings, hcut.remaining, words_string m, if_neg hne]
  · -- Where the string ended no further token was found.
    rw [htoken]
    rcases hcut.saved.eq_or_lt with heq | hlt
    · have hnil := h.strings
      rw [hcut.ended heq] at hnil
      rw [List.map_eq_nil_iff.mp hnil] at hq
      cases hq
    · exact hlt.trans_le (h.behind q hq)
  · rw [List.forall_mem_cons]
    exact ⟨first_le .., fun q hq => (hstart.trans hcut.saved).trans (h.behind q hq)⟩
  · have hcutq := hcut.before (hq.trans hstart)
    rw [hframe q (by rw [hcutq]; exact hq.trans hstart), hcutq]

theorem Cuts.nil {start : ℕ} (h : m.token delim start = []) :
    Cuts m ⟨m.bytes, m.first delim start⟩ delim start [] := by
  refine ⟨?_, List.Pairwise.nil, by simp, fun _ _ => rfl⟩
  rw [words_string, if_pos h]
  rfl

/-- To show something of the calls until the null pointer, show it of none and of a
call before others. -/
theorem rest_induction {P : Memory → List ℕ → Memory → Prop}
    (nil : ∀ m, m.token delim m.saved = [] → P m [] ⟨m.bytes, m.first delim m.saved⟩)
    (cons : ∀ m m₁ m' ps, m.token delim m.saved ≠ [] →
      strtok delim none m = (some (m.first delim m.saved), m₁) →
      CutAt m m₁ (m.last delim m.saved) → P m₁ ps m' → P m (m.first delim m.saved::ps) m')
    {fuel : ℕ} {m m' : Memory} {ps : List ℕ}
    (h : rest delim fuel (strtok delim none m).1 (strtok delim none m).2 = some (ps, m')) :
    P m ps m' := by
  induction fuel generalizing m ps with
  | zero =>
    by_cases hne : m.token delim m.saved = []
    · rw [strtok_none (s := none) hne] at h
      cases h
      exact nil m hne
    · obtain ⟨m₁, hcall, -⟩ := strtok_some (s := none) hne
      rw [hcall] at h
      cases h
  | succ fuel ih =>
    by_cases hne : m.token delim m.saved = []
    · rw [strtok_none (s := none) hne] at h
      cases h
      exact nil m hne
    · obtain ⟨m₁, hcall, hcut⟩ := strtok_some (s := none) hne
      rw [hcall, rest, Option.map_eq_some_iff] at h
      obtain ⟨⟨found, last⟩, hrest, heq⟩ := h
      cases heq
      exact cons m m₁ last found hne hcall hcut (ih hrest)

theorem rest_enough (delim : Text) (fuel : ℕ) (m : Memory) (h : (m.string m.saved).length ≤ fuel) :
    ∃ ps m', rest delim fuel (strtok delim none m).1 (strtok delim none m).2 = some (ps, m') := by
  induction fuel generalizing m with
  | zero =>
    have hnil : m.string m.saved = [] := List.length_eq_zero_iff.mp (Nat.le_zero.mp h)
    have htoken : m.token delim m.saved = [] := by simp [Memory.token, hnil]
    rw [strtok_none (s := none) htoken]
    exact ⟨[], _, rfl⟩
  | succ fuel ih =>
    by_cases hne : m.token delim m.saved = []
    · rw [strtok_none (s := none) hne]
      exact ⟨[], _, rfl⟩
    · obtain ⟨m₁, hcall, hcut⟩ := strtok_some (s := none) hne
      have hsub := ((List.dropWhile_sublist (l := (m.string m.saved).dropWhile (· ∈ delim))
        (p := (· ∉ delim))).trans (List.dropWhile_sublist _)).length_le
      obtain ⟨ps, m', hrest⟩ := ih m₁ (by
        rw [hcut.remaining, List.length_tail, Option.getD_none, string_last]
        omega)
      refine ⟨m.first delim m.saved::ps, m', ?_⟩
      rw [hcall, rest, hrest]
      rfl

theorem rest_cuts {fuel : ℕ} {m m' : Memory} {ps : List ℕ}
    (h : rest delim fuel (strtok delim none m).1 (strtok delim none m).2 = some (ps, m')) :
    Cuts m m' delim m.saved ps := by
  refine rest_induction (P := fun m ps m' => Cuts m m' delim m.saved ps) ?_ ?_ h
  · exact fun m htoken => Cuts.nil htoken
  · exact fun m m₁ m' ps hne _ hcut ih => ih.cons hne hcut

theorem pointers_cuts (delim : Text) (fuel start : ℕ) (m : Memory)
    (h : (m.string start).length ≤ fuel) :
    ∃ ps m', pointers delim fuel start m = some (ps, m') ∧ Cuts m m' delim start ps := by
  obtain ⟨ps, m', hrest⟩ := rest_enough delim fuel ⟨m.bytes, start⟩ h
  have hcuts := rest_cuts hrest
  exact ⟨ps, m', hrest, hcuts.strings, hcuts.apart, hcuts.behind, hcuts.frame⟩

/-- A call leaves the strings in front of its own as they are. -/
theorem strtok_frame (delim : Text) (s : Option ℕ) (m : Memory) {q : ℕ}
    (hq : q+(m.string q).length ≤ s.getD m.saved) :
    (strtok delim s m).2.string q = m.string q := by
  by_cases hne : m.token delim (s.getD m.saved) = []
  · rw [strtok_none hne]
    rfl
  · obtain ⟨m', hcall, hcut⟩ := strtok_some hne
    rw [hcall]
    exact hcut.before (hq.trans ((first_le ..).trans (first_lt_last hne).le))

theorem strtok_cut (delim : Text) (p : ℕ) (m : Memory) :
    (strtok delim (some p) m).2.string p = cut delim (m.string p) ∧
      ∀ q, p+(m.string p).length < q → (strtok delim (some p) m).2.string q = m.string q := by
  by_cases hne : m.token delim p = []
  · rw [strtok_none (s := some p) hne, cut_of_nil (token_eq_nil.mp hne)]
    exact ⟨rfl, fun _ _ => rfl⟩
  · obtain ⟨m', hcall, hcut⟩ := strtok_some (s := some p) hne
    rw [hcall]
    exact ⟨hcut.start, fun q hq => hcut.behind ((last_le m delim p).trans_lt hq)⟩

theorem each_frame (delim : Text) (ss : List (Option ℕ)) (m : Memory) {q : ℕ}
    (hss : ∀ p, some p ∈ ss → q+(m.string q).length ≤ p) (hq : q+(m.string q).length ≤ m.saved) :
    (each delim ss m).string q = m.string q := by
  induction ss generalizing m with
  | nil => rfl
  | cons s ss ih =>
    have hstart : q+(m.string q).length ≤ s.getD m.saved := by
      cases s with
      | none => exact hq
      | some p => exact hss p (List.mem_cons_self ..)
    have hframe := strtok_frame delim s m hstart
    have hsaved := (le_last m delim (s.getD m.saved)).trans (strtok_saved delim s m)
    rw [each, ih, hframe]
    · intro p hp
      rw [hframe]
      exact hss p (List.mem_cons_of_mem _ hp)
    · rw [hframe]
      exact hstart.trans hsaved

/-- Every string is cut once; null pointers at the end change none of them. -/
theorem each_strings (delim : Text) (ps : List ℕ) (n : ℕ) (m : Memory)
    (h : ps.Pairwise fun p q => p+(m.string p).length < q) :
    ps.map (each delim (ps.map some++List.replicate n none) m).string =
      ps.map fun p => cut delim (m.string p) := by
  induction ps generalizing m with
  | nil => rfl
  | cons p ps ih =>
    obtain ⟨hp, hps⟩ := List.pairwise_cons.mp h
    obtain ⟨hcut, hbehind⟩ := strtok_cut delim p m
    have hlength := (cut_isPrefix delim (m.string p)).length_le
    have hsaved := strtok_saved delim (some p) m
    rw [Option.getD_some, last_eq] at hsaved
    have hkept : ∀ q ∈ ps, (strtok delim (some p) m).2.string q = m.string q :=
      fun q hq => hbehind q (hp q hq)
    have hapart : ps.Pairwise fun q r => q+((strtok delim (some p) m).2.string q).length < r :=
      hps.imp_of_mem fun hq _ hlt => by rwa [hkept _ hq]
    rw [List.map_cons, List.map_cons, List.map_cons, List.cons_append, each, ih _ hapart,
      each_frame, hcut]
    · exact congrArg _ (List.map_congr_left fun q hq => by rw [hkept q hq])
    · intro q hq
      have hmem : q ∈ ps := by simpa using hq
      have hlt := hp q hmem
      rw [hcut]
      omega
    · rw [hcut]
      exact hsaved

theorem string_end {p k : ℕ} (h : k ≤ (m.string p).length) :
    p+k+(m.string (p+k)).length = p+(m.string p).length := by
  rw [string_add h, List.length_drop]
  omega

theorem strtok_size (delim : Text) (s : Option ℕ) (m : Memory) :
    (strtok delim s m).2.bytes.length = m.bytes.length := by
  simp only [strtok]
  split
  · rfl
  · split
    · rfl
    · exact List.length_set

theorem strtok_string_le (delim : Text) (s : Option ℕ) (m : Memory) (q : ℕ) :
    ((strtok delim s m).2.string q).length ≤ (m.string q).length := by
  by_cases hne : m.token delim (s.getD m.saved) = []
  · rw [strtok_none hne]
    exact le_refl _
  · obtain ⟨m', hcall, hcut⟩ := strtok_some hne
    rw [hcall, hcut.strings]
    split
    · exact le_refl _
    · exact List.length_take_le' _ _

theorem strtok_end (delim : Text) (s : Option ℕ) (m : Memory) :
    (strtok delim s m).2.saved+((strtok delim s m).2.string (strtok delim s m).2.saved).length ≤
      s.getD m.saved+(m.string (s.getD m.saved)).length := by
  have hlast : m.last delim (s.getD m.saved)+(m.string (m.last delim (s.getD m.saved))).length =
      s.getD m.saved+(m.string (s.getD m.saved)).length := by
    rw [last_eq]
    exact string_end (cut_isPrefix ..).length_le
  by_cases hne : m.token delim (s.getD m.saved) = []
  · rw [strtok_none hne]
    exact (string_end (List.takeWhile_sublist _).length_le).le
  · by_cases hend : m.string (m.last delim (s.getD m.saved)) = []
    · rw [strtok, if_neg hne, if_pos hend]
      exact hlast.le
    · have hnext := string_end (List.length_pos_iff.mpr hend)
      rw [strtok, if_neg hne, if_neg hend, string_set, if_pos (Nat.lt_succ_self _)]
      exact (hnext.trans hlast).le

structure Inside (m m' : Memory) (start : ℕ) (ps : List ℕ) : Prop where
  size : m'.bytes.length = m.bytes.length
  shorter : ∀ q, (m'.string q).length ≤ (m.string q).length
  behind : ∀ q, start+(m.string start).length < q → m'.string q = m.string q
  within : ∀ p ∈ ps, p+(m'.string p).length ≤ start+(m.string start).length

theorem Inside.nil (m : Memory) (saved start : ℕ) : Inside m ⟨m.bytes, saved⟩ start [] :=
  ⟨rfl, fun _ => le_refl _, fun _ _ => rfl, by simp⟩

theorem Inside.cons {m m₁ m' : Memory} {ps : List ℕ}
    (hcall : strtok delim none m = (some (m.first delim m.saved), m₁))
    (hcut : CutAt m m₁ (m.last delim m.saved)) (h : Inside m₁ m' m₁.saved ps) :
    Inside m m' m.saved (m.first delim m.saved::ps) := by
  have hsize := strtok_size delim none m
  have hle := strtok_string_le delim none m
  have hend := strtok_end delim none m
  have hbehind : ∀ q, m.saved+(m.string m.saved).length < q →
      (strtok delim none m).2.string q = m.string q := (strtok_cut delim m.saved m).2
  rw [hcall] at hsize hle hend hbehind
  refine ⟨h.size.trans hsize, fun q => (h.shorter q).trans (hle q), fun q hq => ?_, ?_⟩
  · rw [h.behind q (hend.trans_lt hq), hbehind q hq]
  · rw [List.forall_mem_cons]
    refine ⟨?_, fun p hp => (h.within p hp).trans hend⟩
    have hshort := h.shorter (m.first delim m.saved)
    rw [hcut.token] at hshort
    exact (Nat.add_le_add_left hshort _).trans (last_le m delim m.saved)

theorem rest_inside {fuel : ℕ} {m m' : Memory} {ps : List ℕ}
    (h : rest delim fuel (strtok delim none m).1 (strtok delim none m).2 = some (ps, m')) :
    Inside m m' m.saved ps := by
  refine rest_induction (P := fun m ps m' => Inside m m' m.saved ps) ?_ ?_ h
  · exact fun m _ => Inside.nil ..
  · exact fun m m₁ m' ps _ hcall hcut ih => ih.cons hcall hcut

theorem pointers_inside {fuel start : ℕ} {m' : Memory} {ps : List ℕ}
    (h : pointers delim fuel start m = some (ps, m')) : Inside m m' start ps := by
  have hinside : Inside ⟨m.bytes, start⟩ m' start ps := rest_inside h
  exact ⟨hinside.size, hinside.shorter, hinside.behind, hinside.within⟩

end Semestr4.StrtokMemory
