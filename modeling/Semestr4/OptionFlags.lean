import Semestr4.ByteText
import Semestr4.FlagSum

/-!
# The options of the permission program

Each word on the command line stands for a flag. The flags are added up, so that
a word given twice is not the same as a word given once.
-/

set_option autoImplicit false

namespace Semestr4.OptionFlags
open Semestr4.ByteText Semestr4.FlagSum

inductive Stat where
  | pid
  | ask
  | perm
  | sig
  | kill
  deriving DecidableEq, Repr

def Stat.value : Stat → ℕ
  | .pid => 1
  | .ask => 2
  | .perm => 4
  | .sig => 8
  | .kill => 16

def Stat.word : Stat → Text
  | .pid => [112, 105, 100]
  | .ask => [97, 115, 107]
  | .perm => [112, 101, 114, 109]
  | .sig => [115, 105, 103]
  | .kill => [107, 105, 108, 108]

/-- The comparisons of a word, in order. -/
def stat (arg : Text) : Option Stat :=
  [Stat.pid, .ask, .perm, .sig, .kill].find? fun s => s.word = arg

/-- The loop from some argument on. A null pointer ends it, and a sum beyond
`int` is not defined. -/
def countFrom (result : ℕ) : List (Option Text) → Option ℕ
  | [] => some result
  | none::_ => some result
  | some arg::args => match stat arg with
    | none => countFrom result args
    | some s => if result+s.value < 2^31 then countFrom (result+s.value) args else none

def countEnumValue (args : List (Option Text)) (howMany : ℕ) : Option ℕ :=
  countFrom 0 (args.take howMany)

/-- The words after the two numbers: at most five, each of them known. They are
copied into an array of five pointers. -/
def parse (words : List Text) : Option ℕ :=
  if words.length ≤ 5 ∧ ∀ word ∈ words, (stat word).isSome then
    countEnumValue (words.map some++List.replicate (5-words.length) none) words.length
  else none

def Stat.Given (s : Stat) (options : ℕ) : Prop := options &&& s.value ≠ 0

def Stat.bit : Stat → ℕ
  | .pid => 0
  | .ask => 1
  | .perm => 2
  | .sig => 3
  | .kill => 4

theorem value_eq (s : Stat) : s.value = 2^s.bit := by
  cases s <;> rfl

theorem bit_injective : Function.Injective Stat.bit := by
  intro s t
  cases s <;> cases t <;> decide

theorem given_iff {s : Stat} {options : ℕ} : s.Given options ↔ options.testBit s.bit = true := by
  rw [Stat.Given, value_eq, and_flag]

theorem stat_word (s : Stat) : stat s.word = some s := by
  cases s <;> rfl

theorem stat_iff {arg : Text} {s : Stat} : stat arg = some s ↔ s.word = arg := by
  constructor
  · intro h
    have hfound := List.find?_some h
    exact of_decide_eq_true hfound
  · rintro rfl
    exact stat_word s

def stats (words : List Text) : List Stat := words.filterMap stat

theorem mem_stats {words : List Text} {s : Stat} : s ∈ stats words ↔ s.word ∈ words := by
  rw [stats, List.mem_filterMap]
  simp only [stat_iff, exists_eq_right']

theorem count_stats (words : List Text) (s : Stat) : (stats words).count s = words.count s.word := by
  rw [stats, List.count_filterMap, List.count]
  congr 1
  funext arg
  rw [Bool.eq_iff_iff, beq_iff_eq, beq_iff_eq, stat_iff, eq_comm]

def total (words : List Text) : ℕ := ((stats words).map Stat.value).sum

theorem total_bits (words : List Text) :
    total words = (((stats words).map Stat.bit).map (2^·)).sum := by
  rw [total, List.map_map]
  congr 2
  funext s
  exact value_eq s

theorem total_cons (word : Text) (words : List Text) :
    total (word::words) = ((stat word).map Stat.value).getD 0+total words := by
  cases h : stat word <;> simp [total, stats, h]

theorem countFrom_words (words : List Text) {result : ℕ} (hresult : result < 2^31) :
    countFrom result (words.map some) =
      if result+total words < 2^31 then some (result+total words) else none := by
  induction words generalizing result with
  | nil => exact (if_pos hresult).symm
  | cons word words ih =>
    rw [List.map_cons, countFrom, total_cons]
    cases stat word with
    | none => simpa using ih hresult
    | some s =>
      simp only [Option.map_some, Option.getD_some, ← Nat.add_assoc]
      split
      · rename_i hle
        exact ih hle
      · rw [if_neg (by omega)]

theorem countEnumValue_words (words : List Text) :
    countEnumValue (words.map some) words.length =
      if total words < 2^31 then some (total words) else none := by
  have hall : (words.map some).take words.length = words.map some :=
    List.take_of_length_le (List.length_map _).le
  rw [countEnumValue, hall, countFrom_words words (by decide), Nat.zero_add]

def Right (words : List Text) (options : ℕ) : Prop :=
  ∀ i, options.testBit i = true ↔ ∃ s : Stat, s.bit = i ∧ s.word ∈ words

theorem right_iff_nodup {words : List Text} : Right words (total words) ↔ (stats words).Nodup := by
  rw [← List.nodup_map_iff bit_injective, ← testBit_sum_iff, ← total_bits]
  refine forall_congr' fun i => ?_
  simp only [List.mem_map, mem_stats]
  exact iff_congr Iff.rfl (exists_congr fun s => and_comm)

theorem total_small {words : List Text} (h : (stats words).Nodup) : total words < 2^31 := by
  have hbits := (right_iff_nodup.mpr h)
  have hlt : total words < 2^5 := by
    apply Nat.lt_pow_two_of_testBit
    intro i hi
    rw [← Bool.not_eq_true, hbits i]
    rintro ⟨s, rfl, -⟩
    cases s <;> simp [Stat.bit] at hi
  omega

/-- The options are those of the words if and only if no word of an option is
given twice. -/
theorem options_right_iff (words : List Text) :
    (∃ options, countEnumValue (words.map some) words.length = some options ∧
        Right words options) ↔ ∀ s : Stat, words.count s.word ≤ 1 := by
  have hcount : (∀ s : Stat, words.count s.word ≤ 1) ↔ (stats words).Nodup := by
    rw [List.nodup_iff_count_le_one]
    simp only [count_stats]
  rw [hcount, ← right_iff_nodup, countEnumValue_words]
  constructor
  · rintro ⟨options, hsome, hright⟩
    obtain ⟨-, rfl⟩ : _ ∧ total words = options := by simpa using hsome
    exact hright
  · intro h
    exact ⟨_, if_pos (total_small (right_iff_nodup.mp h)), h⟩

/-- With no word given twice, each option is found set as it was given. -/
theorem parse_given {words : List Text} (hlength : words.length ≤ 5)
    (hknown : ∀ word ∈ words, (stat word).isSome) (honce : ∀ s : Stat, words.count s.word ≤ 1) :
    ∃ options, parse words = some options ∧ ∀ s : Stat, s.Given options ↔ s.word ∈ words := by
  have hnodup : (stats words).Nodup := by
    rw [List.nodup_iff_count_le_one]
    simpa only [count_stats] using honce
  have htake : (words.map some++List.replicate (5-words.length) none).take words.length =
      (words.map some).take words.length := List.take_append_of_le_length (List.length_map _).ge
  refine ⟨total words, ?_, fun s => ?_⟩
  · rw [parse, if_pos ⟨hlength, hknown⟩, countEnumValue, htake]
    exact (countEnumValue_words words).trans (if_pos (total_small hnodup))
  · rw [given_iff, right_iff_nodup.mpr hnodup]
    exact ⟨fun ⟨t, hbit, ht⟩ => bit_injective hbit ▸ ht, fun hs => ⟨s, rfl, hs⟩⟩

/-- `pid pid` is accepted on the command line and sets the flag of `ask`. -/
theorem pid_twice : parse [Stat.pid.word, Stat.pid.word] = some Stat.ask.value ∧
    ¬ ∀ words : List Text, ∃ options,
      countEnumValue (words.map some) words.length = some options ∧ Right words options := by
  refine ⟨rfl, fun h => ?_⟩
  obtain ⟨options, hsome, hright⟩ := h [Stat.pid.word, Stat.pid.word]
  obtain rfl : Stat.ask.value = options := Option.some_inj.mp hsome
  obtain ⟨s, hbit, hword⟩ := (hright Stat.ask.bit).mp rfl
  rw [bit_injective hbit] at hword
  exact absurd hword (by decide)

end Semestr4.OptionFlags
