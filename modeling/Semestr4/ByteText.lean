import Mathlib.Data.List.Basic
import Mathlib.Data.List.TakeWhile

/-!
# Byte strings and line input of the C library

A buffer is a list of bytes and denotes the string before its first zero byte.
A stream is the list of bytes not read yet. Reading a line stops after a
newline, at the end of the stream, or when the buffer is full, and reports
failure only when nothing is left to read.
-/

set_option autoImplicit false

namespace Semestr4.ByteText

abbrev Text := List UInt8

def newline : UInt8 := 10

def cstring (buffer : Text) : Text := buffer.takeWhile (· ≠ 0)

def strlen (buffer : Text) : ℕ := (cstring buffer).length

def strcpy (source : Text) : Text := cstring source

def readLine : ℕ → Text → Text × Text
  | 0, rest => ([], rest)
  | _+1, [] => ([], [])
  | n+1, b::rest =>
    if b = newline then ([b], rest) else (b::(readLine n rest).1, (readLine n rest).2)

def fgets (size : ℕ) (stream : Text) : Option (Text × Text) :=
  if stream = [] then none else some (readLine (size-1) stream)

/-- At most `fuel` records; the length of the stream is always enough. -/
def recordsIn (size : ℕ) : ℕ → Text → List Text
  | 0, _ => []
  | fuel+1, stream => match fgets size stream with
    | none => []
    | some (record, rest) => record::recordsIn size fuel rest

/-- What successive calls of `fgets` return until the end of the stream. -/
def records (size : ℕ) (stream : Text) : List Text := recordsIn size stream.length stream

theorem cstring_append {s : Text} (h : 0 ∉ s) (rest : Text) :
    cstring (s++rest) = s++cstring rest := by
  have hall : ∀ b ∈ s, decide (b ≠ 0) = true := by
    intro b hb
    refine decide_eq_true ?_
    rintro rfl
    exact h hb
  rw [cstring, List.takeWhile_append_of_pos hall]
  rfl

theorem cstring_self {s : Text} (h : 0 ∉ s) : cstring s = s := by
  have happend := cstring_append h []
  rwa [List.append_nil, show cstring [] = [] from rfl, List.append_nil] at happend

theorem cstring_ended (s rest : Text) : cstring (s++0::rest) = cstring s := by
  induction s with
  | nil => rfl
  | cons b s ih =>
    rw [cstring, cstring] at ih
    rw [cstring, cstring, List.cons_append, List.takeWhile_cons, List.takeWhile_cons, ih]

theorem cstring_length_le (s : Text) : (cstring s).length ≤ s.length :=
  (List.takeWhile_sublist _).length_le

theorem zero_cstring (s : Text) : 0 ∉ cstring s := by
  intro h
  simpa using List.mem_takeWhile_imp h

theorem readLine_append (n : ℕ) (stream : Text) :
    (readLine n stream).1 ++ (readLine n stream).2 = stream := by
  induction stream generalizing n with
  | nil => cases n <;> rfl
  | cons b rest ih =>
    cases n with
    | zero => rfl
    | succ n =>
      rw [readLine]
      split
      · rfl
      · simpa using ih n

theorem readLine_line {body : Text} (h : newline ∉ body) {n : ℕ} (hn : body.length < n)
    (rest : Text) : readLine n (body++newline::rest) = (body++[newline], rest) := by
  induction body generalizing n with
  | nil =>
    cases n with
    | zero => cases hn
    | succ n => rfl
  | cons b body ih =>
    cases n with
    | zero => cases hn
    | succ n =>
      have hb : b ≠ newline := fun heq => h (heq ▸ List.mem_cons_self ..)
      have hbody : newline ∉ body := fun hmem => h (List.mem_cons_of_mem b hmem)
      rw [List.cons_append, readLine, if_neg hb, ih hbody (Nat.lt_of_succ_lt_succ hn)]
      rfl

theorem fgets_none {size : ℕ} {stream : Text} : fgets size stream = none ↔ stream = [] := by
  simp [fgets]

theorem fgets_append {size : ℕ} {stream record rest : Text}
    (h : fgets size stream = some (record, rest)) : record ++ rest = stream := by
  simp only [fgets, Option.ite_none_left_eq_some, Option.some.injEq] at h
  have ha := readLine_append (size-1) stream
  rwa [h.2] at ha

theorem fgets_shorter {size : ℕ} {stream record rest : Text} (hs : 2 ≤ size)
    (h : fgets size stream = some (record, rest)) : rest.length < stream.length := by
  have ha := congrArg List.length (fgets_append h)
  simp only [fgets, Option.ite_none_left_eq_some, Option.some.injEq] at h
  obtain ⟨n, hn⟩ : ∃ n, size-1 = n+1 := ⟨size-2, by omega⟩
  have hr : record ≠ [] := by
    obtain ⟨hne, hl⟩ := h
    rw [hn] at hl
    cases stream with
    | nil => exact absurd rfl hne
    | cons b bs =>
      rw [readLine] at hl
      split at hl <;> simp only [Prod.mk.injEq] at hl <;> simp [← hl.1]
  have hpos := List.length_pos_of_ne_nil hr
  simp only [List.length_append] at ha
  omega

theorem recordsIn_enough {size : ℕ} (hs : 2 ≤ size) (m n : ℕ) (stream : Text)
    (hm : stream.length ≤ m) (hn : stream.length ≤ n) :
    recordsIn size m stream = recordsIn size n stream := by
  induction m generalizing n stream with
  | zero =>
    have he : stream = [] := List.length_eq_zero_iff.mp (by omega)
    cases n <;> simp [recordsIn, he, fgets]
  | succ m ih =>
    cases n with
    | zero =>
      have he : stream = [] := List.length_eq_zero_iff.mp (by omega)
      simp [recordsIn, he, fgets]
    | succ n =>
      cases hf : fgets size stream with
      | none => simp [recordsIn, hf]
      | some p =>
        have hlt := fgets_shorter hs hf
        simp only [recordsIn, hf, List.cons.injEq, true_and]
        exact ih n p.2 (by omega) (by omega)

theorem records_none {size : ℕ} {stream : Text} (h : fgets size stream = none) :
    records size stream = [] := by
  rw [fgets_none.mp h]
  rfl

theorem records_some {size : ℕ} {stream record rest : Text} (hs : 2 ≤ size)
    (h : fgets size stream = some (record, rest)) :
    records size stream = record::records size rest := by
  have hlt := fgets_shorter hs h
  obtain ⟨k, hk⟩ : ∃ k, stream.length = k+1 := ⟨stream.length-1, by omega⟩
  rw [records, hk, recordsIn, h]
  simp only [List.cons.injEq, true_and]
  exact recordsIn_enough hs k rest.length rest (by omega) (Nat.le_refl _)

end Semestr4.ByteText
