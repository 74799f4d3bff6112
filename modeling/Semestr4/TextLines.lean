import Semestr4.LineBuffer

/-!
# The lines of a text

Every line keeps its newline; the last one may have none. `getline` takes the
first line off, whatever its length.
-/

set_option autoImplicit false

namespace Semestr4.TextLines
open Semestr4.ByteText Semestr4.LineBuffer

def lines : Text → List Text
  | [] => []
  | b::s =>
    if b = newline then [b]::lines s
    else match lines s with
      | [] => [[b]]
      | line::rest => (b::line)::rest

def getline (stream : Text) : Option (Text × Text) := fgets (stream.length+1) stream

theorem lines_newline (s : Text) : lines (newline::s) = [newline]::lines s := if_pos rfl

theorem lines_split {s : Text} (hne : s ≠ []) : ∃ line rest, s = line++rest ∧
    lines s = line::lines rest ∧ line ≠ [] ∧ (Ended line ∨ newline ∉ line ∧ rest = []) := by
  induction s with
  | nil => exact absurd rfl hne
  | cons b s ih =>
    by_cases hb : b = newline
    · subst hb
      exact ⟨[newline], s, rfl, lines_newline s, by simp, Or.inl rfl⟩
    · by_cases hs : s = []
      · subst hs
        refine ⟨[b], [], rfl, ?_, by simp, Or.inr ⟨?_, rfl⟩⟩
        · simp [lines, hb]
        · rw [List.mem_singleton]
          exact Ne.symm hb
      · obtain ⟨line, rest, rfl, hlines, hline, hend⟩ := ih hs
        refine ⟨b::line, rest, rfl, by rw [lines, if_neg hb, hlines], by simp, ?_⟩
        refine hend.imp (fun h => ?_) (And.imp_left fun h => ?_)
        · rw [Ended, if_neg hb]
          exact ⟨hline, h⟩
        · rw [List.mem_cons, not_or]
          exact ⟨Ne.symm hb, h⟩

/-- To show something of a text, show it of a line and what follows it. -/
@[elab_as_elim]
theorem lines_induction {P : Text → Prop} (nil : P [])
    (line : ∀ line rest, lines (line++rest) = line::lines rest → line ≠ [] →
      (Ended line ∨ newline ∉ line ∧ rest = []) → P rest → P (line++rest)) (s : Text) : P s := by
  induction hn : s.length using Nat.strong_induction_on generalizing s with
  | _ n ih =>
    by_cases hne : s = []
    · rwa [hne]
    · obtain ⟨first, rest, rfl, hlines, hfirst, hend⟩ := lines_split hne
      have hpos := List.length_pos_iff.mpr hfirst
      rw [List.length_append] at hn
      exact line first rest hlines hfirst hend (ih rest.length (by omega) rest rfl)

theorem readLine_plain {t : Text} (h : newline ∉ t) (n : ℕ) :
    readLine n t = (t.take n, t.drop n) := by
  induction t generalizing n with
  | nil => cases n <;> rfl
  | cons b t ih =>
    rw [List.mem_cons, not_or] at h
    cases n with
    | zero => rfl
    | succ n => rw [readLine, if_neg (Ne.symm h.1), ih h.2]; rfl

theorem getline_none {stream : Text} : getline stream = none ↔ stream = [] := fgets_none

theorem lines_getline {stream line rest : Text} (h : getline stream = some (line, rest)) :
    lines stream = line::lines rest := by
  obtain ⟨hne, hread⟩ := Option.ite_none_left_eq_some.mp h
  obtain ⟨first, later, rfl, hlines, hfirst, hend⟩ := lines_split hne
  have hlong : first.length ≤ (first++later).length+1-1 := by
    rw [List.length_append]
    omega
  have hpiece : readLine ((first++later).length+1-1) (first++later) = (first, later) := by
    rcases hend with hended | ⟨hplain, rfl⟩
    · rw [readLine_ended hended hfirst, List.take_of_length_le hlong, List.drop_eq_nil_of_le hlong]
      rfl
    · rw [List.append_nil] at hlong ⊢
      rw [readLine_plain hplain, List.take_of_length_le hlong, List.drop_eq_nil_of_le hlong]
  rw [hpiece, Option.some_inj, Prod.mk.injEq] at hread
  rw [hlines, hread.1, hread.2]

def IsLine (t : Text) : Prop := t ≠ [] ∧ (Ended t ∨ newline ∉ t)

theorem lines_line (s : Text) : ∀ line ∈ lines s, IsLine line := by
  induction s using lines_induction with
  | nil => simp [lines]
  | line line rest hlines hne hend ih =>
    rw [hlines, List.forall_mem_cons]
    exact ⟨⟨hne, hend.imp_right And.left⟩, ih⟩

variable {size : ℕ}

theorem records_lines (hs : 2 ≤ size) (s : Text) :
    records size s = (lines s).flatMap (records size) := by
  induction s using lines_induction with
  | nil => rfl
  | line line rest hlines _ hend ih =>
    rw [hlines, List.flatMap_cons, ← ih]
    rcases hend with hended | ⟨-, rfl⟩
    · exact records_append hs hended rest
    · rw [records_nil, List.append_nil, List.append_nil]

theorem records_line (hs : 2 ≤ size) {t : Text} (h : IsLine t) :
    records size t = t.take (size-1)::records size (t.drop (size-1)) := by
  rcases h.2 with hended | hplain
  · exact records_ended hs hended h.1
  · exact records_some hs (by rw [fgets, if_neg h.1, readLine_plain hplain])

theorem line_drop {t : Text} (h : IsLine t) {n : ℕ} (hn : n < t.length) : IsLine (t.drop n) := by
  refine ⟨?_, h.2.imp (fun hended => ended_drop hended n) fun hplain hmem =>
    hplain (List.mem_of_mem_drop hmem)⟩
  rw [ne_eq, List.drop_eq_nil_iff]
  omega

theorem records_short (hs : 2 ≤ size) {t : Text} (h : IsLine t) (hlength : t.length ≤ size-1) :
    records size t = [t] := by
  rw [records_line hs h, List.take_of_length_le hlength, List.drop_eq_nil_of_le hlength,
    records_nil]

theorem records_long (hs : 2 ≤ size) {t : Text} (h : IsLine t) (hlength : size-1 < t.length) :
    2 ≤ (records size t).length := by
  rw [records_line hs h, records_line hs (line_drop h hlength)]
  simp

theorem readLine_length (n : ℕ) (s : Text) : (readLine n s).1.length ≤ n := by
  induction s generalizing n with
  | nil => cases n <;> simp [readLine]
  | cons b s ih =>
    cases n with
    | zero => simp [readLine]
    | succ n =>
      rw [readLine]
      split
      · simp
      · simpa using ih n

theorem record_part (hs : 2 ≤ size) {s record : Text} (h : record ∈ records size s) :
    record ≠ [] ∧ record.length ≤ size-1 ∧ ∀ b ∈ record, b ∈ s := by
  induction hn : s.length using Nat.strong_induction_on generalizing s with
  | _ n ih =>
    cases hf : fgets size s with
    | none =>
      rw [records_none hf] at h
      cases h
    | some found =>
      obtain ⟨first, rest⟩ := found
      have happend := fgets_append hf
      have hshorter := fgets_shorter hs hf
      rw [records_some hs hf, List.mem_cons] at h
      rcases h with rfl | h
      · obtain ⟨-, hread⟩ := Option.ite_none_left_eq_some.mp hf
        have hle := readLine_length (size-1) s
        rw [Option.some_inj.mp hread] at hle
        refine ⟨?_, hle, fun b hb => happend ▸ List.mem_append_left rest hb⟩
        rintro rfl
        rw [← happend] at hshorter
        exact absurd hshorter (Nat.lt_irrefl _)
      · obtain ⟨hne, hle, hmem⟩ := ih _ (by omega) h rfl
        exact ⟨hne, hle, fun b hb => happend ▸ List.mem_append_right first (hmem b hb)⟩

end Semestr4.TextLines
