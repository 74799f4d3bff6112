import Semestr4.DecimalText

/-!
# Lines longer than the buffer

A line that does not fit the buffer is read in several pieces, each of the
length of the buffer but the last. Cutting it there keeps its tokens unless a
piece ends inside one; then the pieces have more tokens than the line.
-/

set_option autoImplicit false

namespace Semestr4.LineBuffer
open Semestr4.ByteText Semestr4.DecimalText

/-- Empty, or a line that ends with its only newline. -/
def Ended : Text → Prop
  | [] => True
  | b::t => if b = newline then t = [] else t ≠ [] ∧ Ended t

theorem ended_line {body : Text} (h : newline ∉ body) : Ended (body++[newline]) := by
  induction body with
  | nil => rfl
  | cons b body ih =>
    rw [List.mem_cons, not_or] at h
    rw [List.cons_append, Ended, if_neg (Ne.symm h.1)]
    exact ⟨by simp, ih h.2⟩

theorem ended_drop {t : Text} (h : Ended t) (n : ℕ) : Ended (t.drop n) := by
  induction t generalizing n with
  | nil => simpa using h
  | cons b t ih =>
    cases n with
    | zero => exact h
    | succ n =>
      rw [List.drop_succ_cons]
      by_cases hb : b = newline
      · rw [Ended, if_pos hb] at h
        rw [h, List.drop_nil]
        trivial
      · rw [Ended, if_neg hb] at h
        exact ih h.2 n

theorem readLine_ended {t : Text} (h : Ended t) (hne : t ≠ []) (n : ℕ) (rest : Text) :
    readLine n (t++rest) = (t.take n, t.drop n++rest) := by
  induction t generalizing n with
  | nil => exact absurd rfl hne
  | cons b t ih =>
    cases n with
    | zero => rfl
    | succ n =>
      rw [List.cons_append, readLine]
      by_cases hb : b = newline
      · rw [Ended, if_pos hb] at h
        simp [h, hb]
      · rw [Ended, if_neg hb] at h
        rw [if_neg hb, ih h.2 h.1]
        simp

variable {size : ℕ} {delim : Text}

theorem fgets_ended {t : Text} (h : Ended t) (hne : t ≠ []) (rest : Text) :
    fgets size (t++rest) = some (t.take (size-1), t.drop (size-1)++rest) := by
  rw [fgets, if_neg (by simp [hne]), readLine_ended h hne]

theorem records_piece (hs : 2 ≤ size) {t : Text} (h : Ended t) (hne : t ≠ []) (rest : Text) :
    records size (t++rest) = t.take (size-1)::records size (t.drop (size-1)++rest) :=
  records_some hs (fgets_ended h hne rest)

/-- To show something of every line, show it of a line from what is left of it
after one piece. -/
@[elab_as_elim]
theorem pieces_induction (hs : 2 ≤ size) {P : Text → Prop} (nil : P [])
    (piece : ∀ t, Ended t → t ≠ [] → P (t.drop (size-1)) → P t) {t : Text} (h : Ended t) :
    P t := by
  induction hn : t.length using Nat.strong_induction_on generalizing t with
  | _ n ih =>
    by_cases hne : t = []
    · rwa [hne]
    · have hpos := List.length_pos_of_ne_nil hne
      have hshort : (t.drop (size-1)).length < n := by
        rw [List.length_drop]
        omega
      exact piece t h hne (ih _ hshort (ended_drop h _) rfl)

theorem records_append (hs : 2 ≤ size) {t : Text} (h : Ended t) (rest : Text) :
    records size (t++rest) = records size t++records size rest := by
  refine pieces_induction hs ?_ (fun t h hne ih => ?_) h
  · rfl
  · have halone := records_piece hs h hne []
    rw [List.append_nil, List.append_nil] at halone
    rw [records_piece hs h hne, ih, halone, List.cons_append]

theorem records_nil : records size [] = [] := records_none rfl

theorem records_ended (hs : 2 ≤ size) {t : Text} (h : Ended t) (hne : t ≠ []) :
    records size t = t.take (size-1)::records size (t.drop (size-1)) := by
  have := records_piece hs h hne []
  rwa [List.append_nil, List.append_nil] at this

theorem mem_records (hs : 2 ≤ size) {t : Text} (h : Ended t) {piece : Text} :
    piece ∈ records size t ↔
      ∃ k, k*(size-1) < t.length ∧ piece = (t.drop (k*(size-1))).take (size-1) := by
  refine pieces_induction hs ?_ (fun t h hne ih => ?_) h
  · simp [records_nil]
  · have hpos := List.length_pos_of_ne_nil hne
    rw [records_ended hs h hne, List.mem_cons, ih]
    constructor
    · rintro (rfl | ⟨k, hk, rfl⟩)
      · exact ⟨0, by simpa using hpos, by simp⟩
      · rw [List.length_drop] at hk
        refine ⟨k+1, ?_, ?_⟩
        · rw [Nat.succ_mul]
          omega
        · rw [List.drop_drop, Nat.succ_mul, Nat.add_comm]
    · rintro ⟨k, hk, rfl⟩
      cases k with
      | zero => exact Or.inl (by simp)
      | succ k =>
        rw [Nat.succ_mul] at hk
        refine Or.inr ⟨k, ?_, ?_⟩
        · rw [List.length_drop]
          omega
        · rw [List.drop_drop, Nat.succ_mul, Nat.add_comm]

/-- A token goes on at this position of the line. -/
def Cut (delim t : Text) (p : ℕ) : Prop := Joint delim (t.take p) (t.drop p)

theorem cut_drop {t : Text} {n p : ℕ} (hp : 0 < p) :
    Cut delim (t.drop n) p ↔ Cut delim t (n+p) := by
  unfold Cut Joint
  rw [List.drop_drop]
  by_cases hlong : t.length ≤ n
  · rw [List.drop_eq_nil_of_le (show t.length ≤ n+p by omega)]
    exact ⟨fun h => h.2.elim, fun h => h.2.elim⟩
  · have hne : ¬ (t.drop n).take p = [] := by
      rw [List.take_eq_nil_iff, List.drop_eq_nil_iff]
      omega
    rw [List.take_add, List.getLast?_append_of_ne_nil _ hne]

def pieceTokens (size : ℕ) (delim t : Text) : List Text := (records size t).flatMap (words delim)

theorem pieceTokens_ended (hs : 2 ≤ size) {t : Text} (h : Ended t) (hne : t ≠ []) :
    pieceTokens size delim t =
      words delim (t.take (size-1))++pieceTokens size delim (t.drop (size-1)) := by
  rw [pieceTokens, records_ended hs h hne, List.flatMap_cons]
  rfl

theorem pieceTokens_append (hs : 2 ≤ size) {t : Text} (h : Ended t) (rest : Text) :
    pieceTokens size delim (t++rest) =
      pieceTokens size delim t++pieceTokens size delim rest := by
  rw [pieceTokens, records_append hs h, List.flatMap_append]
  rfl

def Whole (size : ℕ) (delim t : Text) : Prop := ∀ k, ¬ Cut delim t ((k+1)*(size-1))

theorem cut_later (hs : 2 ≤ size) {t : Text} (k : ℕ) :
    Cut delim (t.drop (size-1)) ((k+1)*(size-1)) ↔ Cut delim t ((k+1+1)*(size-1)) := by
  have hpos : 0 < (k+1)*(size-1) := Nat.mul_pos (Nat.succ_pos k) (by omega)
  rw [cut_drop hpos, Nat.succ_mul (k+1), Nat.add_comm]

theorem pieceTokens_whole (hs : 2 ≤ size) {t : Text} (h : Ended t) (hw : Whole size delim t) :
    pieceTokens size delim t = words delim t := by
  revert hw
  refine pieces_induction hs (fun _ => ?_) (fun t h hne ih hw => ?_) h
  · rw [pieceTokens, records_nil]
    rfl
  · have hfirst : ¬ Joint delim (t.take (size-1)) (t.drop (size-1)) := by
      simpa [Cut] using hw 0
    rw [pieceTokens_ended hs h hne, ih fun k => (cut_later hs k).not.mpr (hw (k+1)),
      ← words_append hfirst, List.take_append_drop]

variable (delim) in
theorem words_split_le (t : Text) (n : ℕ) :
    (words delim t).length ≤ (words delim (t.take n)).length+(words delim (t.drop n)).length := by
  by_cases h : Joint delim (t.take n) (t.drop n)
  · have hjoint := words_joint h
    rw [List.take_append_drop] at hjoint
    omega
  · have happend := words_append h
    rw [List.take_append_drop] at happend
    rw [happend, List.length_append]

variable (delim) in
theorem pieceTokens_le (hs : 2 ≤ size) {t : Text} (h : Ended t) :
    (words delim t).length ≤ (pieceTokens size delim t).length := by
  refine pieces_induction hs (Nat.zero_le _) (fun t h hne ih => ?_) h
  have hsplit := words_split_le delim t (size-1)
  rw [pieceTokens_ended hs h hne, List.length_append]
  omega

theorem pieceTokens_lt (hs : 2 ≤ size) {t : Text} (h : Ended t) (hw : ¬ Whole size delim t) :
    (words delim t).length < (pieceTokens size delim t).length := by
  revert hw
  refine pieces_induction hs (fun hw => ?_) (fun t h hne ih hw => ?_) h
  · exact absurd (fun k hk => by simp [Cut, Joint] at hk) hw
  · rw [pieceTokens_ended hs h hne, List.length_append]
    by_cases hfirst : Joint delim (t.take (size-1)) (t.drop (size-1))
    · have hjoint := words_joint hfirst
      rw [List.take_append_drop] at hjoint
      have hrest := pieceTokens_le delim hs (ended_drop h (size-1))
      omega
    · have hlater : ¬ Whole size delim (t.drop (size-1)) := by
        intro hlater
        apply hw
        rintro (_ | k)
        · simpa [Cut] using hfirst
        · exact (cut_later hs k).not.mp (hlater k)
      have hsplit := words_split_le delim t (size-1)
      have hrest := ih hlater
      omega

theorem records_lines_append (hs : 2 ≤ size) {lines : List Text} (h : ∀ t ∈ lines, Ended t)
    (rest : Text) : records size (lines.flatten++rest) =
      lines.flatMap (records size)++records size rest := by
  induction lines with
  | nil => rfl
  | cons t lines ih =>
    rw [List.forall_mem_cons] at h
    rw [List.flatten_cons, List.append_assoc, records_append hs h.1, ih h.2, List.flatMap_cons,
      List.append_assoc]

theorem records_lines (hs : 2 ≤ size) {lines : List Text} (h : ∀ t ∈ lines, Ended t) :
    records size lines.flatten = lines.flatMap (records size) := by
  have happend := records_lines_append hs h []
  rwa [List.append_nil, records_nil, List.append_nil] at happend

variable (delim) in
theorem pieceTokens_lines (hs : 2 ≤ size) {lines : List Text} (h : ∀ t ∈ lines, Ended t) :
    pieceTokens size delim lines.flatten = lines.flatMap (pieceTokens size delim) := by
  rw [pieceTokens, records_lines hs h, List.flatMap_assoc]
  rfl

end Semestr4.LineBuffer
