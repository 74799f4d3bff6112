import Semestr4.PgmFile

/-!
# The line of a row in pieces of 127 bytes

A line is read back as it was written when no piece ends between two digits and
the last piece still has one. Otherwise a number becomes two, or a piece without
numbers makes the reader fail.
-/

set_option autoImplicit false

namespace Semestr4.PgmRows
open Semestr4.ByteText Semestr4.DecimalText Semestr4.LineBuffer Semestr4.PgmFile

def DigitAt (t : Text) (p : ℕ) : Prop := ∃ b ∈ t[p]?, isDigit b = true

/-- The pieces of 127 bytes of a line neither end inside a number nor leave only
the blank and the newline at its end. -/
def Unbroken (t : Text) : Prop :=
  ∀ k, (k+1)*127 < t.length →
    ¬ (DigitAt t ((k+1)*127-1) ∧ DigitAt t ((k+1)*127)) ∧ (k+1)*127+2 < t.length

def line (samples : List ℕ) : Text := (samples.flatMap fun n => digits n++[space])++[newline]

theorem line_cons (n : ℕ) (samples : List ℕ) :
    line (n::samples) = digits n++space::line samples := by
  simp [line]

theorem mem_line {samples : List ℕ} {b : UInt8} (h : b ∈ line samples) :
    isDigit b = true ∨ b ∈ blanks := by
  induction samples with
  | nil => exact Or.inr (List.mem_cons_of_mem _ h)
  | cons n samples ih =>
    rw [line_cons, List.mem_append, List.mem_cons] at h
    rcases h with h | rfl | h
    · exact Or.inl (digits_isDigit n b h)
    · exact Or.inr (List.mem_cons_self ..)
    · exact ih h

theorem digit_not_blank {b : UInt8} (h : isDigit b = true) : b ∉ blanks := by
  obtain ⟨-, -, -, hspace, hnewline, -⟩ := digit_no_sign h
  simp [blanks, space, newline, hspace, hnewline]

theorem line_blank {samples : List ℕ} {b : UInt8} (h : b ∈ line samples) :
    b ∉ blanks ↔ isDigit b = true :=
  ⟨fun hb => (mem_line h).resolve_right hb, digit_not_blank⟩

theorem line_no_zero (samples : List ℕ) : 0 ∉ line samples := by
  intro h
  rcases mem_line h with h | h
  · exact absurd h (by decide)
  · exact absurd h (by decide)

theorem ended (samples : List ℕ) : Ended (line samples) := by
  refine ended_line fun h => ?_
  obtain ⟨n, -, hn⟩ := List.mem_flatMap.mp h
  rw [List.mem_append] at hn
  rcases hn with hn | hn
  · exact absurd (digits_isDigit n _ hn) (by decide)
  · exact absurd hn (by decide)

theorem line_words (samples : List ℕ) : words blanks (line samples) = samples.map digits := by
  induction samples with
  | nil => rfl
  | cons n samples ih =>
    have htoken : ∀ b ∈ digits n, b ∉ blanks := fun b hb => digit_not_blank (digits_isDigit n b hb)
    rw [line_cons, words_token (digits_ne_nil n) htoken (List.mem_cons_self ..), ih, List.map_cons]

theorem line_head {samples : List ℕ} (h : samples ≠ []) : DigitAt (line samples) 0 := by
  cases samples with
  | nil => exact absurd rfl h
  | cons n samples =>
    rw [line_cons]
    cases hd : digits n with
    | nil => exact absurd hd (digits_ne_nil n)
    | cons b s => exact ⟨b, rfl, digits_isDigit n b (hd ▸ List.mem_cons_self ..)⟩

theorem line_pair {samples : List ℕ} {p : ℕ} (h : p+2 < (line samples).length) :
    DigitAt (line samples) p ∨ DigitAt (line samples) (p+1) := by
  induction samples generalizing p with
  | nil => exact absurd h (by simp [line])
  | cons n samples ih =>
    rw [line_cons, List.length_append, List.length_cons] at h
    rw [line_cons]
    rcases Nat.lt_trichotomy p (digits n).length with hp | hp | hp
    · refine Or.inl ⟨(digits n).get ⟨p, hp⟩, ?_, digits_isDigit n _ (List.get_mem _ _)⟩
      rw [List.getElem?_append_left hp]
      simp [List.getElem?_eq_getElem hp]
    · have hne : samples ≠ [] := by
        rintro rfl
        simp only [line, List.flatMap_nil, List.nil_append, List.length_singleton] at h
        omega
      obtain ⟨b, hb, hdigit⟩ := line_head hne
      refine Or.inr ⟨b, ?_, hdigit⟩
      rw [List.getElem?_append_right (by omega), hp, Nat.add_sub_cancel_left,
        List.getElem?_cons_succ]
      exact hb
    · obtain ⟨q, rfl⟩ : ∃ q, p = (digits n).length+(q+1) :=
        ⟨p-(digits n).length-1, by omega⟩
      have hlater := ih (p := q) (by omega)
      unfold DigitAt at hlater ⊢
      rwa [List.getElem?_append_right (by omega), List.getElem?_append_right (by omega),
        Nat.add_sub_cancel_left, Nat.add_assoc, Nat.add_sub_cancel_left, List.getElem?_cons_succ,
        List.getElem?_cons_succ]

theorem line_end {samples : List ℕ} (h : samples ≠ []) :
    ∃ body, line samples = body++[space, newline] := by
  obtain ⟨front, n, rfl⟩ := (List.eq_nil_or_concat' samples).resolve_left h
  exact ⟨(front.flatMap fun n => digits n++[space])++digits n, by simp [line]⟩

theorem line_cut {samples : List ℕ} {p : ℕ} (hp : 0 < p) (hlt : p < (line samples).length) :
    Cut blanks (line samples) p ↔ DigitAt (line samples) (p-1) ∧ DigitAt (line samples) p := by
  have hlast : ((line samples).take p).getLast? = (line samples)[p-1]? := by
    rw [List.getLast?_take, if_neg (by omega), List.getElem?_eq_getElem (by omega), Option.some_or]
  have hnext : Continues blanks ((line samples).drop p) ↔ DigitAt (line samples) p := by
    have hget : (line samples)[p]? = some ((line samples).get ⟨p, hlt⟩) :=
      List.getElem?_eq_getElem hlt
    have hdigit := line_blank ((line samples).get_mem ⟨p, hlt⟩)
    rw [List.drop_eq_getElem_cons hlt, DigitAt, hget]
    simpa [Continues] using hdigit
  unfold Cut Joint
  rw [hlast, hnext]
  refine and_congr_left' (exists_congr fun b => and_congr_right fun hb => ?_)
  exact line_blank (List.mem_of_getElem? hb)

theorem unbroken_whole {samples : List ℕ} (h : Unbroken (line samples)) :
    Whole 128 blanks (line samples) := by
  intro k hcut
  have hlt : (k+1)*127 < (line samples).length := by
    by_contra hle
    have hnone := hcut.2
    rw [List.drop_eq_nil_of_le (by omega)] at hnone
    exact hnone
  exact (h k hlt).1 ((line_cut (by omega) hlt).mp hcut)

theorem piece_has_number {samples : List ℕ} (hne : samples ≠ []) (h : Unbroken (line samples))
    {piece : Text} (hp : piece ∈ records 128 (line samples)) : words blanks piece ≠ [] := by
  obtain ⟨k, hk, rfl⟩ := (mem_records (by decide) (ended samples)).mp hp
  have hroom : k*127+2 < (line samples).length := by
    cases k with
    | zero =>
      obtain ⟨body, hbody⟩ := line_end hne
      have hhead := line_head hne
      rw [hbody] at hhead ⊢
      cases body with
      | nil => exact absurd hhead (by rintro ⟨b, hb, hd⟩; cases hb; exact absurd hd (by decide))
      | cons b body => simp
    | succ k => exact (h k hk).2
  have hmem : ∀ q < 127, DigitAt (line samples) (k*127+q) →
      ∃ b ∈ ((line samples).drop (k*127)).take 127, b ∉ blanks := by
    rintro q hq ⟨b, hb, hdigit⟩
    refine ⟨b, List.mem_of_getElem? (i := q) ?_, digit_not_blank hdigit⟩
    rw [List.getElem?_take_of_lt hq, List.getElem?_drop]
    exact hb
  have hfound : ∃ b ∈ ((line samples).drop (k*127)).take 127, b ∉ blanks :=
    (line_pair hroom).elim (hmem 0 (by decide)) (hmem 1 (by decide))
  intro hnone
  obtain ⟨b, hb, hblank⟩ := hfound
  exact hblank (words_eq_nil.mp hnone b hb)

theorem broken {samples : List ℕ} (hne : samples ≠ []) (h : ¬ Unbroken (line samples)) :
    ¬ Whole 128 blanks (line samples) ∨
      ∃ piece ∈ records 128 (line samples), words blanks piece = [] := by
  simp only [Unbroken, not_forall] at h
  obtain ⟨k, hk, hbad⟩ := h
  rcases not_and_or.mp hbad with hboth | hshort
  · exact Or.inl fun hwhole => hwhole k ((line_cut (by omega) hk).mpr (not_not.mp hboth))
  · right
    refine ⟨_, (mem_records (by decide) (ended samples)).mpr ⟨k+1, hk, rfl⟩, ?_⟩
    rw [words_eq_nil]
    intro b hb
    obtain ⟨body, hbody⟩ := line_end hne
    have hlength := congrArg List.length hbody
    rw [List.length_append] at hlength
    have hblank := List.mem_of_mem_take hb
    have hpast : body.length ≤ (k+1)*127 := by
      simp only [List.length_cons, List.length_nil] at hlength
      omega
    rw [hbody, List.drop_append, List.drop_eq_nil_of_le hpast, List.nil_append] at hblank
    exact List.mem_of_mem_drop hblank

variable {width : ℕ}

def column (row : ℕ → ℤ) : ℕ → ℕ
  | 0 => 0
  | j+1 => column row j+(decimal (row j)).length+1

/-- No multiple of 127 bytes is inside a number, right after the last number or
right after the blank that follows it. -/
def RowFits (width : ℕ) (row : ℕ → ℤ) : Prop :=
  ∀ k, (∀ j < width, ¬ (column row j < (k+1)*127 ∧ (k+1)*127+1 < column row (j+1))) ∧
    (k+1)*127+1 ≠ column row width ∧ (k+1)*127 ≠ column row width

theorem columns_length (row : ℕ → ℤ) :
    ((List.range width).flatMap fun j => decimal (row j)++[space]).length = column row width := by
  induction width with
  | zero => rfl
  | succ width ih =>
    rw [List.range_succ, List.flatMap_append, List.length_append, ih, column]
    simp [Nat.add_assoc]

theorem column_mono (row : ℕ → ℤ) {i j : ℕ} (h : i ≤ j) : column row i ≤ column row j := by
  induction j with
  | zero => rw [Nat.le_zero.mp h]
  | succ j ih =>
    rcases Nat.le_succ_iff.mp h with hle | rfl
    · have := ih hle
      rw [column]
      omega
    · exact Nat.le_refl _

theorem digitAt_append (s t : Text) (p : ℕ) :
    DigitAt (s++t) p ↔ p < s.length ∧ DigitAt s p ∨ s.length ≤ p ∧ DigitAt t (p-s.length) := by
  unfold DigitAt
  rcases Nat.lt_or_ge p s.length with hp | hp
  · rw [List.getElem?_append_left hp, and_iff_right hp]
    exact ⟨Or.inl, fun h => h.resolve_right fun hle => absurd hle.1 (Nat.not_le_of_lt hp)⟩
  · rw [List.getElem?_append_right hp, and_iff_right hp]
    exact ⟨Or.inr, fun h => h.resolve_left fun hlt => absurd hlt.1 (Nat.not_lt_of_ge hp)⟩

theorem digitAt_number {z : ℤ} (hz : 0 ≤ z) (p : ℕ) :
    DigitAt (decimal z++[space]) p ↔ p < (decimal z).length := by
  obtain ⟨n, rfl⟩ := Int.eq_ofNat_of_zero_le hz
  rw [digitAt_append, decimal_natCast]
  constructor
  · rintro (⟨hp, -⟩ | ⟨-, b, hb, hdigit⟩)
    · exact hp
    · obtain rfl := List.mem_singleton.mp (List.mem_of_getElem? hb)
      exact absurd hdigit (by decide)
  · intro hp
    refine Or.inl ⟨hp, (digits n).get ⟨p, hp⟩, List.getElem?_eq_getElem hp, ?_⟩
    exact digits_isDigit n _ (List.get_mem _ _)

theorem columns_digit {row : ℕ → ℤ} (h : ∀ j < width, 0 ≤ row j) (p : ℕ) :
    DigitAt ((List.range width).flatMap fun j => decimal (row j)++[space]) p ↔
      ∃ j < width, column row j ≤ p ∧ p+1 < column row (j+1) := by
  induction width with
  | zero => simp [DigitAt]
  | succ width ih =>
    rw [List.range_succ, List.flatMap_append, digitAt_append, columns_length,
      ih fun j hj => h j (Nat.lt_succ_of_lt hj), List.flatMap_singleton,
      digitAt_number (h width (Nat.lt_succ_self width))]
    constructor
    · rintro (⟨-, j, hj, hp⟩ | ⟨hle, hp⟩)
      · exact ⟨j, Nat.lt_succ_of_lt hj, hp⟩
      · refine ⟨width, Nat.lt_succ_self width, hle, ?_⟩
        rw [column]
        omega
    · rintro ⟨j, hj, hp⟩
      rcases Nat.lt_succ_iff_lt_or_eq.mp hj with hlt | rfl
      · have hle := column_mono row (show j+1 ≤ width by omega)
        exact Or.inl ⟨by omega, j, hlt, hp⟩
      · rw [column] at hp
        exact Or.inr ⟨hp.1, by omega⟩

theorem writeRow_digit {row : ℕ → ℤ} (h : ∀ j < width, 0 ≤ row j) (p : ℕ) :
    DigitAt (writeRow width row) p ↔
      ∃ j < width, column row j ≤ p ∧ p+1 < column row (j+1) := by
  rw [writeRow, digitAt_append, ← columns_digit h]
  constructor
  · rintro (⟨-, hp⟩ | ⟨-, b, hb, hdigit⟩)
    · exact hp
    · obtain rfl := List.mem_singleton.mp (List.mem_of_getElem? hb)
      exact absurd hdigit (by decide)
  · rintro ⟨b, hb, hdigit⟩
    exact Or.inl ⟨(List.getElem?_eq_some_iff.mp hb).1, b, hb, hdigit⟩

theorem writeRow_unbroken {row : ℕ → ℤ} (h : ∀ j < width, 0 ≤ row j) :
    Unbroken (writeRow width row) ↔ RowFits width row := by
  refine forall_congr' fun k => ?_
  rw [writeRow_digit h, writeRow_digit h, writeRow, List.length_append, columns_length,
    List.length_singleton]
  constructor
  · intro hk
    have hcolumn : (k+1)*127 < column row width+1 →
        ∀ j < width, ¬ (column row j < (k+1)*127 ∧ (k+1)*127+1 < column row (j+1)) := by
      rintro hlt j hj ⟨hleft, hright⟩
      exact (hk hlt).1 ⟨⟨j, hj, by omega, by omega⟩, j, hj, by omega, hright⟩
    refine ⟨fun j hj hinside => ?_, fun heq => ?_, fun heq => ?_⟩
    · have hle := column_mono row (show j+1 ≤ width by omega)
      exact hcolumn (by omega) j hj hinside
    · have := (hk (by omega)).2
      omega
    · have := (hk (by omega)).2
      omega
  · rintro ⟨hinside, hnumber, hblank⟩ hlt
    refine ⟨?_, by omega⟩
    rintro ⟨⟨i, hi, hleft, hright⟩, j, hj, hleft', hright'⟩
    -- both digits belong to the same number
    obtain rfl : i = j := by
      rcases Nat.lt_trichotomy i j with hij | hij | hij
      · have := column_mono row (show i+1 ≤ j by omega)
        omega
      · exact hij
      · have := column_mono row (show j+1 ≤ i by omega)
        omega
    exact hinside i hi ⟨by omega, hright'⟩

end Semestr4.PgmRows
