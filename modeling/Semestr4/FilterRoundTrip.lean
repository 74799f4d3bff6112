import Mathlib.Data.List.GetD
import Semestr4.FilterFile
import Semestr4.PgmSize
import Semestr4.TextLines

/-!
# A generated filter is read back

Nine entries and their newline fit the buffer of the reader, so that every call
of `fgets` returns a whole line. The count of the entries is looked at once a
line only, but the last line ends with the last entry.
-/

set_option autoImplicit false

namespace Semestr4.FilterRoundTrip
open Semestr4.ByteText Semestr4.DecimalText Semestr4.LineBuffer Semestr4.PgmFile Semestr4.PgmSize
open Semestr4.BinaryRounding Semestr4.RealText Semestr4.FilterFile Semestr4.TextLines

section
variable (size : ℕ) (rand : ℕ → ℕ)

def token (i : ℕ) : Text := fixed (quotient size (rand i))

def row (a k : ℕ) : Text := (List.range' a k).flatMap fun i => entry size (rand i)

def fullLines (q : ℕ) : List Text :=
  (List.range q).map fun k => row size rand (9*k) 9++[newline]

def body (n : ℕ) : Text := (List.range n).flatMap fun i =>
  entry size (rand i)++if (i+1) % 9 = 0 then [newline] else []

end

variable {size : ℕ} {rand : ℕ → ℕ}

theorem mem_entry {r : ℕ} {b : UInt8} (h : b ∈ entry size r) :
    isDigit b = true ∨ b = 46 ∨ b = space := by
  rcases List.mem_append.mp h with h | h
  · exact (mem_fixed h).imp_right Or.inl
  · exact Or.inr (Or.inr (List.mem_singleton.mp h))

theorem row_not_mem {d : UInt8} (hd : isDigit d = false ∧ d ≠ 46 ∧ d ≠ space) (a k : ℕ) :
    d ∉ row size rand a k := by
  intro h
  obtain ⟨i, -, hi⟩ := List.mem_flatMap.mp h
  rcases mem_entry hi with hdigit | hpoint | hspace
  · rw [hd.1] at hdigit
    cases hdigit
  · exact hd.2.1 hpoint
  · exact hd.2.2 hspace

theorem row_no_newline (a k : ℕ) : newline ∉ row size rand a k := row_not_mem (by decide) a k

theorem row_no_zero (a k : ℕ) : 0 ∉ row size rand a k := row_not_mem (by decide) a k

theorem row_length (h1 : 1 ≤ size) (h : size*size < 2^31) (a k : ℕ) :
    (row size rand a k).length = 9*k := by
  induction k generalizing a with
  | zero => rfl
  | succ k ih =>
    have hfirst := fixed_length (quotient_nonneg h (rand a)) (quotient_le h1 h (rand a))
    have hrest := ih (a+1)
    rw [row] at hrest
    rw [row, List.range'_succ, List.flatMap_cons, List.length_append, hrest, entry,
      List.length_append, hfirst, List.length_singleton]
    omega

theorem token_not_blank (i : ℕ) : ∀ b ∈ token size rand i, b ∉ blanks := by
  intro b hb
  rcases mem_fixed hb with h | rfl
  · obtain ⟨-, -, -, hspace, hnewline, -⟩ := digit_no_sign h
    simp [blanks, space, newline, hspace, hnewline]
  · decide

theorem words_row (a k : ℕ) (rest : Text) : words blanks (row size rand a k++rest) =
    (List.range' a k).map (token size rand)++words blanks rest := by
  induction k generalizing a with
  | zero => rfl
  | succ k ih =>
    have hsplit : row size rand a (k+1)++rest =
        token size rand a++space::(row size rand (a+1) k++rest) := by
      simp [row, List.range'_succ, entry, token]
    have hne : token size rand a ≠ [] := fixed_ne_nil _
    rw [hsplit, words_token hne (token_not_blank a) (List.mem_cons_self ..), ih, List.range'_succ]
    rfl

theorem body_row {a k : ℕ} (h : ∀ i ∈ List.range' a k, (i+1) % 9 ≠ 0) :
    ((List.range' a k).flatMap fun i =>
      entry size (rand i)++if (i+1) % 9 = 0 then [newline] else []) = row size rand a k := by
  refine List.flatMap_congr fun i hi => ?_
  rw [if_neg (h i hi), List.append_nil]

theorem body_nine (q : ℕ) :
    ((List.range' (9*q) 9).flatMap fun i =>
      entry size (rand i)++if (i+1) % 9 = 0 then [newline] else []) =
      row size rand (9*q) 9++[newline] := by
  have hsplit : List.range' (9*q) 9 = List.range' (9*q) 8++[9*q+8] :=
    (List.range'_append_1 (s := 9*q) (m := 8) (n := 1)).symm
  have hrow : row size rand (9*q) 9 = row size rand (9*q) 8++entry size (rand (9*q+8)) := by
    rw [row, hsplit, List.flatMap_append, List.flatMap_singleton]
    rfl
  have hfirst : ∀ i ∈ List.range' (9*q) 8, (i+1) % 9 ≠ 0 := by
    intro i hi
    rw [List.mem_range'_1] at hi
    omega
  rw [hsplit, List.flatMap_append, body_row hfirst, List.flatMap_singleton, if_pos (by omega), hrow,
    List.append_assoc]

theorem range_add (m n : ℕ) : List.range (m+n) = List.range m++List.range' m n := by
  rw [List.range_eq_range', List.range_eq_range']
  simpa using (List.range'_append_1 (s := 0) (m := m) (n := n)).symm

theorem fullLines_succ (q : ℕ) : fullLines size rand (q+1) =
    fullLines size rand q++[row size rand (9*q) 9++[newline]] := by
  rw [fullLines, List.range_succ, List.map_append]
  rfl

theorem body_full (q : ℕ) : body size rand (9*q) = (fullLines size rand q).flatten := by
  induction q with
  | zero => rfl
  | succ q ih =>
    rw [fullLines_succ, List.flatten_append, ← ih, body, Nat.mul_succ, range_add,
      List.flatMap_append, body_nine]
    simp [body]

theorem body_eq (n : ℕ) :
    body size rand n = (fullLines size rand (n/9)).flatten++row size rand (9*(n/9)) (n % 9) := by
  have hrange : List.range n = List.range (9*(n/9))++List.range' (9*(n/9)) (n % 9) := by
    rw [← range_add, Nat.div_add_mod]
  have hlast : ∀ i ∈ List.range' (9*(n/9)) (n % 9), (i+1) % 9 ≠ 0 := by
    intro i hi
    rw [List.mem_range'_1] at hi
    omega
  rw [← body_full, body, hrange, List.flatMap_append, body_row hlast]
  rfl

theorem row_ne_nil {a k : ℕ} (h1 : 1 ≤ size) (h : size*size < 2^31) (hk : k ≠ 0) :
    row size rand a k ≠ [] := by
  apply List.ne_nil_of_length_pos
  rw [row_length h1 h]
  omega

theorem fullLines_fits (h1 : 1 ≤ size) (h : size*size < 2^31) {q : ℕ} {t : Text}
    (ht : t ∈ fullLines size rand q) : t ≠ [] ∧ Ended t ∧ t.length ≤ 127 := by
  obtain ⟨k, -, rfl⟩ := List.mem_map.mp ht
  refine ⟨by simp, ended_line (row_no_newline _ _), ?_⟩
  rw [List.length_append, row_length h1 h, List.length_singleton]
  decide

theorem records_fullLines (h1 : 1 ≤ size) (h : size*size < 2^31) (q : ℕ) :
    (fullLines size rand q).flatMap (records 128) = fullLines size rand q := by
  have hone : ∀ t ∈ fullLines size rand q, records 128 t = [t] := by
    intro t ht
    obtain ⟨hne, hended, hlength⟩ := fullLines_fits h1 h ht
    exact records_short (by decide) ⟨hne, Or.inl hended⟩ hlength
  rw [List.flatMap_congr hone]
  exact List.flatMap_singleton' _

theorem records_body (h1 : 1 ≤ size) (h : size*size < 2^31) (n : ℕ) :
    records 128 (body size rand n) = fullLines size rand (n/9)++
      if n % 9 = 0 then [] else [row size rand (9*(n/9)) (n % 9)] := by
  have hended : ∀ t ∈ fullLines size rand (n/9), Ended t :=
    fun t ht => (fullLines_fits h1 h ht).2.1
  rw [body_eq, records_lines_append (by decide) hended, records_fullLines h1 h]
  congr 1
  by_cases hlast : n % 9 = 0
  · rw [if_pos hlast, hlast]
    exact records_nil
  · rw [if_neg hlast]
    refine records_short (by decide) ⟨row_ne_nil h1 h hlast, Or.inr (row_no_newline _ _)⟩ ?_
    rw [row_length h1 h]
    omega

theorem words_lines (q : ℕ) : (fullLines size rand q).flatMap (words blanks) =
    (List.range (9*q)).map (token size rand) := by
  induction q with
  | zero => rfl
  | succ q ih =>
    have hnewline : words blanks [newline] = [] := rfl
    rw [fullLines_succ, List.flatMap_append, ih, List.flatMap_singleton, words_row, hnewline,
      List.append_nil, Nat.mul_succ, range_add, List.map_append]

theorem words_body (h1 : 1 ≤ size) (h : size*size < 2^31) (n : ℕ) :
    (records 128 (body size rand n)).flatMap (words blanks) =
      (List.range n).map (token size rand) := by
  have hlast : (if n % 9 = 0 then [] else [row size rand (9*(n/9)) (n % 9)]).flatMap
      (words blanks) = (List.range' (9*(n/9)) (n % 9)).map (token size rand) := by
    by_cases hzero : n % 9 = 0
    · rw [if_pos hzero, hzero]
      rfl
    · have hwords := @words_row size rand (9*(n/9)) (n % 9) []
      rw [List.append_nil] at hwords
      rw [if_neg hzero, List.flatMap_singleton, hwords]
      exact List.append_nil _
  rw [records_body h1 h, List.flatMap_append, words_lines, hlast, ← List.map_append, ← range_add,
    Nat.div_add_mod]

theorem parseEntries_words {line : Text} (hzero : 0 ∉ line) (hwords : words blanks line ≠ []) :
    parseEntries line = some ((words blanks line).map scanned) := by
  rw [words_strtok] at hwords
  rw [parseEntries, cstring_self hzero, words_strtok]
  cases hs : strtok blanks line with
  | none =>
    rw [hs] at hwords
    exact absurd rfl hwords
  | some found => simp only [tokens_eq_words, List.map_cons]

/-- Where every line has an entry, the test at its beginning does not end the loop
too early. -/
theorem parseFrom_words {filterSize : ℤ} {lines : List Text} {i : ℕ}
    (hlines : ∀ line ∈ lines, 0 ∉ line ∧ words blanks line ≠ [])
    (hcount : (i : ℤ)+(lines.flatMap (words blanks)).length ≤ filterSize*filterSize) :
    parseFrom filterSize i lines = some ((lines.flatMap (words blanks)).map scanned) := by
  induction lines generalizing i with
  | nil => rfl
  | cons line lines ih =>
    rw [List.forall_mem_cons] at hlines
    obtain ⟨⟨hzero, hwords⟩, hrest⟩ := hlines
    have hpos := List.length_pos_of_ne_nil hwords
    rw [List.flatMap_cons, List.length_append, Nat.cast_add] at hcount
    have hnext := ih (i := i+(words blanks line).length) hrest (by push_cast; linarith)
    rw [parseFrom, if_pos (by omega), parseEntries_words hzero hwords]
    simp only [List.length_map, hnext, Option.map_some, List.flatMap_cons, List.map_append]

theorem lines_parsed (h1 : 1 ≤ size) (h : size*size < 2^31) (n : ℕ) :
    ∀ line ∈ records 128 (body size rand n), 0 ∉ line ∧ words blanks line ≠ [] := by
  have hrow : ∀ a k rest, k ≠ 0 → words blanks (row size rand a k++rest) ≠ [] := by
    intro a k rest hk
    obtain ⟨m, rfl⟩ := Nat.exists_eq_succ_of_ne_zero hk
    rw [words_row, List.range'_succ]
    exact List.cons_ne_nil _ _
  intro line hline
  rw [records_body h1 h, List.mem_append] at hline
  rcases hline with hline | hline
  · obtain ⟨k, -, rfl⟩ := List.mem_map.mp hline
    refine ⟨?_, hrow _ _ _ (by decide)⟩
    rw [List.mem_append, not_or]
    exact ⟨row_no_zero _ _, by decide⟩
  · split at hline
    · cases hline
    · rename_i hlast
      have hwords := hrow (9*(n/9)) (n % 9) [] hlast
      rw [List.append_nil] at hwords
      rw [List.mem_singleton.mp hline]
      exact ⟨row_no_zero _ _, hwords⟩

theorem gets_header (h : size*size < 2^31) (rest : Text) : ∃ filled,
    gets 10 (List.replicate 10 0) (decimal size++newline::rest) = (filled, rest) ∧
      atoi (cstring filled) = size := by
  have hnewline : newline ∉ digits size := digits_not rfl size
  have hzero : 0 ∉ digits size++[newline] := by
    rw [List.mem_append, not_or]
    exact ⟨digits_not rfl size, by decide⟩
  have hsmall : size < 10^5 := by
    by_contra hlarge
    have hsquare := Nat.mul_le_mul (Nat.le_of_not_lt hlarge) (Nat.le_of_not_lt hlarge)
    omega
  have hlength : (digits size++[newline]).length ≤ 10-1 := by
    have hdigits : (digits size).length ≤ 5 := by
      rw [DecimalText.digits, List.length_map]
      exact (Nat.length_toDigits_le_iff (by decide) (by decide)).mpr hsmall
    rw [List.length_append, List.length_singleton]
    omega
  obtain ⟨filled, hgets, hfilled⟩ := gets_ended 10 (List.replicate 10 0) (ended_line hnewline)
    (by simp) hzero rest
  rw [List.drop_eq_nil_of_le hlength, List.nil_append, List.append_assoc] at hgets
  rw [List.take_of_length_le hlength] at hfilled
  refine ⟨filled, ?_, ?_⟩
  · rw [decimal_natCast]
    exact hgets
  · rw [hfilled, atoi_digits_append size (by simp [newline, isDigit])]

theorem parseFilter_generator (h1 : 1 ≤ size) (h : size*size < 2^31) (rand : ℕ → ℕ) :
    parseFilter (generator size rand) = some ⟨size,
      (List.range (size*size)).map fun i => double (millionths (quotient size (rand i))/10^6)⟩ := by
  obtain ⟨filled, hgets, hsize⟩ := gets_header h (body size rand (size*size))
  have hwords := @words_body size rand h1 h (size*size)
  have hparse := @parseFrom_words size _ 0 (@lines_parsed size rand h1 h (size*size))
    (by rw [hwords]; simp)
  have hscanned : ∀ i, scanned (token size rand i) =
      double (millionths (quotient size (rand i))/10^6) := by
    intro i
    rw [scanned, token, scanReal_fixed, Option.getD_some]
  have hfile : generator size rand = decimal size++newline::body size rand (size*size) := rfl
  rw [parseFilter, hfile, hgets]
  simp only [hsize, hparse, hwords, List.map_map]
  rw [if_neg (by omega), Option.map_some]
  simp only [Function.comp_def, hscanned]

theorem result_millionths (read : ℚ → ℚ) {i j : ℕ} (hi : i < size) (hj : j < size) :
    Filter.result ⟨size, (List.range (size*size)).map fun i =>
      read (millionths (quotient size (rand i))/10^6)⟩ i j =
        read (millionths (quotient size (rand (i*size+j)))/10^6) := by
  have hindex : i*size+j < size*size := by
    have hrow := Nat.mul_le_mul_right size (Nat.succ_le_of_lt hi)
    rw [Nat.succ_mul] at hrow
    omega
  rw [Filter.result, Int.toNat_natCast, List.getD_eq_getElem _ _ (by simpa using hindex)]
  simp

def sixDecimals (q : ℚ) : ℚ := roundEven (q*10^6)/10^6

/-- The reader gets back the size and the doubles nearest to the entries rounded to
six decimals, and stores no more than there are. -/
theorem reads_back (size : ℕ) (h1 : 1 ≤ size) (h : size*size < 2^31) (rand : ℕ → ℕ) :
    ∃ f, parseFilter (generator size rand) = some f ∧ f.filterSize = size ∧
      f.stores.length ≤ size*size ∧ ∀ i < size, ∀ j < size,
        f.result i j = double (sixDecimals (quotient size (rand (i*size+j)))) := by
  refine ⟨_, parseFilter_generator h1 h rand, rfl, by simp, fun i hi j hj => ?_⟩
  have hcast := millionths_natCast (quotient_nonneg h (rand (i*size+j)))
  rw [result_millionths double hi hj, sixDecimals, ← hcast, Int.cast_natCast]

/-- Two lines of entries, the second one not full. -/
theorem reads_back_four : ∃ f, parseFilter (generator 4 fun i => 7*i) = some f ∧
    f.filterSize = 4 ∧ f.stores.length ≤ 16 ∧
      f.result 2 3 = double (48125/10^6) ∧ f.result 3 3 = double (3125/10^6) := by
  obtain ⟨f, hparse, hsize, hlength, hresult⟩ :=
    reads_back 4 (by decide) (by decide) fun i => 7*i
  have hentry : sixDecimals (quotient 4 77) = 48125/10^6 := by decide +kernel
  have hlast : sixDecimals (quotient 4 105) = 3125/10^6 := by decide +kernel
  refine ⟨f, hparse, hsize, hlength, ?_, ?_⟩
  · rw [hresult 2 (by decide) 3 (by decide), hentry]
  · rw [hresult 3 (by decide) 3 (by decide), hlast]

end Semestr4.FilterRoundTrip
