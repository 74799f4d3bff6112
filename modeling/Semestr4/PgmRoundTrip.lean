import Mathlib.Algebra.Order.BigOperators.Group.List
import Mathlib.Algebra.Order.Ring.Nat
import Semestr4.PgmRows
import Semestr4.PgmSize

/-!
# Reading an image that was written

An image is read back exactly when its size and its rows fit the buffers. A
size that does not fit is read wrong, or the line with the largest sample is
taken for samples; a row that does not fit makes the reader fail or store a
value outside of the image.
-/

set_option autoImplicit false

namespace Semestr4.PgmRoundTrip
open Semestr4.ByteText Semestr4.DecimalText Semestr4.LineBuffer Semestr4.PgmFile Semestr4.PgmRows
open Semestr4.PgmSize

variable {width height : ℕ} {output : ℕ → ℕ → ℤ}

def rows (width height : ℕ) (output : ℕ → ℕ → ℤ) : List Text :=
  (List.range height).map fun i => writeRow width (output i)

def ReadsBack (width height : ℕ) (output : ℕ → ℕ → ℤ) : Prop :=
  ∃ image, parseImage (writeToFile width height output) = some image ∧
    image.width = width ∧ image.height = height ∧
    (∀ i < height, ∀ j < width, image.result i j = output i j) ∧
    ∀ i < image.stores.length, (i : ℤ) < image.width*image.height

def samples (width : ℕ) (row : ℕ → ℤ) : List ℕ := (List.range width).map fun j => (row j).toNat

theorem writeRow_line {row : ℕ → ℤ} (h : ∀ j < width, 0 ≤ row j) :
    writeRow width row = line (samples width row) := by
  have hsample : ∀ j ∈ List.range width,
      decimal (row j)++[space] = digits (row j).toNat++[space] := by
    intro j hj
    obtain ⟨n, hn⟩ := Int.eq_ofNat_of_zero_le (h j (List.mem_range.mp hj))
    rw [hn, decimal_natCast, Int.toNat_natCast]
  rw [writeRow, line, samples, List.flatMap_map]
  exact congrArg (·++[newline]) (List.flatMap_congr hsample)

theorem samples_ne_nil (hw : 1 ≤ width) (row : ℕ → ℤ) : samples width row ≠ [] := by
  rw [samples, Ne, List.map_eq_nil_iff, List.range_eq_nil]
  omega

theorem row_numbers {row : ℕ → ℤ} (h : ∀ j < width, 0 ≤ row j) :
    (words blanks (writeRow width row)).map atoi = (List.range width).map row := by
  rw [writeRow_line h, line_words, samples, List.map_map, List.map_map]
  refine List.map_congr_left fun j hj => ?_
  simp [atoi_digits, h j (List.mem_range.mp hj)]

theorem row_count {row : ℕ → ℤ} (h : ∀ j < width, 0 ≤ row j) :
    (words blanks (writeRow width row)).length = width := by
  rw [writeRow_line h, line_words, samples]
  simp

theorem flattened_get {α : Type*} (f : ℕ → ℕ → α) {i j : ℕ} (hi : i < height) (hj : j < width) :
    ((List.range height).flatMap fun i => (List.range width).map (f i))[i*width+j]? =
      some (f i j) := by
  induction height with
  | zero => exact absurd hi (Nat.not_lt_zero i)
  | succ height ih =>
    have hlength : ((List.range height).flatMap fun i => (List.range width).map (f i)).length =
        height*width := by
      simp
    rw [List.range_succ, List.flatMap_append]
    rcases Nat.lt_succ_iff_lt_or_eq.mp hi with hlt | rfl
    · have hbound : i*width+width ≤ height*width := by
        rw [← Nat.succ_mul]
        exact Nat.mul_le_mul_right width hlt
      rw [List.getElem?_append_left (by omega)]
      exact ih hlt
    · rw [List.getElem?_append_right (by omega), hlength, Nat.add_sub_cancel_left]
      simp [hj]

theorem writeToFile_rows : writeToFile width height output =
    [80, 50, newline]++(writeSize width height++
      ([50, 53, 53, newline]++(rows width height output).flatten)) := by
  simp [writeToFile, rows, List.flatMap]

theorem parsed {image : Image} (h : parseImage (writeToFile width height output) = some image) :
    ∃ rest, parseSize (writeToFile width height output) =
        some ((image.width, image.height), rest) ∧
      parseLines (records 128 rest) = some image.stores := by
  unfold parseImage at h
  split at h
  · cases h
  · rename_i w h' rest hsize
    split at h
    · cases h
    · obtain ⟨stores, hstores, rfl⟩ := Option.map_eq_some_iff.mp h
      exact ⟨rest, hsize, hstores⟩

section Samples
variable (hs : ∀ i < height, ∀ j < width, 0 ≤ output i j ∧ output i j ≤ 255)
include hs

theorem row_nonneg {i : ℕ} (hi : i < height) : ∀ j < width, 0 ≤ output i j :=
  fun j hj => (hs i hi j hj).1

theorem rows_ended : ∀ t ∈ rows width height output, Ended t := by
  intro t ht
  obtain ⟨i, hi, rfl⟩ := List.mem_map.mp ht
  rw [writeRow_line (row_nonneg hs (List.mem_range.mp hi))]
  exact ended _

theorem pieces_no_zero : ∀ piece ∈ records 128 (rows width height output).flatten, 0 ∉ piece := by
  intro piece hp hzero
  rw [records_lines (by decide) (rows_ended hs)] at hp
  obtain ⟨t, ht, hpiece⟩ := List.mem_flatMap.mp hp
  obtain ⟨k, -, rfl⟩ := (mem_records (by decide) (rows_ended hs t ht)).mp hpiece
  obtain ⟨i, hi, rfl⟩ := List.mem_map.mp ht
  rw [writeRow_line (row_nonneg hs (List.mem_range.mp hi))] at hzero
  exact line_no_zero _ (List.mem_of_mem_drop (List.mem_of_mem_take hzero))

theorem row_ended {i : ℕ} (hi : i < height) : Ended (writeRow width (output i)) :=
  rows_ended hs _ (List.mem_map.mpr ⟨i, List.mem_range.mpr hi, rfl⟩)

theorem stored_length : (pieceTokens 128 blanks (rows width height output).flatten).length =
    ((List.range height).map fun i =>
      (pieceTokens 128 blanks (writeRow width (output i))).length).sum := by
  rw [pieceTokens_lines blanks (by decide) (rows_ended hs), rows, List.flatMap_map, List.length_flatMap]

theorem row_stores {i : ℕ} (hi : i < height) :
    width ≤ (pieceTokens 128 blanks (writeRow width (output i))).length := by
  have hle := pieceTokens_le blanks (by decide : 2 ≤ 128) (row_ended hs hi)
  rwa [row_count (row_nonneg hs hi)] at hle

theorem stored_le :
    height*width ≤ (pieceTokens 128 blanks (rows width height output).flatten).length := by
  have hsum := List.sum_le_sum fun i (hi : i ∈ List.range height) =>
    row_stores hs (List.mem_range.mp hi)
  rw [stored_length hs]
  simpa using hsum

theorem stored_lt {i : ℕ} (hi : i < height)
    (h : ¬ Whole 128 blanks (writeRow width (output i))) :
    height*width < (pieceTokens 128 blanks (rows width height output).flatten).length := by
  have hlt := pieceTokens_lt (by decide) (row_ended hs hi) h
  rw [row_count (row_nonneg hs hi)] at hlt
  have hsum := List.sum_lt_sum _ _ (fun i (hi : i ∈ List.range height) =>
    row_stores hs (List.mem_range.mp hi)) ⟨i, List.mem_range.mpr hi, hlt⟩
  rw [stored_length hs]
  simpa using hsum

theorem stored_rows (hw : 1 ≤ width)
    (h : ∀ i < height, Unbroken (writeRow width (output i))) :
    parseLines (records 128 (rows width height output).flatten) =
      some ((List.range height).flatMap fun i => (List.range width).map (output i)) := by
  have hrecords := records_lines (by decide : 2 ≤ 128) (rows_ended hs)
  have hpieces : ∀ piece ∈ records 128 (rows width height output).flatten,
      words blanks piece ≠ [] := by
    intro piece hp
    rw [hrecords] at hp
    obtain ⟨t, ht, hpiece⟩ := List.mem_flatMap.mp hp
    obtain ⟨i, hi, rfl⟩ := List.mem_map.mp ht
    rw [List.mem_range] at hi
    have hunbroken := h i hi
    rw [writeRow_line (row_nonneg hs hi)] at hunbroken hpiece
    exact piece_has_number (samples_ne_nil hw _) hunbroken hpiece
  have hrow : ∀ i ∈ List.range height,
      (pieceTokens 128 blanks (writeRow width (output i))).map atoi =
        (List.range width).map (output i) := by
    intro i hi
    rw [List.mem_range] at hi
    have hwhole := h i hi
    rw [writeRow_line (row_nonneg hs hi)] at hwhole
    rw [pieceTokens_whole (by decide) (row_ended hs hi), row_numbers (row_nonneg hs hi)]
    rw [writeRow_line (row_nonneg hs hi)]
    exact unbroken_whole hwhole
  rw [parseLines_words (pieces_no_zero hs), if_pos hpieces]
  have htokens := pieceTokens_lines blanks (by decide : 2 ≤ 128) (rows_ended hs)
  rw [pieceTokens] at htokens
  rw [htokens, rows, List.flatMap_map, List.map_flatMap]
  exact congrArg some (List.flatMap_congr hrow)

/-- A broken line makes the reader fail, or store too much. -/
theorem stored_broken (hw : 1 ≤ width) {i : ℕ} (hi : i < height)
    (h : ¬ Unbroken (writeRow width (output i))) {stores : List ℤ}
    (hp : parseLines (records 128 (rows width height output).flatten) = some stores) :
    height*width < stores.length := by
  rw [parseLines_words (pieces_no_zero hs)] at hp
  split at hp
  · rename_i hpieces
    obtain rfl : _ = stores := Option.some.inj hp
    rw [List.length_map]
    refine stored_lt hs hi ?_
    rw [writeRow_line (row_nonneg hs hi)] at h ⊢
    refine (broken (samples_ne_nil hw _) h).resolve_right ?_
    rintro ⟨piece, hpiece, hnone⟩
    refine hpieces piece ?_ hnone
    rw [records_lines (by decide) (rows_ended hs), List.mem_flatMap]
    refine ⟨_, List.mem_map.mpr ⟨i, List.mem_range.mpr hi, rfl⟩, ?_⟩
    rwa [writeRow_line (row_nonneg hs hi)]
  · cases hp

theorem reads_back_of_fits (hw : 1 ≤ width) (hsize : (writeSize width height).length ≤ 9)
    (h : ∀ i < height, Unbroken (writeRow width (output i))) :
    ReadsBack width height output := by
  refine ⟨⟨width, height, (List.range height).flatMap fun i => (List.range width).map (output i)⟩,
    ?_, rfl, rfl, fun i hi j hj => ?_, fun i hi => ?_⟩
  · have hpositive : ¬ ((width : ℤ) ≤ 0) := by omega
    rw [parseImage, writeToFile_rows, size_fits hsize]
    simp only [hpositive, false_and, if_false, stored_rows hs hw h, Option.map_some]
  · rw [Image.result, Int.toNat_natCast, List.getD_eq_getElem?_getD, flattened_get output hi hj]
    rfl
  · have hlt : i < height*width := by simpa using hi
    rw [Nat.mul_comm] at hlt
    change (i : ℤ) < (width : ℤ)*(height : ℤ)
    exact_mod_cast hlt

theorem fits_of_reads_back (hh : 1 ≤ height) (h : ReadsBack width height output) :
    (writeSize width height).length ≤ 9 := by
  obtain ⟨image, hparse, hwidth, hheight, -, hinside⟩ := h
  obtain ⟨rest, hsize, hstores⟩ := parsed hparse
  rw [writeToFile_rows] at hsize
  by_contra hlong
  rcases Nat.lt_or_eq_of_le (Nat.succ_le_of_lt (Nat.lt_of_not_le hlong)) with hmore | hfull
  · exact size_overflows hh hmore hsize hheight
  · rw [size_fills hfull.symm] at hsize
    obtain rfl : _ = rest := (Prod.mk.inj (Option.some.inj hsize)).2
    have hmax : Ended [50, 53, 53, newline] := ended_line (show newline ∉ [50, 53, 53] by decide)
    have hzero : ∀ piece ∈ records 128 ([50, 53, 53, newline]++(rows width height output).flatten),
        0 ∉ piece := by
      rw [records_append (by decide) hmax]
      intro piece hp
      rcases List.mem_append.mp hp with hp | hp
      · obtain ⟨k, -, rfl⟩ := (mem_records (by decide) hmax).mp hp
        exact fun h0 => absurd (List.mem_of_mem_drop (List.mem_of_mem_take h0)) (by decide)
      · exact pieces_no_zero hs piece hp
    rw [parseLines_words hzero] at hstores
    split at hstores
    · have hlength := congrArg List.length (Option.some.inj hstores)
      rw [List.length_map, ← pieceTokens, pieceTokens_append (by decide) hmax,
        List.length_append] at hlength
      have hrest := stored_le hs
      have hone : (pieceTokens 128 blanks [50, 53, 53, newline]).length = 1 := by decide
      have houtside := hinside (width*height) (by rw [Nat.mul_comm]; omega)
      rw [hwidth, hheight] at houtside
      push_cast at houtside
      exact absurd houtside (lt_irrefl _)
    · cases hstores

theorem unbroken_of_reads_back (hw : 1 ≤ width) (hh : 1 ≤ height)
    (h : ReadsBack width height output) {i : ℕ} (hi : i < height) :
    Unbroken (writeRow width (output i)) := by
  have hfits := fits_of_reads_back hs hh h
  obtain ⟨image, hparse, hwidth, hheight, -, hinside⟩ := h
  obtain ⟨rest, hsize, hstores⟩ := parsed hparse
  rw [writeToFile_rows, size_fits hfits] at hsize
  obtain rfl : _ = rest := (Prod.mk.inj (Option.some.inj hsize)).2
  by_contra hbroken
  have hlt := stored_broken hs hw hi hbroken hstores
  have houtside := hinside (width*height) (by rwa [Nat.mul_comm])
  rw [hwidth, hheight] at houtside
  push_cast at houtside
  exact absurd houtside (lt_irrefl _)

/-- The image is read back exactly when the width and the height have at most
seven digits together and no piece of 127 bytes breaks a row. -/
theorem reads_back_iff (hw : 1 ≤ width) (hh : 1 ≤ height) : ReadsBack width height output ↔
    (decimal width).length+(decimal height).length ≤ 7 ∧
      ∀ i < height, RowFits width (output i) := by
  have hsize : (writeSize width height).length ≤ 9 ↔
      (decimal width).length+(decimal height).length ≤ 7 := by
    simp only [writeSize, List.length_append, List.length_singleton]
    omega
  have hrows : (∀ i < height, RowFits width (output i)) ↔
      ∀ i < height, Unbroken (writeRow width (output i)) :=
    forall₂_congr fun i hi => (writeRow_unbroken (row_nonneg hs hi)).symm
  rw [← hsize, hrows]
  constructor
  · intro h
    exact ⟨fits_of_reads_back hs hh h, fun i hi => unbroken_of_reads_back hs hw hh h hi⟩
  · rintro ⟨hsize, hlines⟩
    exact reads_back_of_fits hs hw hsize hlines

end Samples

theorem reads_back_two_rows : ReadsBack 2 2 (fun i j => 100*i+j) := by
  have hrange : ∀ i < 2, ∀ j < 2,
      (0 : ℤ) ≤ 100*(i : ℕ)+(j : ℕ) ∧ (100*(i : ℕ)+(j : ℕ) : ℤ) ≤ 255 := by
    intro i hi j hj
    omega
  refine (reads_back_iff hrange (by decide) (by decide)).mpr ⟨by decide, fun i hi k => ?_⟩
  have hshort : ∀ i < 2, ∀ j ≤ 2, column (fun j => 100*(i : ℕ)+(j : ℕ)) j ≤ 8 := by decide
  refine ⟨fun j hj => ?_, ?_, ?_⟩
  · have := hshort i hi (j+1) (by omega)
    omega
  · have := hshort i hi 2 (by decide)
    omega
  · have := hshort i hi 2 (by decide)
    omega

/-- In a row of 43 samples of two digits the first piece ends inside the last
sample, which is stored as two. -/
theorem row_not_read_back : ¬ ReadsBack 43 1 (fun _ _ => 10) := by
  intro h
  have hunbroken := unbroken_of_reads_back (fun _ _ _ _ => by decide) (by decide) (by decide) h
    (i := 0) (by decide)
  have hbroken : (0+1)*127 < (writeRow 43 fun _ => 10).length ∧
      (writeRow 43 fun _ => 10)[(0+1)*127-1]? = some 49 ∧
      (writeRow 43 fun _ => 10)[(0+1)*127]? = some 48 := by decide +kernel
  exact (hunbroken 0 hbroken.1).1 ⟨⟨49, hbroken.2.1, by decide⟩, ⟨48, hbroken.2.2, by decide⟩⟩

end Semestr4.PgmRoundTrip
