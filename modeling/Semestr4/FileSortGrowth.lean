import Semestr4.FileSortOrder

/-!
# Sorting more records than the file has

Beyond the end of the file a read leaves the buffers as they were, but each
iteration of the outer loop writes at its own record number or has moved a
record there. The first iteration past the end makes the file longer.
-/

set_option autoImplicit false

namespace Semestr4.FileSortGrowth
open Semestr4.ByteText Semestr4.SeekableFile Semestr4.RecordFile Semestr4.FileSort
open Semestr4.FileSortOrder

variable {recordSize : ℕ}

def KeepsRecords (content : Text) (n : ℤ) (recordSize : ℕ) (mode : Mode) : Prop :=
  ∃ result, sort (some content) n recordSize mode = some result ∧
    result.length = content.length ∧
    (recordsOf recordSize result).Perm (recordsOf recordSize content)

/-- Both buffers keep their length through short reads. -/
structure Buffered (recordSize : ℕ) (s : Sorting) : Prop where
  one : s.buffer1.length = recordSize
  two : s.buffer2.length = recordSize

theorem load_length {buffer : Text} (h : buffer.length = recordSize) (handler : Handle) (k : ℕ) :
    (load posix recordSize buffer handler k).1.length = recordSize := by
  show (fill buffer (available (seek handler (recordSize*k)) recordSize)).length = recordSize
  rw [fill_length, h]
  rw [h]
  exact available_length _ _

theorem length_store {s : Sorting} {data : Text} (h : data.length = recordSize)
    (hs : 0 < recordSize) (offset : ℕ) :
    (store posix s offset data).handler.content.length =
      max s.handler.content.length (offset+recordSize) := by
  have hne : data ≠ [] := List.ne_nil_of_length_pos (h.symm ▸ hs)
  rw [← h]
  exact overwrite_length hne s.handler.content offset

theorem pass_cases (recordSize : ℕ) (s : Sorting) (j : ℕ) :
    ((pass posix recordSize s j).Moves ∧ pass posix recordSize s j =
      store posix (load2 posix recordSize s j) (recordSize*(j+1))
        (load2 posix recordSize s j).buffer2) ∨
    (¬ (pass posix recordSize s j).Moves ∧
      pass posix recordSize s j = load2 posix recordSize s j) := by
  by_cases h : (load2 posix recordSize s j).Moves
  · left
    have heq : pass posix recordSize s j = store posix (load2 posix recordSize s j)
        (recordSize*(j+1)) (load2 posix recordSize s j).buffer2 := by
      rw [FileSort.pass, if_pos h]
    exact ⟨heq ▸ h, heq⟩
  · right
    have heq : pass posix recordSize s j = load2 posix recordSize s j := by
      rw [FileSort.pass, if_neg h]
    exact ⟨heq ▸ h, heq⟩

section
variable {s : Sorting}

theorem pass_buffered (h : Buffered recordSize s) (j : ℕ) :
    Buffered recordSize (pass posix recordSize s j) := by
  have h2 := load_length h.two s.handler j
  rcases pass_cases recordSize s j with ⟨-, heq⟩ | ⟨-, heq⟩
  · rw [heq]
    exact ⟨h.one, h2⟩
  · rw [heq]
    exact ⟨h.one, h2⟩

theorem pass_longer (h : Buffered recordSize s) (hs : 0 < recordSize) (j : ℕ) :
    s.handler.content.length ≤ (pass posix recordSize s j).handler.content.length ∧
      ((pass posix recordSize s j).Moves →
        recordSize*(j+2) ≤ (pass posix recordSize s j).handler.content.length) := by
  rcases pass_cases recordSize s j with ⟨-, heq⟩ | ⟨hstays, heq⟩
  · have h2 : (load2 posix recordSize s j).buffer2.length = recordSize :=
      load_length h.two s.handler j
    have hend : recordSize*(j+2) = recordSize*(j+1)+recordSize := Nat.mul_succ _ _
    rw [heq, length_store h2 hs, hend]
    exact ⟨Nat.le_max_left _ _, fun _ => Nat.le_max_right _ _⟩
  · refine ⟨?_, fun hmoves => absurd hmoves hstays⟩
    rw [heq]
    exact Nat.le_refl _

theorem shift_longer (hs : 0 < recordSize) (j : ℕ) (h : Buffered recordSize s) :
    Buffered recordSize (shift posix recordSize j s).1 ∧
      s.handler.content.length ≤ (shift posix recordSize j s).1.handler.content.length ∧
      (recordSize*(j+2) ≤ (shift posix recordSize j s).1.handler.content.length ∨
        place (shift posix recordSize j s).1 (shift posix recordSize j s).2 = j+1) := by
  induction j generalizing s with
  | zero =>
    obtain ⟨hlonger, hmoved⟩ := pass_longer h hs 0
    refine ⟨pass_buffered h 0, hlonger, ?_⟩
    by_cases hm : (pass posix recordSize s 0).Moves
    · exact Or.inl (hmoved hm)
    · exact Or.inr (place_stayed hm (-1))
  | succ j ih =>
    obtain ⟨hlonger, hmoved⟩ := pass_longer h hs (j+1)
    have hbuffered := pass_buffered h (j+1)
    by_cases hm : (pass posix recordSize s (j+1)).Moves
    · obtain ⟨hb, hl, -⟩ := ih hbuffered
      simp only [shift, if_pos hm]
      exact ⟨hb, Nat.le_trans hlonger hl, Or.inl (Nat.le_trans (hmoved hm) hl)⟩
    · simp only [shift, if_neg hm]
      refine ⟨hbuffered, hlonger, Or.inr ?_⟩
      rw [place_stayed hm]
      push_cast
      ring

theorem insertRecord_longer (hs : 0 < recordSize) (j : ℕ) (h : Buffered recordSize s) :
    Buffered recordSize (insertRecord posix recordSize s (j+1)) ∧
      recordSize*(j+2) ≤ (insertRecord posix recordSize s (j+1)).handler.content.length := by
  have hload : Buffered recordSize (load1 posix recordSize s (j+1)) :=
    ⟨load_length h.one s.handler (j+1), h.two⟩
  obtain ⟨hb, -, hwritten⟩ := shift_longer hs j hload
  refine ⟨⟨hb.one, hb.two⟩, ?_⟩
  simp only [insertRecord, Nat.add_sub_cancel]
  rw [length_store hb.one hs]
  rcases hwritten with hlong | hplace
  · exact Nat.le_trans hlong (Nat.le_max_left _ _)
  · have hoffset : ((recordSize:ℤ)*((j:ℤ)+1)).toNat+recordSize = recordSize*(j+2) := by
      rw [← Nat.cast_succ, ← Nat.cast_mul, Int.toNat_natCast]
      exact (Nat.mul_succ _ _).symm
    rw [hplace, hoffset]
    exact Nat.le_max_right _ _

end

theorem insertRecords_buffered (hs : 0 < recordSize) (content : Text) (k : ℕ) :
    Buffered recordSize (insertRecords posix recordSize (start recordSize content) k) := by
  induction k with
  | zero => exact ⟨List.length_replicate, List.length_replicate⟩
  | succ k ih => exact (insertRecord_longer hs k ih).1

theorem keeps_within {content : Text} {n : ℤ} (mode : Mode) (hs : 1 ≤ recordSize) {m : ℕ}
    (hm : content.length = recordSize*m) (hn : n.toNat ≤ m) :
    KeepsRecords content n recordSize mode := by
  obtain ⟨rs, rest, rfl, hsized, hlen⟩ := begins_with hm.ge
  have hrest : rest = [] := by
    rw [List.length_append, hsized.flatten_length, hlen] at hm
    exact List.length_eq_zero_iff.mp (by omega)
  subst hrest
  obtain ⟨hfirst, hlast⟩ := sized_append.mp ((List.take_append_drop n.toNat rs).symm ▸ hsized)
  obtain ⟨sorted, hsorted, hsort⟩ := sort_sorts hfirst (rs.drop n.toNat).flatten mode
  have hperm : (sorted++rs.drop n.toNat).Perm rs := by
    conv_rhs => rw [← List.take_append_drop n.toNat rs]
    exact hsorted.rearranged.append_right _
  have hsized' : Sized recordSize (sorted++rs.drop n.toNat) := hsized.perm hperm
  rw [List.length_take_of_le (hlen ▸ hn), ← List.flatten_append, ← List.flatten_append,
    List.take_append_drop, ← sort_toNat] at hsort
  rw [List.append_nil]
  refine ⟨_, hsort, ?_, ?_⟩
  · rw [hsized'.flatten_length, hsized.flatten_length, hperm.length_eq]
  · rw [recordsOf_flatten hs hsized', recordsOf_flatten hs hsized]
    exact hperm

/-- A file of whole records keeps them exactly if no more are to be sorted than
it has, or none at all. -/
theorem keeps_iff (content : Text) (recordSize : ℕ) (n : ℤ) (mode : Mode) (hs : 1 ≤ recordSize)
    (hwhole : recordSize ∣ content.length) :
    KeepsRecords content n recordSize mode ↔ n ≤ max (content.length/recordSize:ℕ) 1 := by
  obtain ⟨m, hm⟩ := hwhole
  have hcount : content.length/recordSize = m := by
    rw [hm, Nat.mul_div_cancel_left _ hs]
  rw [hcount]
  constructor
  · rintro ⟨result, hsort, hlen, -⟩
    by_contra hn
    obtain ⟨k, hk⟩ : ∃ k : ℕ, (n-1).toNat = k+1 := ⟨(n-2).toNat, by omega⟩
    have hlonger := (insertRecord_longer hs k (insertRecords_buffered hs content k)).2
    simp only [sort, calls_eq, hk, Option.some.injEq] at hsort
    rw [← insertRecords, hsort, hlen, hm] at hlonger
    have hle := Nat.le_of_mul_le_mul_left hlonger hs
    omega
  · intro hn
    rcases Nat.lt_or_ge m n.toNat with hlt | hle
    · -- at most one record: the outer loop is not entered
      have hturns : (n-1).toNat = 0 := by omega
      refine ⟨content, ?_, rfl, List.Perm.refl _⟩
      simp only [sort, hturns]
      rfl
    · exact keeps_within mode hs hm hle

theorem keeps_iff_small :
    KeepsRecords [3, 30, 1, 10] 2 2 .sys ↔ (2:ℤ) ≤ max (([3, 30, 1, 10]:Text).length/2:ℕ) 1 :=
  keeps_iff [3, 30, 1, 10] 2 2 .sys (by decide) (by decide)

/-- Two records sorted as three: the second one is written a third time. -/
theorem third_record_appended :
    sort (some [3, 30, 1, 10]) 3 2 .sys = some [1, 10, 1, 10, 3, 30] ∧
      ¬ KeepsRecords [3, 30, 1, 10] 3 2 .sys := by
  have hsort : sort (some [3, 30, 1, 10]) 3 2 .sys = some [1, 10, 1, 10, 3, 30] := by
    decide
  refine ⟨hsort, ?_⟩
  rintro ⟨result, hresult, hlen, -⟩
  rw [hsort] at hresult
  cases hresult
  cases hlen

end Semestr4.FileSortGrowth
