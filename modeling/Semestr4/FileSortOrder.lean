import Mathlib.Data.List.Induction
import Mathlib.Tactic.Ring
import Semestr4.FileSort
import Semestr4.StableInsertion

/-!
# The order in which a sort leaves the records

The inner loop splits the sorted part at the place of the next record. While
it runs, the record before the gap is in the file twice and the one in
`buffer1` not at all; the write behind the loop closes the gap.
-/

set_option autoImplicit false

namespace Semestr4.FileSortOrder
open Semestr4.ByteText Semestr4.SeekableFile Semestr4.RecordFile Semestr4.StableInsertion
open Semestr4.FileSort

variable {recordSize : ℕ}

def rank (r : Text) : ℕ := (first r).toNat

theorem load_record {handler : Handle} {buffer x after : Text} {before : List Text}
    (hbefore : Sized recordSize before) (hx : x.length = recordSize)
    (hbuffer : buffer.length = recordSize)
    (h : handler.content = before.flatten++(x++after)) :
    (load posix recordSize buffer handler before.length).1 = x := by
  have hread : available (seek handler (recordSize*before.length)) recordSize = x := by
    have hpart := available_part before.flatten x after
    rw [hbefore.flatten_length, hx, ← h] at hpart
    exact hpart
  show fill buffer (available (seek handler (recordSize*before.length)) recordSize) = x
  rw [hread, fill_whole (hx.trans hbuffer.symm)]

theorem store_record {s : Sorting} {before : List Text} {old new after : Text}
    (hbefore : Sized recordSize before) (hold : old.length = recordSize)
    (hnew : new.length = recordSize) (h : s.handler.content = before.flatten++(old++after)) :
    (store posix s (recordSize*before.length) new).handler.content =
      before.flatten++(new++after) := by
  show overwrite s.handler.content (recordSize*before.length) new = _
  rw [h, ← hbefore.flatten_length, overwrite_part (hnew.trans hold.symm)]

/-- The file has room for `x` between a sorted part and what comes after it. -/
structure Gap (recordSize : ℕ) (x : Text) (sorted : List Text) (s : Sorting) (after : Text) :
    Prop where
  sized : Sized recordSize sorted
  holding : s.buffer1 = x
  recordLong : x.length = recordSize
  buffered : s.buffer2.length = recordSize
  content : ∃ gap : Text, gap.length = recordSize ∧
    s.handler.content = sorted.flatten++(gap++after)

section
variable {x p after : Text} {sorted : List Text} {s : Sorting}

theorem load2_gap (h : Gap recordSize x (sorted++[p]) s after) :
    (load2 posix recordSize s sorted.length).buffer2 = p ∧
      Gap recordSize x (sorted++[p]) (load2 posix recordSize s sorted.length) after := by
  obtain ⟨gap, hgap, hcontent⟩ := h.content
  obtain ⟨hsorted, hp⟩ := sized_append.mp h.sized
  have hlong : p.length = recordSize := hp p (List.mem_singleton_self p)
  have hparts : (sorted++[p]).flatten++(gap++after) = sorted.flatten++(p++(gap++after)) := by
    simp
  have hload : (load2 posix recordSize s sorted.length).buffer2 = p :=
    load_record hsorted hlong h.buffered (hcontent.trans hparts)
  exact ⟨hload, h.sized, h.holding, h.recordLong, hload ▸ hlong, gap, hgap, hcontent⟩

theorem moves_iff (h1 : s.buffer1 = x) (h2 : s.buffer2 = p) : s.Moves ↔ rank x < rank p := by
  rw [Sorting.Moves, h1, h2, UInt8.lt_iff_toNat_lt]
  rfl

theorem pass_stays (h : Gap recordSize x (sorted++[p]) s after) (hle : rank p ≤ rank x) :
    (pass posix recordSize s sorted.length).buffer2 = p ∧
      Gap recordSize x (sorted++[p]) (pass posix recordSize s sorted.length) after := by
  obtain ⟨h2, hload⟩ := load2_gap h
  have hstays : ¬ (load2 posix recordSize s sorted.length).Moves :=
    (moves_iff hload.holding h2).not.mpr (Nat.not_lt.mpr hle)
  simp only [FileSort.pass, if_neg hstays]
  exact ⟨h2, hload⟩

theorem pass_moves (h : Gap recordSize x (sorted++[p]) s after) (hlt : rank x < rank p) :
    (pass posix recordSize s sorted.length).buffer2 = p ∧
      Gap recordSize x sorted (pass posix recordSize s sorted.length) (p++after) := by
  obtain ⟨h2, hload⟩ := load2_gap h
  have hmoves : (load2 posix recordSize s sorted.length).Moves :=
    (moves_iff hload.holding h2).mpr hlt
  have hlong : p.length = recordSize := h2 ▸ hload.buffered
  obtain ⟨gap, hgap, hcontent⟩ := hload.content
  have hstore := store_record h.sized hgap hlong hcontent
  rw [List.length_append, List.length_singleton] at hstore
  simp only [FileSort.pass, if_pos hmoves, h2]
  refine ⟨h2, (sized_append.mp h.sized).1, hload.holding, h.recordLong, hload.buffered, p,
    hlong, ?_⟩
  rw [hstore]
  simp

/-- The inner loop moves the greater records behind the gap and stops with the
gap at the place of the record. -/
theorem shift_gap {j : ℕ} (h : Gap recordSize x sorted s after) (hj : sorted.length = j+1) :
    ∃ front back, sorted = front++back ∧ Place rank x front back ∧
      Gap recordSize x front (shift posix recordSize j s).1 (back.flatten++after) ∧
      place (shift posix recordSize j s).1 (shift posix recordSize j s).2 = front.length := by
  induction j generalizing sorted s after with
  | zero =>
    obtain ⟨p, rfl⟩ := List.length_eq_one_iff.mp hj
    have hsingle : Gap recordSize x ([]++[p]) s after := h
    rcases Nat.lt_or_ge (rank x) (rank p) with hlt | hle
    · obtain ⟨h2, hgap⟩ := pass_moves hsingle hlt
      refine ⟨[], [p], rfl, ⟨?_, by simp⟩, by simpa [shift] using hgap, ?_⟩
      · intro b hb
        rwa [List.mem_singleton.mp hb]
      · exact place_moved ((moves_iff hgap.holding h2).mpr hlt) (-1)
    · obtain ⟨h2, hgap⟩ := pass_stays hsingle hle
      refine ⟨[p], [], rfl, ⟨by simp, by simpa using hle⟩, hgap, ?_⟩
      exact place_stayed ((moves_iff hgap.holding h2).not.mpr (Nat.not_lt.mpr hle)) (-1)
  | succ j ih =>
    obtain ⟨init, p, rfl⟩ : ∃ init p, sorted = init++[p] := by
      rcases List.eq_nil_or_concat' sorted with rfl | ⟨init, p, rfl⟩
      · cases hj
      · exact ⟨init, p, rfl⟩
    have hinit : init.length = j+1 := by
      simpa using hj
    rcases Nat.lt_or_ge (rank x) (rank p) with hlt | hle
    · obtain ⟨h2, hgap⟩ := pass_moves h hlt
      rw [hinit] at h2 hgap
      have hmoves : (pass posix recordSize s (j+1)).Moves :=
        (moves_iff hgap.holding h2).mpr hlt
      obtain ⟨front, back, hsplit, hplace, hfront, hat⟩ := ih hgap hinit
      refine ⟨front, back++[p], ?_, ⟨?_, hplace.last⟩, ?_, ?_⟩
      · rw [hsplit, List.append_assoc]
      · intro b hb
        rcases List.mem_append.mp hb with hb | hb
        · exact hplace.greater b hb
        · rwa [List.mem_singleton.mp hb]
      · simpa [shift, hmoves] using hfront
      · simpa [shift, hmoves] using hat
    · obtain ⟨h2, hgap⟩ := pass_stays h hle
      rw [hinit] at h2 hgap
      have hstays : ¬ (pass posix recordSize s (j+1)).Moves :=
        (moves_iff hgap.holding h2).not.mpr (Nat.not_lt.mpr hle)
      refine ⟨init++[p], [], (List.append_nil _).symm, ⟨by simp, by simpa using hle⟩, ?_, ?_⟩
      · simpa [shift, hstays] using hgap
      · simp only [shift, if_neg hstays]
        rw [place_stayed hstays, List.length_append, hinit]
        push_cast
        rfl

end

/-- One iteration of the outer loop inserts record `i` at its place among the
sorted ones before it, and changes nothing behind it. -/
theorem insertRecord_inserts {s : Sorting} {sorted : List Text} {x after : Text}
    (hsorted : Sized recordSize sorted) (hne : sorted ≠ []) (hx : x.length = recordSize)
    (h1 : s.buffer1.length = recordSize) (h2 : s.buffer2.length = recordSize)
    (h : s.handler.content = sorted.flatten++(x++after)) :
    ∃ front back, sorted = front++back ∧ Place rank x front back ∧
      (insertRecord posix recordSize s sorted.length).buffer1.length = recordSize ∧
      (insertRecord posix recordSize s sorted.length).buffer2.length = recordSize ∧
      (insertRecord posix recordSize s sorted.length).handler.content =
        (front++x::back).flatten++after := by
  obtain ⟨j, hj⟩ : ∃ j, sorted.length = j+1 :=
    Nat.exists_eq_succ_of_ne_zero (List.length_eq_zero_iff.not.mpr hne)
  have hgap : Gap recordSize x sorted (load1 posix recordSize s sorted.length) after :=
    ⟨hsorted, load_record hsorted hx h1 h, hx, h2, x, hx, h⟩
  obtain ⟨front, back, hsplit, hplace, hfront, hat⟩ := shift_gap hgap hj
  obtain ⟨gap, hlong, hcontent⟩ := hfront.content
  have hstep : insertRecord posix recordSize s sorted.length =
      store posix (shift posix recordSize j (load1 posix recordSize s sorted.length)).1
        (recordSize*front.length) x := by
    rw [insertRecord, hj]
    simp only [Nat.add_sub_cancel]
    rw [← hj, hat, hfront.holding, ← Nat.cast_mul, Int.toNat_natCast]
  refine ⟨front, back, hsplit, hplace, ?_, ?_, ?_⟩
  · rw [hstep]
    exact hfront.holding ▸ hx
  · rw [hstep]
    exact hfront.buffered
  · rw [hstep, store_record hfront.sized hlong hx hcontent]
    simp

/-- After `k` iterations the first `k+1` records are stably sorted and the rest
of the file is as it was. -/
theorem insertRecords_sorts {content : Text} {rs : List Text} (hsized : Sized recordSize rs)
    (tail : Text) (h : content = rs.flatten++tail) {k : ℕ} (hk : k < rs.length) :
    ∃ sorted, StablySorted rank (rs.take (k+1)) sorted ∧
      (insertRecords posix recordSize (start recordSize content) k).buffer1.length = recordSize ∧
      (insertRecords posix recordSize (start recordSize content) k).buffer2.length = recordSize ∧
      (insertRecords posix recordSize (start recordSize content) k).handler.content =
        sorted.flatten++((rs.drop (k+1)).flatten++tail) := by
  induction k with
  | zero =>
    cases rs with
    | nil => cases hk
    | cons r rest =>
      refine ⟨[r], stablySorted_single rank r, List.length_replicate, List.length_replicate, ?_⟩
      rw [insertRecords, start, h]
      simp
  | succ k ih =>
    obtain ⟨sorted, hsorted, h1, h2, hcontent⟩ := ih (Nat.lt_of_succ_lt hk)
    have hx : rs[k+1].length = recordSize := hsized _ (List.getElem_mem hk)
    have hpart : Sized recordSize sorted :=
      Sized.perm (fun r hr => hsized r (List.mem_of_mem_take hr)) hsorted.rearranged
    have hlen : sorted.length = k+1 := by
      rw [hsorted.rearranged.length_eq, List.length_take_of_le (Nat.le_of_lt hk)]
    have hne : sorted ≠ [] := List.ne_nil_of_length_eq_add_one hlen
    have hnext : rs.drop (k+1) = rs[k+1]::rs.drop (k+2) := List.drop_eq_getElem_cons hk
    rw [hnext, List.flatten_cons, List.append_assoc] at hcontent
    obtain ⟨front, back, hsplit, hplace, h1', h2', hcontent'⟩ :=
      insertRecord_inserts hpart hne hx h1 h2 hcontent
    rw [hlen] at h1' h2' hcontent'
    refine ⟨front++rs[k+1]::back, ?_, h1', h2', hcontent'⟩
    rw [List.take_succ_eq_append_getElem hk]
    exact (hsplit ▸ hsorted).insert hplace

theorem sort_sorts {rs : List Text} (hsized : Sized recordSize rs) (tail : Text) (mode : Mode) :
    ∃ sorted, StablySorted rank rs sorted ∧
      sort (some (rs.flatten++tail)) rs.length recordSize mode = some (sorted.flatten++tail) := by
  cases hrs : rs with
  | nil => exact ⟨[], stablySorted_nil rank, rfl⟩
  | cons r rest =>
    rw [← hrs]
    have hk : rest.length < rs.length := by
      rw [hrs]
      exact Nat.lt_succ_self _
    obtain ⟨sorted, hsorted, -, -, hcontent⟩ := insertRecords_sorts hsized tail rfl hk
    have hlen : rest.length+1 = rs.length := by
      rw [hrs]
      rfl
    rw [hlen, List.take_length] at hsorted
    rw [hlen, List.drop_length, List.flatten_nil, List.nil_append] at hcontent
    refine ⟨sorted, hsorted, ?_⟩
    have hturns : ((rs.length:ℤ)-1).toNat = rest.length := by
      omega
    simp only [sort, calls_eq, hturns, hcontent]

theorem sort_toNat (file : Option Text) (n : ℤ) (recordSize : ℕ) (mode : Mode) :
    sort file n recordSize mode = sort file n.toNat recordSize mode := by
  have hturns : (n-1).toNat = ((n.toNat:ℤ)-1).toNat := by
    omega
  unfold sort
  rw [hturns]

/-- A sort of the first `n` complete records leaves them stably sorted by their
first byte, and everything behind them as it was. -/
theorem sort_stable (content : Text) (recordSize : ℕ) (n : ℤ) (mode : Mode) (hs : 1 ≤ recordSize)
    (hn : n ≤ (recordsOf recordSize content).length) :
    ∃ result, sort (some content) n recordSize mode = some result ∧
      StablySorted rank ((recordsOf recordSize content).take n.toNat)
        ((recordsOf recordSize result).take n.toNat) ∧
      result.length = content.length ∧
      result.drop (recordSize*n.toNat) = content.drop (recordSize*n.toNat) := by
  have hn : n.toNat ≤ (recordsOf recordSize content).length := Int.toNat_le.mpr hn
  rw [sort_toNat]
  have hlong : recordSize*n.toNat ≤ content.length := by
    rw [recordsOf, List.length_map, List.length_range, Nat.le_div_iff_mul_le hs] at hn
    rwa [Nat.mul_comm]
  obtain ⟨rs, tail, rfl, hsized, hcount⟩ := begins_with hlong
  rw [← hcount]
  obtain ⟨sorted, hsorted, hsort⟩ := sort_sorts hsized tail mode
  have hsized' := hsized.perm hsorted.rearranged
  have hlen := hsorted.rearranged.length_eq
  have htake := recordsOf_take hs hsized' tail
  rw [hlen] at htake
  refine ⟨sorted.flatten++tail, hsort, ?_, ?_, ?_⟩
  · rw [htake, recordsOf_take hs hsized tail]
    exact hsorted
  · rw [List.length_append, List.length_append, hsized'.flatten_length, hsized.flatten_length, hlen]
  · rw [← hsized.flatten_length, List.drop_left, hsized.flatten_length, ← hlen,
      ← hsized'.flatten_length, List.drop_left]

theorem sort_stable_small :
    ∃ result, sort (some [3, 30, 1, 10, 2, 20, 1, 11, 9]) 4 2 .lib = some result ∧
      StablySorted rank ((recordsOf 2 [3, 30, 1, 10, 2, 20, 1, 11, 9]).take 4)
        ((recordsOf 2 result).take 4) ∧
      result.length = 9 ∧ result.drop (2*4) = [9] :=
  sort_stable [3, 30, 1, 10, 2, 20, 1, 11, 9] 2 4 .lib (by decide) (by decide)

end Semestr4.FileSortOrder
