import Mathlib.Algebra.Order.BigOperators.Group.Finset
import Semestr4.FileCopy

/-!
# A copy whose reads fail

The result of a read is taken for a length even where it is the error value.
As long as bytes are wanted the loop goes on with it: it writes with the length
of minus one and wants one byte more than before.
-/

set_option autoImplicit false

namespace Semestr4.FileCopyErrors
open Semestr4.ByteText Semestr4.SeekableFile Semestr4.FileCopy

def Possible (bufferSize : ℕ) (results : ℕ → Got) : Prop :=
  ∀ k data, results k = .bytes data → data.length ≤ bufferSize

/-- Every write has a length that the read before it delivered. -/
def WritesWithin (outcome : Outcome) : Prop :=
  ∀ it ∈ outcome.iterations, 0 ≤ it.2 ∧ it.2 ≤ it.1.delivered.length

/-- No iteration is made with a result of 0 or -1, nor after it. -/
def StopsAtEnd (results : ℕ → Got) (outcome : Outcome) : Prop :=
  ∀ k, (results k).result ≤ 0 → outcome.iterations.length ≤ k

def FailsLate (recNum : ℤ) (results : ℕ → Got) : Prop :=
  ∀ k, results k = .error → (∀ i < k, 0 < (results i).result) →
    recNum ≤ ∑ i ∈ Finset.range k, (results i).result

theorem readNext_snd (results : ℕ → Got) : (readNext results).2 = fun k => results (k+1) := rfl

theorem positive_bytes {got : Got} (h : 0 < got.result) :
    ∃ data, got = .bytes data ∧ data ≠ [] ∧ got.result = data.length := by
  cases got with
  | error => exact absurd h (by decide)
  | bytes data =>
    refine ⟨data, rfl, ?_, rfl⟩
    rintro rfl
    exact absurd h (by decide)

theorem nonpositive_cases {got : Got} (h : got.result ≤ 0) : got.result = 0 ∨ got = .error := by
  cases got with
  | error => exact Or.inr rfl
  | bytes data =>
    left
    rw [Got.result] at h ⊢
    omega

section
variable {bufferSize : ℕ} {results : ℕ → Got} {c : Copying}

theorem failsLate_next {data : Text} (hgot : results 0 = .bytes data) (hne : data ≠ []) :
    FailsLate c.recNum results → FailsLate (c.after data).recNum fun k => results (k+1) := by
  intro h k herror hpositive
  have hresult : (results 0).result = data.length := by rw [hgot, Got.result]
  have hall : ∀ i < k+1, 0 < (results i).result := by
    intro i hi
    cases i with
    | zero =>
      rw [hresult]
      exact Int.natCast_pos.mpr (List.length_pos_iff.mpr hne)
    | succ i => exact hpositive i (Nat.lt_of_succ_lt_succ hi)
  have hle := h (k+1) herror hall
  rw [Finset.sum_range_succ', hresult] at hle
  rw [after_recNum]
  exact Int.sub_right_le_of_le_add hle

/-- As long as no read fails early, the loop writes what it was delivered and
ends with the reads. -/
theorem loop_right (hpossible : Possible bufferSize results) (hb : bufferSize < 2^31)
    (hhigh : c.recNum < 2^31) (h : FailsLate c.recNum results) (fuel : ℕ) :
    WritesWithin (copyLoop readNext fuel results c) ∧
      StopsAtEnd results (copyLoop readNext fuel results c) := by
  have hnone : ∀ d f, WritesWithin ⟨[], d, f⟩ ∧ StopsAtEnd results ⟨[], d, f⟩ :=
    fun _ _ => ⟨List.forall_mem_nil _, fun k _ => Nat.zero_le k⟩
  induction fuel generalizing results c with
  | zero => exact hnone _ _
  | succ fuel ih =>
    rcases le_or_gt (results 0).result 0 with hend | hpos
    · have hstop : (readNext results).1.result = 0 ∨ c.recNum ≤ 0 := by
        rcases nonpositive_cases hend with hzero | herror
        · exact Or.inl hzero
        · exact Or.inr (h 0 herror (fun i hi => by cases hi))
      rw [copyLoop_stops hstop]
      exact hnone _ _
    · obtain ⟨data, hgot, hne, hresult⟩ := positive_bytes hpos
      rcases lt_or_ge 0 c.recNum with hwanted | hdone
      · rw [copyLoop_writes hgot hne (hpossible 0 data hgot) hb hwanted hhigh, readNext_snd]
        have hless : (c.after data).recNum < 2^31 := by
          rw [after_recNum]
          omega
        obtain ⟨hwithin, hstops⟩ := ih (fun k => hpossible (k+1)) hless (failsLate_next hgot hne h)
          (fun _ _ => ⟨List.forall_mem_nil _, fun k _ => Nat.zero_le k⟩)
        constructor
        · intro it hit
          rcases List.mem_cons.mp hit with rfl | hit
          · exact ⟨Int.natCast_nonneg _, Int.ofNat_le.mpr (Nat.min_le_left _ _)⟩
          · exact hwithin it hit
        · intro k hk
          cases k with
          | zero => exact absurd hk (not_le.mpr hpos)
          | succ k => exact Nat.succ_le_succ (hstops k hk)
      · rw [copyLoop_stops (Or.inr hdone)]
        exact hnone _ _

theorem loop_fails (hpossible : Possible bufferSize results) (hb : bufferSize < 2^31)
    (hhigh : c.recNum < 2^31) {k : ℕ} (herror : results k = .error)
    (hpositive : ∀ i < k, 0 < (results i).result)
    (hwanted : ∑ i ∈ Finset.range k, (results i).result < c.recNum) :
    k < (copyLoop readNext (k+1) results c).iterations.length := by
  induction k generalizing results c with
  | zero => exact copyLoop_fails herror (by simpa using hwanted)
  | succ k ih =>
    obtain ⟨data, hgot, hne, hresult⟩ := positive_bytes (hpositive 0 (Nat.succ_pos k))
    rw [Finset.sum_range_succ', hresult] at hwanted
    have hsum : 0 ≤ ∑ i ∈ Finset.range k, (results (i+1)).result :=
      Finset.sum_nonneg fun i hi =>
        (hpositive (i+1) (Nat.succ_lt_succ (Finset.mem_range.mp hi))).le
    have hlow : 0 < c.recNum := by omega
    have hless : (c.after data).recNum < 2^31 := by
      rw [after_recNum]
      omega
    have hnext : Possible bufferSize fun i => results (i+1) := fun i => hpossible (i+1)
    have hrest := ih hnext hless herror
      (fun i hi => hpositive (i+1) (Nat.succ_lt_succ hi)) (by rw [after_recNum]; omega)
    rw [copyLoop_writes hgot hne (hpossible 0 data hgot) hb hlow hhigh, readNext_snd]
    exact Nat.succ_lt_succ hrest

end

/-- The writes are within what was read and the loop ends with the reads,
exactly if no read fails while bytes are still wanted. -/
theorem reads_respected_iff (results : ℕ → Got) (old : Text) (howManyRecords recordSize : ℤ)
    (bufferSize : ℕ) (hint : bufferSize < 2^31) (hpossible : Possible bufferSize results) :
    (∀ fuel outcome,
      copySys (some results) (some old) howManyRecords bufferSize recordSize fuel =
        some outcome → WritesWithin outcome ∧ StopsAtEnd results outcome) ↔
    FailsLate (int32 (howManyRecords*recordSize)) results := by
  have hhigh : (start howManyRecords recordSize bufferSize).recNum < 2^31 :=
    (int32_range _).2
  constructor
  · intro h k herror hpositive
    by_contra hwanted
    have hlong := loop_fails (c := start howManyRecords recordSize bufferSize) hpossible hint
      hhigh herror hpositive (not_le.mp hwanted)
    have hstops := (h (k+1) _ rfl).2 k (by rw [herror]; decide)
    omega
  · intro h fuel outcome hcopy
    cases hcopy
    exact loop_right hpossible hint hhigh h fuel

theorem reads_respected_iff_small :
    (∀ fuel outcome,
      copySys (some fun _ => .bytes [1, 2]) (some []) 3 2 1 fuel = some outcome →
        WritesWithin outcome ∧ StopsAtEnd (fun _ => .bytes [1, 2]) outcome) ↔
    FailsLate (int32 (3*1)) fun _ => .bytes [1, 2] :=
  reads_respected_iff (fun _ => .bytes [1, 2]) [] 3 1 2 (by decide)
    (fun _ _ h => by cases h; decide)

/-- A directory as the source: every read fails, and every iteration writes
with the length -1. -/
theorem directory_never_ends :
    copySys (some fun _ => .error) (some []) 1 4 1 3 =
      some ⟨[(.error, -1), (.error, -1), (.error, -1)], [], false⟩ ∧
    ¬ ∀ fuel outcome, copySys (some fun _ => .error) (some []) 1 4 1 fuel = some outcome →
      WritesWithin outcome ∧ StopsAtEnd (fun _ => .error) outcome := by
  have hcopy : copySys (some fun _ => .error) (some []) 1 4 1 3 =
      some ⟨[(.error, -1), (.error, -1), (.error, -1)], [], false⟩ := by
    decide
  refine ⟨hcopy, fun h => ?_⟩
  have hwithin := (h 3 _ hcopy).1 (.error, -1) (List.mem_cons_self ..)
  exact absurd hwithin.1 (by decide)

end Semestr4.FileCopyErrors
