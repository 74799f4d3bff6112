import Semestr4.BlockSearch

/-!
# The elements that the search of the dynamic array reads

The first loop of `findBlockDyn` tests the element before the bound. It leaves
the array where no other block stops it, and reads the element behind its end.
What it finds there has no influence on the result.
-/

set_option autoImplicit false

namespace Semestr4.BlockAccess
open Semestr4.ByteText Semestr4.LastMatch Semestr4.BlockLibrary Semestr4.BlockSearch

variable {m : Memory} {element : ℕ → Option ℕ} {position arraySize : ℕ}

/-- The indices `k` of the elements `array[k]` read, in order, and the block returned. -/
structure Search where
  reads : List ℕ
  found : Option ℕ
  deriving DecidableEq, Repr

def skipping (element : ℕ → Option ℕ) (position arraySize : ℕ) : ℕ → ℕ → List ℕ × ℕ
  | 0, first => ([], first)
  | fuel+1, first =>
    -- the element is read whether or not the index is below the bound
    if (element first = none ∨ first = position) ∧ first < arraySize then
      let rest := skipping element position arraySize fuel (first+1)
      (first::rest.1, rest.2)
    else ([first], first)

def roundReads (element : ℕ → Option ℕ) (position i : ℕ) : List ℕ :=
  if element i ≠ none ∧ i ≠ position then [i, i, position] else [i]

/-- The search over the elements at the address of the array, inside it and
beyond. -/
def findBlockDyn (blocks : ℕ → Option Text) (element : ℕ → Option ℕ)
    (position arraySize blockSize : ℕ) : Search :=
  if element position = none then ⟨[position], none⟩
  else
    let (skipped, first) := skipping element position arraySize (arraySize+1) 0
    if first = arraySize then ⟨position::skipped, none⟩
    else
      let blockAt i := ((element i).bind blocks).getD []
      let d i := distance (blockAt i) (blockAt position) blockSize
      let rounds := indices (first+1) arraySize
      let best := lastMatch (fun i => (element i ≠ none ∧ i ≠ position) ∧ d i < d first) first rounds
      ⟨position::skipped++[first, position]++rounds.flatMap (roundReads element position)++[best],
        element best⟩

def Holds (m : Memory) (element : ℕ → Option ℕ) : Prop :=
  ∀ k < m.array.length, element k = pointer m.array k

def Inside (s : Search) (arraySize : ℕ) : Prop := ∀ k ∈ s.reads, k < arraySize

structure StopsAt (m : Memory) (position first : ℕ) (reads : List ℕ) (last : ℕ) : Prop where
  start : first ≤ last
  bound : last ≤ m.array.length
  reads : ∀ k, k ∈ reads ↔ first ≤ k ∧ k ≤ last
  before : ∀ i, first ≤ i → i < last → ¬ Other m position m.array.length i
  other : last < m.array.length → Other m position m.array.length last

theorem StopsAt.here {first : ℕ} (hbound : first ≤ m.array.length)
    (h : first < m.array.length → Other m position m.array.length first) :
    StopsAt m position first [first] first where
  start := Nat.le_refl first
  bound := hbound
  reads k := by
    rw [List.mem_singleton]
    omega
  before i hi hlt := absurd hlt (by omega)
  other := h

theorem StopsAt.later {first last : ℕ} {reads : List ℕ}
    (hfirst : ¬ Other m position m.array.length first)
    (h : StopsAt m position (first+1) reads last) : StopsAt m position first (first::reads) last where
  start := by have := h.start; omega
  bound := h.bound
  reads k := by
    rw [List.mem_cons, h.reads]
    have := h.start
    omega
  before i hi hlt := by
    rcases Nat.eq_or_lt_of_le hi with rfl | hi
    · exact hfirst
    · exact h.before i hi hlt
  other := h.other

theorem skipping_stops (hmem : Holds m element) {fuel first : ℕ} (hbound : first ≤ m.array.length)
    (hfuel : m.array.length < first+fuel) :
    StopsAt m position first (skipping element position m.array.length fuel first).1
      (skipping element position m.array.length fuel first).2 := by
  induction fuel generalizing first with
  | zero => omega
  | succ fuel ih =>
    rw [skipping]
    split
    · rename_i hskip
      refine StopsAt.later ?_ (ih hskip.2 (by omega))
      rintro ⟨hlt, hp, hne⟩
      rw [hmem first hlt] at hskip
      rcases hskip.1 with hnull | heq
      · exact hp hnull
      · exact hne heq
    · rename_i hstop
      apply StopsAt.here hbound
      intro hlt
      rw [hmem first hlt] at hstop
      exact ⟨hlt, fun hnull => hstop ⟨Or.inl hnull, hlt⟩, fun heq => hstop ⟨Or.inr heq, hlt⟩⟩

theorem skipping_skip (hmem : Holds m element) {fuel first : ℕ}
    (hfuel : first+fuel = m.array.length) :
    (skipping element position m.array.length (fuel+1) first).2 =
      skip m.array position m.array.length fuel first := by
  induction fuel generalizing first with
  | zero =>
    rw [skipping, if_neg (fun h => by omega)]
    rfl
  | succ fuel ih =>
    rw [skipping, skip, hmem first (by omega)]
    split
    · exact ih (by omega)
    · rfl

theorem first_loop (hmem : Holds m element) (position : ℕ) :
    ∃ skipped first, skipping element position m.array.length (m.array.length+1) 0 =
      (skipped, first) ∧ StopsAt m position 0 skipped first ∧
      skip m.array position m.array.length m.array.length 0 = first := by
  have hfuel : m.array.length < 0+(m.array.length+1) := by omega
  exact ⟨_, _, rfl, skipping_stops hmem (Nat.zero_le _) hfuel,
    (skipping_skip hmem (Nat.zero_add _)).symm⟩

theorem lastMatch_inside {p : ℕ → Prop} [DecidablePred p] {first size : ℕ} (h : first < size) :
    lastMatch p first (indices (first+1) size) < size := by
  rcases lastMatch_mem (p := p) first (indices (first+1) size) with heq | hmem
  · rw [heq]
    exact h
  · exact (mem_indices.mp hmem).2

theorem roundReads_inside {i k size : ℕ} (hi : i < size) (hpos : position < size)
    (hk : k ∈ roundReads element position i) : k < size := by
  unfold roundReads at hk
  split at hk <;> simp at hk <;> omega

theorem found_eq (hmem : Holds m element) (hpos : position < m.array.length) (blockSize : ℕ) :
    (findBlockDyn m.blocks element position m.array.length blockSize).found =
      m.findBlockDyn position m.array.length blockSize := by
  obtain ⟨skipped, first, hloop, hstops, hskip⟩ := first_loop hmem position
  rw [findBlockDyn, Memory.findBlockDyn, Memory.selectDyn, hmem position hpos, hloop]
  simp only [hskip]
  split
  · rfl
  · split
    · rfl
    · rename_i hne
      have hfirst : first < m.array.length := Nat.lt_of_le_of_ne hstops.bound hne
      let nearer (i : ℕ) : Prop := (pointer m.array i ≠ none ∧ i ≠ position) ∧
        distance (m.blockAt i) (m.blockAt position) blockSize <
          distance (m.blockAt first) (m.blockAt position) blockSize
      refine Eq.trans (congrArg element (lastMatch_congr (q := nearer) fun i hi => ?_))
        (hmem _ (lastMatch_inside hfirst))
      have hi' : i < m.array.length := (mem_indices.mp hi).2
      simp only [nearer, hmem i hi', hmem position hpos, hmem first hfirst]
      rfl

theorem reads_inside_iff (hmem : Holds m element) (hpos : position < m.array.length)
    (blockSize : ℕ) :
    Inside (findBlockDyn m.blocks element position m.array.length blockSize) m.array.length ↔
      pointer m.array position = none ∨ ∃ i, Other m position m.array.length i := by
  obtain ⟨skipped, first, hloop, hstops, -⟩ := first_loop hmem position
  rw [findBlockDyn, hmem position hpos, hloop]
  split
  · rename_i hnull
    refine iff_of_true ?_ (Or.inl hnull)
    exact fun k hk => List.mem_singleton.mp hk ▸ hpos
  · rename_i hp
    simp only
    split
    · rename_i hend
      apply iff_of_false
      · intro hinside
        have hread : first ∈ skipped := (hstops.reads first).mpr ⟨Nat.zero_le _, Nat.le_refl _⟩
        exact absurd (hinside first (List.mem_cons_of_mem position hread)) (by omega)
      · rintro (hnull | ⟨i, hi⟩)
        · exact hp hnull
        · exact hstops.before i (Nat.zero_le i) (hend ▸ hi.1) hi
    · rename_i hne
      have hfirst : first < m.array.length := Nat.lt_of_le_of_ne hstops.bound hne
      refine iff_of_true ?_ (Or.inr ⟨_, hstops.other hfirst⟩)
      intro k hk
      simp only [List.mem_append, List.mem_cons, List.mem_flatMap, List.not_mem_nil, or_false] at hk
      rcases hk with (((rfl | hk) | rfl | rfl) | ⟨i, hi, hk⟩) | rfl
      · exact hpos
      · exact Nat.lt_of_le_of_lt ((hstops.reads k).mp hk).2 hfirst
      · exact hfirst
      · exact hpos
      · exact roundReads_inside (mem_indices.mp hi).2 hpos hk
      · exact lastMatch_inside hfirst

theorem found_none (hmem : Holds m element) (blockSize : ℕ)
    (h : ¬ ∃ i, Other m position m.array.length i) :
    (findBlockDyn m.blocks element position m.array.length blockSize).found = none := by
  obtain ⟨skipped, first, hloop, hstops, -⟩ := first_loop hmem position
  have hend : first = m.array.length := by
    by_contra hne
    exact h ⟨first, hstops.other (Nat.lt_of_le_of_ne hstops.bound hne)⟩
  rw [findBlockDyn, hloop]
  simp only [if_pos hend]
  split <;> rfl

/-- The search reads only elements of the array, and returns nothing where there
is no other block, if and only if the position is empty or there is another block. -/
theorem search_inside_iff (m : Memory) (element : ℕ → Option ℕ) (position blockSize : ℕ)
    (hmem : Holds m element) (hpos : position < m.array.length) :
    (Inside (findBlockDyn m.blocks element position m.array.length blockSize) m.array.length ∧
      ((¬ ∃ i, Other m position m.array.length i) →
        (findBlockDyn m.blocks element position m.array.length blockSize).found = none)) ↔
      pointer m.array position = none ∨ ∃ i, Other m position m.array.length i := by
  rw [reads_inside_iff hmem hpos blockSize]
  exact and_iff_left (found_none hmem blockSize)

theorem search_inside_small :
    Inside (findBlockDyn (bytesAt [10, 50]).blocks (pointer (bytesAt [10, 50]).array) 0 2 1) 2 :=
  ((search_inside_iff (bytesAt [10, 50]) (pointer (bytesAt [10, 50]).array) 0 1 (fun _ _ => rfl)
    (by decide)).mpr (Or.inr ⟨1, by decide, by decide, by decide⟩)).1

/-- Where the only element is a block, the one behind it is read. -/
theorem read_behind_end : ¬ ∀ (m : Memory) (element : ℕ → Option ℕ) (position blockSize : ℕ),
    Holds m element → position < m.array.length →
    Inside (findBlockDyn m.blocks element position m.array.length blockSize) m.array.length ∧
      ((¬ ∃ i, Other m position m.array.length i) →
        (findBlockDyn m.blocks element position m.array.length blockSize).found = none) := by
  intro h
  have hread := h (bytesAt [10]) (pointer (bytesAt [10]).array) 0 1 (fun _ _ => rfl) (by decide)
  exact absurd (hread.1 1 (by decide)) (by decide)

end Semestr4.BlockAccess
