import Semestr4.BlockLibrary

/-!
# The searches for a near block

Both searches compare every block with the first candidate only, so that they
end with the last block that is nearer than it. The starting candidates and
the ranges of the two loops differ, but not the block found.
-/

set_option autoImplicit false

namespace Semestr4.BlockSearch
open Semestr4.ByteText Semestr4.LastMatch Semestr4.BlockLibrary

variable {m : Memory} {position arraySize blockSize : ℕ}

/-- The positions of the blocks among which one is searched. -/
def Other (m : Memory) (position arraySize i : ℕ) : Prop :=
  i < arraySize ∧ pointer m.array i ≠ none ∧ i ≠ position

def apart (m : Memory) (position blockSize i : ℕ) : ℤ :=
  distance (m.blockAt i) (m.blockAt position) blockSize

def FindsNearest (m : Memory) (position arraySize blockSize : ℕ) : Prop :=
  ∃ best, Other m position arraySize best ∧
    m.findBlockDyn position arraySize blockSize = pointer m.array best ∧
    ∀ i, Other m position arraySize i →
      apart m position blockSize best ≤ apart m position blockSize i

/-- Of the other blocks nearer than the first one, the last is the nearest. -/
def LastIsNearest (m : Memory) (position arraySize blockSize : ℕ) : Prop :=
  ∀ first last, Other m position arraySize first →
    (∀ i < first, ¬ Other m position arraySize i) →
    Other m position arraySize last →
    apart m position blockSize last < apart m position blockSize first →
    (∀ i, Other m position arraySize i → last < i →
      apart m position blockSize first ≤ apart m position blockSize i) →
    ∀ i, Other m position arraySize i →
      apart m position blockSize last ≤ apart m position blockSize i

theorem mem_indices {start stop i : ℕ} : i ∈ indices start stop ↔ start ≤ i ∧ i < stop := by
  rw [indices, List.mem_range'_1]
  omega

theorem indices_sorted (start stop : ℕ) : (indices start stop).Pairwise (· < ·) :=
  List.pairwise_lt_range'

theorem skip_first {fuel first : ℕ} (hfuel : arraySize ≤ first+fuel)
    (hbefore : ∀ i < first, ¬ Other m position arraySize i)
    (h : ∃ i, Other m position arraySize i) :
    Other m position arraySize (skip m.array position arraySize fuel first) ∧
      ∀ i < skip m.array position arraySize fuel first, ¬ Other m position arraySize i := by
  induction fuel generalizing first with
  | zero =>
    obtain ⟨i, hi⟩ := h
    exact absurd hi (hbefore i (by have := hi.1; omega))
  | succ fuel ih =>
    rw [skip]
    split
    · rename_i hskip
      refine ih (by omega) fun i hi => ?_
      rcases Nat.lt_succ_iff_lt_or_eq.mp hi with hi | rfl
      · exact hbefore i hi
      · rintro ⟨-, hp, hne⟩
        rcases hskip.1 with hnull | heq
        · exact hp hnull
        · exact hne heq
    · rename_i hstop
      have hfirst : first < arraySize := by
        obtain ⟨i, hi⟩ := h
        by_contra hle
        exact hbefore i (by have := hi.1; omega) hi
      refine ⟨⟨hfirst, ?_, ?_⟩, hbefore⟩
      · exact fun hnull => hstop ⟨Or.inl hnull, hfirst⟩
      · exact fun heq => hstop ⟨Or.inr heq, hfirst⟩

theorem skip_stops (h : ∃ i, Other m position arraySize i) :
    Other m position arraySize (skip m.array position arraySize arraySize 0) ∧
      ∀ i < skip m.array position arraySize arraySize 0, ¬ Other m position arraySize i :=
  skip_first (by omega) (fun i hi => by cases hi) h

/-- What the second loop ends with: the first candidate where none is nearer,
else the last that is. -/
theorem selectDyn_some (blockSize : ℕ) (hpos : pointer m.array position ≠ none)
    (h : ∃ i, Other m position arraySize i) :
    ∃ first best, m.selectDyn position arraySize blockSize = some best ∧
      Other m position arraySize first ∧ (∀ i < first, ¬ Other m position arraySize i) ∧
      Other m position arraySize best ∧
      ((best = first ∧ ∀ i, Other m position arraySize i →
          apart m position blockSize first ≤ apart m position blockSize i) ∨
        (apart m position blockSize best < apart m position blockSize first ∧
          ∀ i, Other m position arraySize i → best < i →
            apart m position blockSize first ≤ apart m position blockSize i)) := by
  obtain ⟨hother, hbefore⟩ := skip_stops h
  generalize hfirst : skip m.array position arraySize arraySize 0 = first at hother hbefore
  have hne : first ≠ arraySize := Nat.ne_of_lt hother.1
  have hlater : ∀ i, Other m position arraySize i → i = first ∨
      i ∈ indices (first+1) arraySize := by
    intro i hi
    rcases Nat.lt_trichotomy i first with hlt | heq | hgt
    · exact absurd hi (hbefore i hlt)
    · exact Or.inl heq
    · exact Or.inr (mem_indices.mpr ⟨hgt, hi.1⟩)
  let nearer (i : ℕ) : Prop := (pointer m.array i ≠ none ∧ i ≠ position) ∧
    apart m position blockSize i < apart m position blockSize first
  have hselect : m.selectDyn position arraySize blockSize =
      some (lastMatch nearer first (indices (first+1) arraySize)) := by
    rw [Memory.selectDyn, if_neg hpos]
    simp only [hfirst, if_neg hne]
    rfl
  by_cases hnearer : ∃ i ∈ indices (first+1) arraySize, nearer i
  · obtain ⟨hmem, hbest, hlast⟩ :=
      lastMatch_some first (indices_sorted (first+1) arraySize) hnearer
    generalize lastMatch nearer first (indices (first+1) arraySize) = best at *
    have hrange := mem_indices.mp hmem
    refine ⟨first, best, hselect, hother, hbefore, ⟨hrange.2, hbest.1⟩, Or.inr ⟨hbest.2, ?_⟩⟩
    intro i hi hlt
    have hi' : i ∈ indices (first+1) arraySize := mem_indices.mpr ⟨by omega, hi.1⟩
    exact not_lt.mp fun hd => hlast i hi' hlt ⟨hi.2, hd⟩
  · have hnone : ∀ i ∈ indices (first+1) arraySize, ¬ nearer i :=
      fun i hi hn => hnearer ⟨i, hi, hn⟩
    rw [lastMatch_none hnone] at hselect
    refine ⟨first, first, hselect, hother, hbefore, hother, Or.inl ⟨rfl, ?_⟩⟩
    intro i hi
    rcases hlater i hi with rfl | hmem
    · exact le_refl _
    · exact not_lt.mp fun hd => hnone i hmem ⟨hi.2, hd⟩

theorem apart_pointer {i k : ℕ} (h : pointer m.array i = pointer m.array k) :
    apart m position blockSize i = apart m position blockSize k := by
  rw [apart, apart, Memory.blockAt, h]
  rfl

theorem first_unique {i k : ℕ} (hi : Other m position arraySize i)
    (hi' : ∀ j < i, ¬ Other m position arraySize j) (hk : Other m position arraySize k)
    (hk' : ∀ j < k, ¬ Other m position arraySize j) : i = k := by
  rcases Nat.lt_trichotomy i k with hlt | heq | hgt
  · exact absurd hi (hk' i hlt)
  · exact heq
  · exact absurd hk (hi' k hgt)

/-- The search finds a nearest block exactly if the last block that is nearer
than the first one is. -/
theorem findsNearest_iff (m : Memory) (position arraySize blockSize : ℕ)
    (hpos : pointer m.array position ≠ none)
    (h : ∃ i, Other m position arraySize i) :
    FindsNearest m position arraySize blockSize ↔ LastIsNearest m position arraySize blockSize := by
  obtain ⟨first, best, hselect, hfirst, hbefore, hbest, hend⟩ :=
    selectDyn_some blockSize hpos h
  have hfind : m.findBlockDyn position arraySize blockSize = pointer m.array best := by
    rw [Memory.findBlockDyn, hselect]
    rfl
  constructor
  · rintro ⟨found, -, hfound, hnearest⟩ first' last hfirst' hbefore' hlast hnearer hafter i hi
    obtain rfl := first_unique hfirst hbefore hfirst' hbefore'
    have hsame : apart m position blockSize found = apart m position blockSize best :=
      apart_pointer (hfound.symm.trans hfind)
    rw [hsame] at hnearest
    rcases hend with ⟨rfl, hall⟩ | ⟨hlt, hnone⟩
    · exact absurd hnearer (not_lt.mpr (hall last hlast))
    · have heq : last = best := by
        rcases Nat.lt_trichotomy last best with hl | heq | hg
        · exact absurd hlt (not_lt.mpr (hafter best hbest hl))
        · exact heq
        · exact absurd hnearer (not_lt.mpr (hnone last hlast hg))
      rw [heq]
      exact hnearest i hi
  · intro hlast
    refine ⟨best, hbest, hfind, ?_⟩
    rcases hend with ⟨rfl, hall⟩ | ⟨hlt, hnone⟩
    · exact hall
    · exact hlast first best hfirst hbefore hbest hlt hnone

def bytesAt (bytes : Text) : Memory where
  staticArray i := [bytes.getD i 0]
  blocks b := (bytes[b]?).map fun byte => [byte]
  array := (List.range bytes.length).map some

theorem findsNearest_iff_small :
    FindsNearest (bytesAt [10, 50, 12]) 0 3 1 ↔ LastIsNearest (bytesAt [10, 50, 12]) 0 3 1 :=
  findsNearest_iff (bytesAt [10, 50, 12]) 0 3 1 (by decide) ⟨1, by decide, by decide, by decide⟩

/-- The block at 2 has the same sum as the one at 0, but the last block nearer
than the one at 1 is returned. -/
theorem last_nearer_found :
    (bytesAt [10, 50, 10, 30]).findBlockDyn 0 4 1 = some 3 ∧
      ¬ FindsNearest (bytesAt [10, 50, 10, 30]) 0 4 1 := by
  have hfind : (bytesAt [10, 50, 10, 30]).findBlockDyn 0 4 1 = some 3 := by
    decide
  refine ⟨hfind, ?_⟩
  rintro ⟨best, hbest, hfound, hnearest⟩
  have hsame : apart (bytesAt [10, 50, 10, 30]) 0 1 best = apart (bytesAt [10, 50, 10, 30]) 0 1 3 :=
    apart_pointer (hfound.symm.trans hfind)
  have hle := hnearest 2 ⟨by decide, by decide, by decide⟩
  rw [hsame] at hle
  exact absurd hle (by decide)

def SameBytes (m : Memory) (arraySize blockSize : ℕ) : Prop :=
  ∀ i < arraySize, pointer m.array i ≠ none ∧
    (m.blockAt i).take blockSize = (m.staticArray i).take blockSize

theorem sumChar_congr {block other : Text} (h : block.take blockSize = other.take blockSize) :
    sumChar block blockSize = sumChar other blockSize := by
  rw [sumChar, h]
  rfl

def candidate (position : ℕ) : ℕ := if position = 0 then 1 else 0

theorem candidate_first (position : ℕ) (hsize : 2 ≤ arraySize) (h : SameBytes m arraySize blockSize) :
    Other m position arraySize (candidate position) ∧
      ∀ i < candidate position, ¬ Other m position arraySize i := by
  unfold candidate
  split
  · rename_i hzero
    refine ⟨⟨hsize, (h 1 hsize).1, by omega⟩, fun i hi hother => hother.2.2 (by omega)⟩
  · rename_i hne
    exact ⟨⟨by omega, (h 0 (by omega)).1, Ne.symm hne⟩, fun i hi => by cases hi⟩

theorem skip_candidate (position : ℕ) (hsize : 2 ≤ arraySize) (h : SameBytes m arraySize blockSize) :
    skip m.array position arraySize arraySize 0 = candidate position := by
  obtain ⟨hother, hbefore⟩ := candidate_first position hsize h
  obtain ⟨hother', hbefore'⟩ := skip_stops ⟨_, hother⟩
  exact first_unique hother' hbefore' hother hbefore

theorem select_same (position : ℕ) (hsize : 2 ≤ arraySize) (hpos : position < arraySize)
    (h : SameBytes m arraySize blockSize) :
    m.selectDyn position arraySize blockSize =
      some (m.selectStat position arraySize blockSize) := by
  have hfirst := skip_candidate position hsize h
  have hlt : candidate position < arraySize := (candidate_first position hsize h).1.1
  have hsame : ∀ i < arraySize, distance (m.blockAt i) (m.blockAt position) blockSize =
      distance (m.staticArray i) (m.staticArray position) blockSize := by
    intro i hi
    rw [distance, distance, sumChar_congr (h i hi).2, sumChar_congr (h position hpos).2]
  have hcongr : ∀ l : List ℕ, (∀ i ∈ l, i < arraySize) →
      lastMatch (fun i => (pointer m.array i ≠ none ∧ i ≠ position) ∧
        distance (m.blockAt i) (m.blockAt position) blockSize <
          distance (m.blockAt (candidate position)) (m.blockAt position) blockSize)
        (candidate position) l =
      lastMatch (fun i => i ≠ position ∧
        distance (m.staticArray i) (m.staticArray position) blockSize <
          distance (m.staticArray (candidate position)) (m.staticArray position) blockSize)
        (candidate position) l := by
    intro l hl
    apply lastMatch_congr
    intro i hi
    rw [hsame i (hl i hi), hsame _ hlt]
    constructor
    · exact fun hi' => ⟨hi'.1.2, hi'.2⟩
    · exact fun hi' => ⟨⟨(h i (hl i hi)).1, hi'.1⟩, hi'.2⟩
  have hdyn : m.selectDyn position arraySize blockSize =
      some (lastMatch (fun i => (pointer m.array i ≠ none ∧ i ≠ position) ∧
        distance (m.blockAt i) (m.blockAt position) blockSize <
          distance (m.blockAt (candidate position)) (m.blockAt position) blockSize)
        (candidate position) (indices (candidate position+1) arraySize)) := by
    rw [Memory.selectDyn, if_neg (h position hpos).1]
    simp only [hfirst, if_neg (Nat.ne_of_lt hlt)]
  rw [hdyn, hcongr _ (fun i hi => (mem_indices.mp hi).2)]
  congr 1
  by_cases hzero : position = 0
  · -- the static search compares its candidate with itself once more
    subst hzero
    have hagain : indices 1 arraySize = 1::indices 2 arraySize := by
      rw [indices, indices, show arraySize-1 = (arraySize-2)+1 by omega, List.range'_succ]
    rw [Memory.selectStat]
    simp only [hagain, candidate, if_pos]
    exact (lastMatch_cons_neg (fun hlt => lt_irrefl _ hlt.2) _).symm
  · have hcandidate : candidate position = 0 := if_neg hzero
    rw [Memory.selectStat]
    simp only [if_neg hzero, hcandidate]

/-- Both searches select the same index, and so a block and a row with the same bytes. -/
theorem selects_same (m : Memory) (position arraySize blockSize : ℕ) (hsize : 2 ≤ arraySize)
    (hpos : position < arraySize) (h : SameBytes m arraySize blockSize) :
    m.selectDyn position arraySize blockSize =
        some (m.selectStat position arraySize blockSize) ∧
      ∃ block, m.findBlockDyn position arraySize blockSize = some block ∧
        ((m.blocks block).getD []).take blockSize =
          (m.findBlockStat position arraySize blockSize).take blockSize := by
  have hselect := select_same position hsize hpos h
  obtain ⟨-, best, hbest, -, -, ⟨hlt, -, -⟩, -⟩ :=
    selectDyn_some blockSize (h position hpos).1 ⟨_, (candidate_first position hsize h).1⟩
  obtain rfl := Option.some.inj (hselect.symm.trans hbest)
  obtain ⟨hpointer, hbytes⟩ := h _ hlt
  obtain ⟨block, hblock⟩ := Option.ne_none_iff_exists'.mp hpointer
  refine ⟨hselect, block, ?_, ?_⟩
  · rw [Memory.findBlockDyn, hselect, Option.bind_some, hblock]
  · rwa [Memory.blockAt, hblock, Option.bind_some] at hbytes

theorem selects_same_small :
    (bytesAt [10, 50, 12]).selectDyn 0 3 1 = some ((bytesAt [10, 50, 12]).selectStat 0 3 1) ∧
      ∃ block, (bytesAt [10, 50, 12]).findBlockDyn 0 3 1 = some block ∧
        (((bytesAt [10, 50, 12]).blocks block).getD []).take 1 =
          ((bytesAt [10, 50, 12]).findBlockStat 0 3 1).take 1 :=
  selects_same (bytesAt [10, 50, 12]) 0 3 1 (by decide) (by decide)
    (by unfold SameBytes; decide)

end Semestr4.BlockSearch
