import Mathlib.Data.List.Induction
import Semestr4.BlockLibrary

/-!
# Blocks added to both arrays

The same blocks are added at the same positions to the static and to the
dynamic array, in any interleaving of the two kinds of calls. The static array
never changes; what changes are the blocks themselves, each into a copy of the
row where it was added last.
-/

set_option autoImplicit false

namespace Semestr4.BlockStorage
open Semestr4.ByteText Semestr4.BlockLibrary

inductive Call where
  | addBlockStatic (block position : ℕ)
  | addBlockDynamic (block position : ℕ)
  deriving DecidableEq, Repr

def perform (blockSize : ℕ) (m : Memory) : Call → Memory
  | .addBlockStatic block position => m.addBlockStatic block position blockSize
  | .addBlockDynamic block position => m.addBlockDynamic block position

def performAll (blockSize : ℕ) (calls : List Call) (m : Memory) : Memory :=
  calls.foldl (perform blockSize) m

def Call.static? : Call → Option (ℕ × ℕ)
  | .addBlockStatic block position => some (block, position)
  | .addBlockDynamic .. => none

def Call.dynamic? : Call → Option (ℕ × ℕ)
  | .addBlockStatic .. => none
  | .addBlockDynamic block position => some (block, position)

def MakesBoth (calls : List Call) (adds : List (ℕ × ℕ)) : Prop :=
  calls.filterMap Call.static? = adds ∧ calls.filterMap Call.dynamic? = adds

def lastAdded (adds : List (ℕ × ℕ)) (position : ℕ) : Option ℕ :=
  (adds.reverse.find? fun add => add.2 = position).map Prod.fst

def lastPosition (adds : List (ℕ × ℕ)) (block : ℕ) : Option ℕ :=
  (adds.reverse.find? fun add => add.1 = block).map Prod.snd

/-- The arguments are within both arrays and the blocks are allocated. -/
structure Fits (m : Memory) (adds : List (ℕ × ℕ)) (blockSize : ℕ) : Prop where
  positions : ∀ add ∈ adds, add.2 < m.array.length ∧ add.2 < 8192
  allocated : ∀ add ∈ adds, ∃ bytes, m.blocks add.1 = some bytes ∧ blockSize ≤ bytes.length
  size : blockSize ≤ 8192

structure StoredAlike (start final : Memory) (adds : List (ℕ × ℕ)) (blockSize : ℕ) : Prop where
  pointers : ∀ position block, lastAdded adds position = some block →
    pointer final.array position = some block
  rows : ∀ position block, lastAdded adds position = some block → ∃ bytes,
    final.blocks block = some bytes ∧
    (final.staticArray position).take blockSize = bytes.take blockSize
  others : ∀ position, lastAdded adds position = none →
    final.staticArray position = start.staticArray position ∧
    pointer final.array position = pointer start.array position
  kept : ∀ add ∈ adds, final.blocks add.1 = start.blocks add.1

/-- The rows hold already what is added, and copying the rows into the blocks
changes none of them. -/
structure HeldBefore (start : Memory) (adds : List (ℕ × ℕ)) (blockSize : ℕ) : Prop where
  rows : ∀ position block, lastAdded adds position = some block → ∃ bytes,
    start.blocks block = some bytes ∧
    (start.staticArray position).take blockSize = bytes.take blockSize
  copies : ∀ block position, lastPosition adds block = some position → ∃ bytes,
    start.blocks block = some bytes ∧
    strncpy bytes (start.staticArray position) blockSize = bytes

theorem find_last_snoc (key : ℕ × ℕ → ℕ) (adds : List (ℕ × ℕ)) (add : ℕ × ℕ) (k : ℕ) :
    (adds++[add]).reverse.find? (fun a => key a = k) =
      if key add = k then some add else adds.reverse.find? fun a => key a = k := by
  rw [List.reverse_append, List.reverse_singleton, List.singleton_append, List.find?_cons]
  by_cases h : key add = k <;> simp [h]

theorem find_last_mem {key : ℕ × ℕ → ℕ} {adds : List (ℕ × ℕ)} {add : ℕ × ℕ} {k : ℕ}
    (h : adds.reverse.find? (fun a => key a = k) = some add) : add ∈ adds ∧ key add = k := by
  have hk := List.find?_some h
  rw [decide_eq_true_eq] at hk
  exact ⟨List.mem_reverse.mp (List.mem_of_find?_eq_some h), hk⟩

theorem lastAdded_snoc (adds : List (ℕ × ℕ)) (block position p : ℕ) :
    lastAdded (adds++[(block, position)]) p =
      if position = p then some block else lastAdded adds p := by
  rw [lastAdded, find_last_snoc Prod.snd, apply_ite (Option.map Prod.fst)]
  rfl

theorem lastPosition_snoc (adds : List (ℕ × ℕ)) (block position b : ℕ) :
    lastPosition (adds++[(block, position)]) b =
      if block = b then some position else lastPosition adds b := by
  rw [lastPosition, find_last_snoc Prod.fst, apply_ite (Option.map Prod.snd)]
  rfl

theorem lastAdded_mem {adds : List (ℕ × ℕ)} {position block : ℕ}
    (h : lastAdded adds position = some block) : (block, position) ∈ adds := by
  obtain ⟨⟨b, p⟩, hfind, rfl⟩ := Option.map_eq_some_iff.mp h
  obtain ⟨hmem, rfl⟩ := find_last_mem hfind
  exact hmem

theorem lastPosition_mem {adds : List (ℕ × ℕ)} {position block : ℕ}
    (h : lastPosition adds block = some position) : (block, position) ∈ adds := by
  obtain ⟨⟨b, p⟩, hfind, rfl⟩ := Option.map_eq_some_iff.mp h
  obtain ⟨hmem, rfl⟩ := find_last_mem hfind
  exact hmem

theorem lastPosition_exists {adds : List (ℕ × ℕ)} {add : ℕ × ℕ} (h : add ∈ adds) :
    ∃ position, lastPosition adds add.1 = some position := by
  have hfind : (adds.reverse.find? fun a => decide (a.1 = add.1)).isSome := by
    rw [List.find?_isSome]
    exact ⟨add, List.mem_reverse.mpr h, decide_eq_true rfl⟩
  obtain ⟨found, hfound⟩ := Option.isSome_iff_exists.mp hfind
  exact ⟨found.2, by rw [lastPosition, hfound, Option.map_some]⟩

theorem strncpy_strncpy (destination source later : Text) (n : ℕ) :
    strncpy (strncpy destination source n) later n = strncpy destination later n := by
  have hlen : ((cstring source).take n).length ≤ n := List.length_take_le n _
  have hrest : (strncpy destination source n).drop n = destination.drop n := by
    unfold strncpy
    rw [List.drop_left']
    rw [List.length_append, List.length_replicate]
    omega
  rw [strncpy, hrest]
  rfl

theorem pointer_set (array : List (Option ℕ)) {position : ℕ} (h : position < array.length)
    (block p : ℕ) : pointer (array.set position (some block)) p =
      if position = p then some block else pointer array p := by
  unfold pointer
  rw [List.getElem?_set]
  by_cases hp : position = p
  · subst hp
    simp [h]
  · simp [hp]

def copied (start : Memory) (adds : List (ℕ × ℕ)) (blockSize b : ℕ) : Option Text :=
  match lastPosition adds b with
  | some p => (start.blocks b).map fun bytes => strncpy bytes (start.staticArray p) blockSize
  | none => start.blocks b

theorem copied_snoc (start : Memory) (adds : List (ℕ × ℕ)) (blockSize block position b : ℕ) :
    copied start (adds++[(block, position)]) blockSize b =
      if block = b then (copied start adds blockSize b).map fun bytes =>
        strncpy bytes (start.staticArray position) blockSize
      else copied start adds blockSize b := by
  unfold copied
  rw [lastPosition_snoc]
  by_cases hb : block = b
  · rw [if_pos hb, if_pos hb]
    cases lastPosition adds b with
    | none => rfl
    | some p =>
      simp only [Option.map_map]
      congr 1
      funext bytes
      exact (strncpy_strncpy bytes (start.staticArray p) _ blockSize).symm
  · rw [if_neg hb, if_neg hb]

structure Performed (blockSize : ℕ) (start : Memory) (calls : List Call) (final : Memory) :
    Prop where
  static : final.staticArray = start.staticArray
  length : final.array.length = start.array.length
  pointers : ∀ p, pointer final.array p =
    (lastAdded (calls.filterMap Call.dynamic?) p).or (pointer start.array p)
  blocks : ∀ b, final.blocks b = copied start (calls.filterMap Call.static?) blockSize b

theorem Performed.addBlockStatic {blockSize : ℕ} {start final : Memory} {calls : List Call}
    (h : Performed blockSize start calls final) (block position : ℕ) :
    Performed blockSize start (calls++[.addBlockStatic block position])
      (perform blockSize final (.addBlockStatic block position)) := by
  refine ⟨h.static, h.length, ?_, ?_⟩
  · intro p
    rw [List.filterMap_append]
    show _ = (lastAdded (calls.filterMap Call.dynamic?++[]) p).or _
    rw [List.append_nil]
    exact h.pointers p
  · intro b
    rw [List.filterMap_append]
    show Function.update final.blocks block _ b =
      copied start (calls.filterMap Call.static?++[(block, position)]) blockSize b
    rw [copied_snoc, ← h.blocks b, h.static]
    by_cases hb : block = b
    · rw [if_pos hb, ← hb, Function.update_self]
    · rw [if_neg hb, Function.update_of_ne (Ne.symm hb)]

theorem Performed.addBlockDynamic {blockSize : ℕ} {start final : Memory} {calls : List Call}
    (h : Performed blockSize start calls final) (block : ℕ) {position : ℕ}
    (hposition : position < start.array.length) :
    Performed blockSize start (calls++[.addBlockDynamic block position])
      (perform blockSize final (.addBlockDynamic block position)) := by
  rw [← h.length] at hposition
  refine ⟨h.static, ?_, ?_, ?_⟩
  · exact (List.length_set ..).trans h.length
  · intro p
    rw [List.filterMap_append]
    show pointer (final.array.set position (some block)) p =
      (lastAdded (calls.filterMap Call.dynamic?++[(block, position)]) p).or _
    rw [pointer_set _ hposition, lastAdded_snoc]
    by_cases hp : position = p
    · rw [if_pos hp, if_pos hp]
      rfl
    · rw [if_neg hp, if_neg hp]
      exact h.pointers p
  · intro b
    rw [List.filterMap_append]
    show _ = copied start (calls.filterMap Call.static?++[]) blockSize b
    rw [List.append_nil]
    exact h.blocks b

theorem performAll_performed (blockSize : ℕ) (start : Memory) (calls : List Call)
    (h : ∀ add ∈ calls.filterMap Call.dynamic?, add.2 < start.array.length) :
    Performed blockSize start calls (performAll blockSize calls start) := by
  induction calls using List.reverseRecOn with
  | nil => exact ⟨rfl, rfl, fun p => rfl, fun b => rfl⟩
  | append_singleton calls call ih =>
    rw [List.filterMap_append, List.forall_mem_append] at h
    have hrun : performAll blockSize (calls++[call]) start =
        perform blockSize (performAll blockSize calls start) call := List.foldl_concat ..
    rw [hrun]
    cases call with
    | addBlockStatic block position => exact (ih h.1).addBlockStatic block position
    | addBlockDynamic block position =>
      exact (ih h.1).addBlockDynamic block (h.2 (block, position) (List.mem_singleton_self _))

/-- Both arrays hold what was added and the caller keeps the blocks, exactly if
the rows held it before. -/
theorem storedAlike_iff (start : Memory) (calls : List Call) (adds : List (ℕ × ℕ))
    (blockSize : ℕ) (hboth : MakesBoth calls adds) (hfits : Fits start adds blockSize) :
    StoredAlike start (performAll blockSize calls start) adds blockSize ↔
      HeldBefore start adds blockSize := by
  obtain ⟨hs, hd⟩ := hboth
  obtain ⟨hstatic, -, hpointers, hblocks⟩ := performAll_performed blockSize start calls
    (fun add hadd => (hfits.positions add (hd ▸ hadd)).1)
  rw [hd] at hpointers
  rw [hs] at hblocks
  constructor
  · intro h
    constructor
    · intro position block hlast
      obtain ⟨bytes, hbytes, hrow⟩ := h.rows position block hlast
      rw [h.kept _ (lastAdded_mem hlast)] at hbytes
      rw [hstatic] at hrow
      exact ⟨bytes, hbytes, hrow⟩
    · intro block position hlast
      obtain ⟨bytes, hbytes, -⟩ := hfits.allocated _ (lastPosition_mem hlast)
      refine ⟨bytes, hbytes, ?_⟩
      have hkept := h.kept _ (lastPosition_mem hlast)
      rw [hblocks, copied, hlast, hbytes] at hkept
      exact Option.some.inj hkept
  · intro h
    have hkept : ∀ add ∈ adds, (performAll blockSize calls start).blocks add.1 =
        start.blocks add.1 := by
      intro add hadd
      obtain ⟨position, hlast⟩ := lastPosition_exists hadd
      obtain ⟨bytes, hbytes, hcopy⟩ := h.copies add.1 position hlast
      rw [hblocks, copied, hlast, hbytes]
      exact congrArg some hcopy
    refine ⟨?_, ?_, ?_, hkept⟩
    · intro position block hlast
      rw [hpointers, hlast]
      rfl
    · intro position block hlast
      obtain ⟨bytes, hbytes, hrow⟩ := h.rows position block hlast
      rw [hkept _ (lastAdded_mem hlast), hstatic]
      exact ⟨bytes, hbytes, hrow⟩
    · intro position hlast
      rw [hstatic, hpointers, hlast]
      exact ⟨rfl, rfl⟩

def twoLetters : Memory where
  staticArray position := (if position = 0 then 97 else 98)::List.replicate 8191 0
  blocks b := if b = 0 then some [97] else if b = 1 then some [98] else none
  array := [none, none]

def twoAdded : List Call :=
  [.addBlockStatic 0 0, .addBlockDynamic 0 0, .addBlockDynamic 1 1, .addBlockStatic 1 1]

theorem storedAlike_iff_small :
    StoredAlike twoLetters (performAll 1 twoAdded twoLetters) [(0, 0), (1, 1)] 1 ↔
      HeldBefore twoLetters [(0, 0), (1, 1)] 1 :=
  storedAlike_iff twoLetters twoAdded [(0, 0), (1, 1)] 1 ⟨rfl, rfl⟩
    { positions := by decide
      allocated := by
        intro add hadd
        simp only [List.mem_cons, List.not_mem_nil, or_false] at hadd
        rcases hadd with rfl | rfl
        · exact ⟨[97], rfl, by decide⟩
        · exact ⟨[98], rfl, by decide⟩
      size := by decide }

def oneLetter : Memory where
  staticArray _ := List.replicate 8192 0
  blocks b := if b = 0 then some [97] else none
  array := [none]

/-- The letter is not stored in the row; the row is stored in the block. -/
theorem letter_cleared :
    (performAll 1 [.addBlockStatic 0 0, .addBlockDynamic 0 0] oneLetter).blocks 0 = some [0] ∧
    ¬ StoredAlike oneLetter
      (performAll 1 [.addBlockStatic 0 0, .addBlockDynamic 0 0] oneLetter) [(0, 0)] 1 := by
  have hcleared : (performAll 1 [.addBlockStatic 0 0, .addBlockDynamic 0 0] oneLetter).blocks 0 =
      some [0] := by
    decide
  refine ⟨hcleared, fun h => ?_⟩
  have hkept := h.kept (0, 0) (List.mem_singleton_self _)
  rw [hcleared] at hkept
  exact absurd hkept (by decide)

end Semestr4.BlockStorage
