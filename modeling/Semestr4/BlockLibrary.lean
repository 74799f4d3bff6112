import Mathlib.Algebra.Order.Group.Unbundled.Abs
import Mathlib.Algebra.Order.Ring.Int
import Mathlib.Logic.Function.Basic
import Semestr4.ByteText
import Semestr4.LastMatch

/-!
# A library of character blocks

Blocks are kept in a static array of rows or behind the pointers of a dynamic
array. Adding to the dynamic array stores the pointer; adding to the static
one calls `strncpy` with the block as its destination.
-/

set_option autoImplicit false

namespace Semestr4.BlockLibrary
open Semestr4.ByteText Semestr4.LastMatch

def strncpy (destination source : Text) (n : ℕ) : Text :=
  let copied := (cstring source).take n
  copied++List.replicate (n-copied.length) 0++destination.drop n

/-- The rows of the static array, the blocks by their addresses (nothing where
none is allocated), and the dynamic array with its null pointers. -/
structure Memory where
  staticArray : ℕ → Text
  blocks : ℕ → Option Text
  array : List (Option ℕ)

def Memory.addBlockStatic (m : Memory) (block position blockSize : ℕ) : Memory :=
  let copy (bytes : Text) := strncpy bytes (m.staticArray position) blockSize
  { m with blocks := Function.update m.blocks block ((m.blocks block).map copy) }

def Memory.addBlockDynamic (m : Memory) (block position : ℕ) : Memory :=
  { m with array := m.array.set position (some block) }

/-- A `char` is signed. -/
def sumChar (block : Text) (blockSize : ℕ) : ℤ :=
  (block.take blockSize).foldl (fun sum b => sum+b.toInt8.toInt) 0

def pointer (array : List (Option ℕ)) (i : ℕ) : Option ℕ := (array[i]?).join

def Memory.blockAt (m : Memory) (i : ℕ) : Text := ((pointer m.array i).bind m.blocks).getD []

def distance (block other : Text) (blockSize : ℕ) : ℤ :=
  |sumChar block blockSize-sumChar other blockSize|

/-- The loop for the starting candidate, from `first` on. -/
def skip (array : List (Option ℕ)) (position arraySize : ℕ) : ℕ → ℕ → ℕ
  | 0, first => first
  | fuel+1, first =>
    if (pointer array first = none ∨ first = position) ∧ first < arraySize then
      skip array position arraySize fuel (first+1)
    else first

def indices (start stop : ℕ) : List ℕ := List.range' start (stop-start)

/-- The index `best` of `findBlockDyn`, or nothing where it returns before. -/
def Memory.selectDyn (m : Memory) (position arraySize blockSize : ℕ) : Option ℕ :=
  if pointer m.array position = none then none
  else
    let first := skip m.array position arraySize arraySize 0
    if first = arraySize then none
    else
      let d i := distance (m.blockAt i) (m.blockAt position) blockSize
      some (lastMatch (fun i => (pointer m.array i ≠ none ∧ i ≠ position) ∧ d i < d first) first
        (indices (first+1) arraySize))

def Memory.findBlockDyn (m : Memory) (position arraySize blockSize : ℕ) : Option ℕ :=
  (m.selectDyn position arraySize blockSize).bind (pointer m.array)

def Memory.selectStat (m : Memory) (position arraySize blockSize : ℕ) : ℕ :=
  let best := if position = 0 then 1 else 0
  let d i := distance (m.staticArray i) (m.staticArray position) blockSize
  lastMatch (fun i => i ≠ position ∧ d i < d best) best (indices 1 arraySize)

def Memory.findBlockStat (m : Memory) (position arraySize blockSize : ℕ) : Text :=
  m.staticArray (m.selectStat position arraySize blockSize)

end Semestr4.BlockLibrary
