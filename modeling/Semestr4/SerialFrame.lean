import Mathlib.Data.List.OfFn

/-!
# Frames on a serial line

A word goes over the line as a start bit, its bits from the lowest to the
highest, and a stop bit. Between the frames the line is high. A listener reads
one sample for each bit time and needs nothing else to know where a frame starts.
-/

set_option autoImplicit false

namespace Semestr4.SerialFrame

variable {w : ℕ}

/-- The bits of a word, from the lowest. -/
def bits (b : BitVec w) : List Bool := List.ofFn fun i : Fin w => b[i]

def word (w : ℕ) (bs : List Bool) : BitVec w := (BitVec.ofBoolListLE bs).setWidth w

/-- The bits that were read of a frame that is not complete, and the words so far. -/
structure Listener (w : ℕ) where
  pending : Option (List Bool)
  received : List (BitVec w)
  deriving DecidableEq

def Listener.quiet (w : ℕ) : Listener w := ⟨none, []⟩

/-- One sample. A stop bit that is low is an error of the frame, which is dropped. -/
def Listener.sample (r : Listener w) (x : Bool) : Listener w :=
  match r.pending with
  | none => if x then r else { r with pending := some [] }
  | some bs =>
    if bs.length < w then { r with pending := some (bs++[x]) }
    else if x then ⟨none, r.received++[word w bs]⟩
    else { r with pending := none }

def Listener.listen (r : Listener w) (line : List Bool) : Listener w := line.foldl sample r

@[simp] theorem bits_length (b : BitVec w) : (bits b).length = w := List.length_ofFn

theorem bits_getElem (b : BitVec w) (k : ℕ) (hk : k < w) : (bits b)[k]? = some b[k] := by
  simp [bits, hk]

@[simp] theorem word_bits (b : BitVec w) : word w (bits b) = b := by
  apply BitVec.eq_of_getLsbD_eq
  intro i hi
  rw [word, BitVec.getLsbD_setWidth, BitVec.getLsbD_ofBoolListLE]
  simp [bits, hi]

theorem bits_take_succ (b : BitVec w) (k : ℕ) (hk : k < w) :
    (bits b).take (k+1) = (bits b).take k++[b[k]] := by
  rw [List.take_add_one, bits_getElem b k hk, Option.toList_some]

namespace Listener

theorem listen_append (r : Listener w) (line rest : List Bool) :
    r.listen (line++rest) = (r.listen line).listen rest := List.foldl_append

theorem sample_idle (rs : List (BitVec w)) : sample ⟨none, rs⟩ true = ⟨none, rs⟩ := rfl

theorem sample_start (rs : List (BitVec w)) : sample ⟨none, rs⟩ false = ⟨some [], rs⟩ := rfl

theorem sample_bit (b : BitVec w) (rs : List (BitVec w)) (k : ℕ) (hk : k < w) :
    sample ⟨some ((bits b).take k), rs⟩ b[k] = ⟨some ((bits b).take (k+1)), rs⟩ := by
  have hlength : ((bits b).take k).length < w := by
    rw [List.length_take, bits_length]
    omega
  simp only [sample, if_pos hlength, bits_take_succ b k hk]

theorem sample_stop (b : BitVec w) (rs : List (BitVec w)) :
    sample ⟨some (bits b), rs⟩ true = ⟨none, rs++[b]⟩ := by
  simp [sample]

end Listener

end Semestr4.SerialFrame
