import Mathlib.Algebra.BigOperators.Group.Finset.Basic
import Mathlib.Algebra.BigOperators.Intervals
import Mathlib.Algebra.Order.Ring.Int
import Semestr4.SeekableFile

/-!
# Copying the beginning of a file

The number of bytes still wanted is compared with what each read delivers, as
signed numbers of 32 bits. In one mode the reads are those of the standard
library and deliver all there is, in the other the system decides how much a
read delivers and may report an error.
-/

set_option autoImplicit false

namespace Semestr4.FileCopy
open Semestr4.ByteText Semestr4.SeekableFile

def int32 (z : ℤ) : ℤ := Int.bmod z (2^32)

inductive Got where
  | bytes (data : Text)
  | error
  deriving DecidableEq, Repr

def Got.result : Got → ℤ
  | .bytes data => data.length
  | .error => -1

def Got.delivered : Got → Text
  | .bytes data => data
  | .error => []

structure Copying where
  buffer : Text
  recNum : ℤ
  destination : Handle
  deriving DecidableEq, Repr

def writeLength (recNum buf : ℤ) : ℤ := if int32 (recNum-buf) > 0 then buf else recNum

/-- The system refuses a negative length and writes nothing. -/
def writeBytes (h : Handle) (buffer : Text) (length : ℤ) : Handle :=
  write h (buffer.take length.toNat)

structure Outcome where
  iterations : List (Got × ℤ)
  destination : Text
  finished : Bool
  deriving DecidableEq, Repr

/-- The loop, for as many reads as the fuel allows. -/
def copyLoop {ρ : Type} (next : ρ → Got × ρ) : ℕ → ρ → Copying → Outcome
  | 0, _, c => ⟨[], c.destination.content, false⟩
  | fuel+1, source, c =>
    let (got, source) := next source
    let buffer := fill c.buffer got.delivered
    if got.result ≠ 0 ∧ c.recNum > 0 then
      let length := writeLength c.recNum got.result
      let outcome := copyLoop next fuel source
        ⟨buffer, int32 (c.recNum-got.result), writeBytes c.destination buffer length⟩
      { outcome with iterations := (got, length)::outcome.iterations }
    else ⟨[], c.destination.content, true⟩

/-- `fread` in one mode. -/
def freadNext (bufferSize : ℕ) (h : Handle) : Got × Handle :=
  let (data, h) := read h bufferSize
  (.bytes data, h)

/-- `read` in the other, by the results that the system gives one after another. -/
def readNext (results : ℕ → Got) : Got × (ℕ → Got) := (results 0, fun k => results (k+1))

/-- The destination is truncated when it is opened. -/
def start (howManyRecords recordSize : ℤ) (bufferSize : ℕ) : Copying :=
  ⟨List.replicate bufferSize 0, int32 (howManyRecords*recordSize), ⟨[], 0⟩⟩

/-- Nothing where a file cannot be opened. -/
def copyLib (source destination : Option Text) (howManyRecords : ℤ) (bufferSize : ℕ)
    (recordSize : ℤ) (fuel : ℕ) : Option Outcome :=
  match source, destination with
  | some content, some _ => some (copyLoop (freadNext bufferSize) fuel ⟨content, 0⟩
      (start howManyRecords recordSize bufferSize))
  | _, _ => none

def copySys (source : Option (ℕ → Got)) (destination : Option Text) (howManyRecords : ℤ)
    (bufferSize : ℕ) (recordSize : ℤ) (fuel : ℕ) : Option Outcome :=
  match source, destination with
  | some results, some _ => some (copyLoop readNext fuel results
      (start howManyRecords recordSize bufferSize))
  | _, _ => none

theorem int32_of_range {z : ℤ} (hlow : -2^31 ≤ z) (hhigh : z < 2^31) : int32 z = z := by
  unfold int32
  rw [Int.bmod_def]
  omega

theorem int32_range (z : ℤ) : -2^31 ≤ int32 z ∧ int32 z < 2^31 := by
  unfold int32
  rw [Int.bmod_def]
  omega

theorem int32_rest {recNum : ℤ} {n bufferSize : ℕ} (hlow : 0 < recNum) (hhigh : recNum < 2^31)
    (hn : n ≤ bufferSize) (hb : bufferSize < 2^31) : int32 (recNum-n) = recNum-n :=
  int32_of_range (by omega) (by omega)

theorem writeLength_eq {recNum : ℤ} {n bufferSize : ℕ} (hlow : 0 < recNum) (hhigh : recNum < 2^31)
    (hn : n ≤ bufferSize) (hb : bufferSize < 2^31) :
    writeLength recNum n = (min n recNum.toNat : ℕ) := by
  rw [writeLength, int32_rest hlow hhigh hn hb]
  split <;> omega

section
variable {ρ : Type} {next : ρ → Got × ρ} {fuel : ℕ} {source : ρ} {c : Copying}

theorem copyLoop_stops (h : (next source).1.result = 0 ∨ c.recNum ≤ 0) :
    copyLoop next (fuel+1) source c = ⟨[], c.destination.content, true⟩ := by
  have hstop : ¬ ((next source).1.result ≠ 0 ∧ c.recNum > 0) := by omega
  simp only [copyLoop, if_neg hstop]

def Copying.after (c : Copying) (data : Text) : Copying :=
  ⟨fill c.buffer data, c.recNum-data.length,
    writeBytes c.destination (fill c.buffer data) (min data.length c.recNum.toNat : ℕ)⟩

@[simp] theorem after_recNum (c : Copying) (data : Text) :
    (c.after data).recNum = c.recNum-data.length := rfl

theorem copyLoop_writes {bufferSize : ℕ} {data : Text} (hgot : (next source).1 = .bytes data)
    (hne : data ≠ []) (hlen : data.length ≤ bufferSize) (hb : bufferSize < 2^31)
    (hlow : 0 < c.recNum) (hhigh : c.recNum < 2^31) :
    copyLoop next (fuel+1) source c =
      ⟨(.bytes data, (min data.length c.recNum.toNat : ℕ))::
          (copyLoop next fuel (next source).2 (c.after data)).iterations,
        (copyLoop next fuel (next source).2 (c.after data)).destination,
        (copyLoop next fuel (next source).2 (c.after data)).finished⟩ := by
  have hpos : 0 < data.length := List.length_pos_iff.mpr hne
  have hresult : (next source).1.result = data.length := by rw [hgot, Got.result]
  have hdelivered : (next source).1.delivered = data := by rw [hgot, Got.delivered]
  have hgo : (next source).1.result ≠ 0 ∧ c.recNum > 0 := ⟨by omega, hlow⟩
  simp only [copyLoop, if_pos hgo, hdelivered]
  rw [hresult, int32_rest hlow hhigh hlen hb, writeLength_eq hlow hhigh hlen hb, hgot]
  rfl

/-- A failed read is taken for a read of minus one byte. -/
theorem copyLoop_fails (hgot : (next source).1 = .error) (hlow : 0 < c.recNum) :
    0 < (copyLoop next (fuel+1) source c).iterations.length := by
  have hgo : (next source).1.result ≠ 0 ∧ c.recNum > 0 := by
    rw [hgot, Got.result]
    exact ⟨by decide, hlow⟩
  simp only [copyLoop, if_pos hgo, List.length_cons]
  exact Nat.succ_pos _

end

end Semestr4.FileCopy
