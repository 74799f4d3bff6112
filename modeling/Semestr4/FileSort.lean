import Mathlib.Data.Int.Notation
import Semestr4.RecordFile

/-!
# Sorting a file of records in place

An insertion sort that moves records inside the file through two buffers. The
two modes are the same statements with the calls of the standard library and
of the system. No result of a read is looked at.
-/

set_option autoImplicit false

namespace Semestr4.FileSort
open Semestr4.ByteText Semestr4.SeekableFile

inductive Mode where
  | lib
  | sys
  deriving DecidableEq, Repr

structure Calls where
  seek : Handle → ℕ → Handle
  read : Handle → ℕ → Text × Handle
  write : Handle → Text → Handle

/-- `fread` and `fwrite` transfer elements of one byte. -/
def stdio : Calls where
  seek h offset := seek h offset
  read h count := read h (1*count)
  write h data := write h data

def posix : Calls where
  seek h offset := seek h offset
  read h count := read h count
  write h data := write h data

def Mode.calls : Mode → Calls
  | .lib => stdio
  | .sys => posix

structure Sorting where
  handler : Handle
  buffer1 : Text
  buffer2 : Text
  deriving DecidableEq, Repr

/-- The unsigned byte by which records are compared. -/
def first (buffer : Text) : UInt8 := buffer.headD 0

section
variable (calls : Calls) (recordSize : ℕ)

def load (buffer : Text) (handler : Handle) (k : ℕ) : Text × Handle :=
  let (data, handler) := calls.read (calls.seek handler (recordSize*k)) recordSize
  (fill buffer data, handler)

def load1 (s : Sorting) (i : ℕ) : Sorting :=
  let (buffer, handler) := load calls recordSize s.buffer1 s.handler i
  { s with handler := handler, buffer1 := buffer }

def load2 (s : Sorting) (j : ℕ) : Sorting :=
  let (buffer, handler) := load calls recordSize s.buffer2 s.handler j
  { s with handler := handler, buffer2 := buffer }

def store (s : Sorting) (offset : ℕ) (data : Text) : Sorting :=
  { s with handler := calls.write (calls.seek s.handler offset) data }

def Sorting.Moves (s : Sorting) : Prop := first s.buffer1 < first s.buffer2

instance (s : Sorting) : Decidable s.Moves := inferInstanceAs (Decidable (_ < _))

/-- The body of the inner loop before `j--`. -/
def pass (s : Sorting) (j : ℕ) : Sorting :=
  let s := load2 calls recordSize s j
  if s.Moves then store calls s (recordSize*(j+1)) s.buffer2 else s

/-- The inner loop from `j` on, with the value it leaves in `j`. -/
def shift : ℕ → Sorting → Sorting × ℤ
  | 0, s => (pass calls recordSize s 0, -1)
  | j+1, s =>
    let s := pass calls recordSize s (j+1)
    if s.Moves then shift j s else (s, j)

/-- The record number at which `buffer1` is written, from the exit reason. -/
def place (s : Sorting) (j : ℤ) : ℤ :=
  if first s.buffer1 ≥ first s.buffer2 then j+2 else j+1

/-- One iteration of the outer loop. -/
def insertRecord (s : Sorting) (i : ℕ) : Sorting :=
  let s := load1 calls recordSize s i
  let (s, j) := shift calls recordSize (i-1) s
  store calls s (recordSize*(place s j)).toNat s.buffer1

def insertRecords (s : Sorting) : ℕ → Sorting
  | 0 => s
  | k+1 => insertRecord calls recordSize (insertRecords s k) (k+1)

def start (content : Text) : Sorting :=
  ⟨⟨content, 0⟩, List.replicate recordSize 0, List.replicate recordSize 0⟩

end

/-- The content that `sort` leaves, or nothing where the file cannot be opened. -/
def sort (file : Option Text) (numberOfRecords : ℤ) (recordSize : ℕ) (mode : Mode) :
    Option Text :=
  match file with
  | none => none
  | some content =>
    let s := insertRecords mode.calls recordSize (start recordSize content)
      (numberOfRecords-1).toNat
    some s.handler.content

section
variable {s : Sorting}

theorem place_moved (h : s.Moves) (j : ℤ) : place s j = j+1 := by
  have hge : ¬ first s.buffer1 ≥ first s.buffer2 := UInt8.not_le.mpr h
  rw [place, if_neg hge]

theorem place_stayed (h : ¬ s.Moves) (j : ℤ) : place s j = j+2 := by
  have hge : first s.buffer1 ≥ first s.buffer2 := UInt8.not_lt.mp h
  rw [place, if_pos hge]

end

theorem calls_eq (mode : Mode) : mode.calls = posix := by
  cases mode with
  | sys => rfl
  | lib =>
    show stdio = posix
    simp only [stdio, posix, Nat.one_mul]

end Semestr4.FileSort
