import Mathlib.Algebra.Ring.Rat
import Mathlib.Data.Rat.Floor
import Semestr4.ScheduledRun
import Semestr4.SharedWrites

/-!
# The parallel image filter

Threads compute columns of the output image from an input and a filter that do
not change. A thread is the list of its assignments to the output, followed by
the flag it raises; each of these, and each reading of a flag by the thread that
started them, is one step. Samples of the filter and sums are exact numbers.
-/

set_option autoImplicit false

namespace Semestr4.ImageFilter
open Semestr4.ScheduledRun Semestr4.SharedWrites

structure Globals where
  width : ℕ
  height : ℕ
  filterSize : ℕ
  numOfThreads : ℕ
  input : ℕ → ℕ → ℤ
  filter : ℕ → ℕ → ℚ

/-- A row and a column, both from zero. -/
abbrev Cell := ℕ × ℕ

abbrev Assignment := Write Cell ℤ

/-- The function `round`, which rounds a half away from zero. -/
def roundAway (q : ℚ) : ℤ := if 0 ≤ q then ⌊q+1/2⌋ else -⌊-q+1/2⌋

section
variable (g : Globals)

/-- `ceil(FILTER_SIZE*1.0/2)`. -/
def centre : ℤ := (g.filterSize+1)/2

/-- The row or column the filter's row or column `i` lies on around `x`, from one. -/
def clamped (x i : ℕ) : ℤ := if 1 ≥ (x:ℤ)-centre g+i then 1 else x-centre g+i

def term (x y i j : ℕ) : ℚ :=
  if clamped g x i-1 < g.height ∧ clamped g y j-1 < g.width then
    g.input (clamped g x i-1).toNat (clamped g y j-1).toNat*g.filter (i-1) (j-1)
  else 0

def result (x y : ℕ) : ℚ :=
  (List.range' 1 g.filterSize).foldl
    (fun sum i => (List.range' 1 g.filterSize).foldl (fun sum j => sum+term g x y i j) sum) 0

/-- The column after which a thread's columns begin. -/
def minWidth (segment : ℕ) : ℕ := segment*g.width/g.numOfThreads

def maxWidth (segment : ℕ) : ℕ :=
  if segment+1 ≠ g.numOfThreads then (segment+1)*g.width/g.numOfThreads else g.width

def calculate (segment : ℕ) : List Assignment :=
  (List.range' 1 g.height).flatMap fun x =>
    (List.range' (minWidth g segment+1) (maxWidth g segment-minWidth g segment)).map fun y =>
      { cell := (x-1, y-1), value := roundAway (result g x y) }

end

inductive Thread where
  | absent
  | writing (rest : List Assignment)
  | returned
  deriving DecidableEq, Repr

/-- Where the thread that runs `doSomeWork` is: it starts the others, then it
reads the flags one by one, until they are all raised. -/
inductive Main where
  | creating (i : ℕ)
  | waiting (i : ℕ) (flag : ℤ)
  | left
  deriving DecidableEq, Repr

structure State where
  output : Cell → ℤ
  finished : ℕ → ℤ
  threads : ℕ → Thread
  main : Main

inductive Actor where
  | main
  | thread (i : ℕ)
  deriving DecidableEq, Repr

def doSomeWork (g : Globals) (s : State) : Option State :=
  match s.main with
  | .creating i =>
    if i < g.numOfThreads then
      some { s with
        threads := Function.update s.threads i (.writing (calculate g i))
        main := .creating (i+1) }
    else some { s with main := .waiting 0 1 }
  | .waiting i flag =>
    if i < g.numOfThreads then
      some { s with main := .waiting (i+1) (if s.finished i = 0 then 0 else flag) }
    else if flag = 1 then some { s with main := .left }
    else some { s with main := .waiting 0 1 }
  | .left => none

def advance (i : ℕ) (s : State) : Option (State × List (ℕ × Assignment)) :=
  match s.threads i with
  | .absent => none
  | .writing (w::rest) =>
    some ({ s with
      output := Function.update s.output w.cell w.value
      threads := Function.update s.threads i (.writing rest) }, [(i, w)])
  | .writing [] =>
    some ({ s with
      finished := Function.update s.finished i 1
      threads := Function.update s.threads i .returned }, [])
  | .returned => none

def step (g : Globals) : Step State Actor (ℕ × Assignment)
  | s, .main => (doSomeWork g s).map fun t => (t, [])
  | s, .thread i => advance i s

/-- No thread is there yet; `calloc` has cleared the output and the flags. -/
def initial : State where
  output := fun _ => 0
  finished := fun _ => 0
  threads := fun _ => .absent
  main := .creating 0

end Semestr4.ImageFilter
