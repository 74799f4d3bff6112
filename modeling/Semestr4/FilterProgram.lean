import Semestr4.FilterRange
import Semestr4.ImageBounds
import Semestr4.PgmRoundTrip

/-!
# The filter program from file to file

The program reads an image and a filter, starts its threads, waits for them and
writes the output. It can always go on until the waiting loop is left, and the
file it then writes does not depend on the threads.
-/

set_option autoImplicit false

namespace Semestr4.FilterProgram
open Semestr4.ScheduledRun Semestr4.ByteText Semestr4.PgmFile Semestr4.FilterFile
open Semestr4.ImageFilter Semestr4.ImageColumns Semestr4.ImageBounds Semestr4.FilterRange
open Semestr4.DecimalText Semestr4.PgmRoundTrip Semestr4.PgmRows

def Raised (s : State) : Prop := ∀ i, s.threads i = .returned → s.finished i ≠ 0

variable {g : Globals} {s t : State}

def globals (numOfThreads : ℕ) (image : Image) (filter : Filter) : Globals where
  width := image.width.toNat
  height := image.height.toNat
  filterSize := filter.filterSize.toNat
  numOfThreads := numOfThreads
  input := image.result
  filter := filter.result

def output (g : Globals) (s : State) : Text :=
  writeToFile g.width g.height fun i j => s.output (i, j)

/-- The output file, where both files can be read and the loop is left. -/
def main (numOfThreads : ℕ) (schedule : List Actor) (inputImage filterFile : Text) :
    Option Text :=
  match parseImage inputImage, parseFilter filterFile with
  | some image, some filter =>
    match run (step (globals numOfThreads image filter)) schedule initial with
    | some (s, _) => if s.main = .left then some (output (globals numOfThreads image filter) s)
      else none
    | none => none
  | _, _ => none

def written (width height : ℕ) (samples : ℕ → ℕ → ℤ) (size : ℕ) (rand : ℕ → ℕ) : Globals where
  width := width
  height := height
  filterSize := size
  numOfThreads := 1
  input := samples
  filter := (generated size rand).result

end Semestr4.FilterProgram
