import Semestr4.LineBuffer

/-!
# Image files

The writer puts a row of the image on one line of any length. The reader reads
the size with a buffer of ten bytes and the samples with a buffer of 128, and
stores the numbers it finds one after another. It fails on a missing number.
-/

set_option autoImplicit false

namespace Semestr4.PgmFile
open Semestr4.ByteText Semestr4.DecimalText Semestr4.LineBuffer

def space : UInt8 := 32

def writeRow (width : ℕ) (row : ℕ → ℤ) : Text :=
  ((List.range width).flatMap fun j => decimal (row j)++[space])++[newline]

def writeSize (width height : ℕ) : Text :=
  decimal width++[space]++decimal height++[newline]

def writeToFile (width height : ℕ) (output : ℕ → ℕ → ℤ) : Text :=
  [80, 50, newline]++writeSize width height++[50, 53, 53, newline]++
    (List.range height).flatMap fun i => writeRow width (output i)

/-- `fgets` into a buffer, which stays as it is at the end of the file. -/
def gets (size : ℕ) (buffer file : Text) : Text × Text :=
  match fgets size file with
  | none => (buffer, file)
  | some (record, rest) => (record++0::buffer.drop (record.length+1), rest)

/-- What is stored while parsing, in this order: the `i`-th value goes to
`result[i/WIDTH][i%WIDTH]`. -/
structure Image where
  width : ℤ
  height : ℤ
  stores : List ℤ

def Image.result (image : Image) (i j : ℕ) : ℤ :=
  image.stores.getD (i*image.width.toNat+j) 0

/-- The size and the rest of the file; nothing when `atoi` is given a null
pointer. -/
def parseSize (file : Text) : Option ((ℤ × ℤ) × Text) :=
  let first := gets 10 (List.replicate 10 0) file
  let second := gets 10 first.1 first.2
  match strtok [space] (cstring second.1) with
  | none => none
  | some (width, more) => match strtok [newline] more with
    | none => none
    | some (height, _) => some ((atoi width, atoi height), (gets 10 second.1 second.2).2)

def blanks : Text := [space, newline]

/-- The values stored for one call of `fgets`, the first without a test for a
null pointer. -/
def parseLine (line : Text) : Option (List ℤ) :=
  match strtok blanks (cstring line) with
  | none => none
  | some (first, rest) => some (atoi first::(tokens blanks rest).map atoi)

def parseLines : List Text → Option (List ℤ)
  | [] => some []
  | line::lines => match parseLine line with
    | none => none
    | some values => (parseLines lines).map (values++·)

/-- A width that is not positive makes the first store fail. -/
def parseImage (file : Text) : Option Image :=
  match parseSize file with
  | none => none
  | some ((width, height), rest) =>
    if width ≤ 0 ∧ rest ≠ [] then none
    else (parseLines (records 128 rest)).map (Image.mk width height)

theorem parseLine_words {line : Text} (h : 0 ∉ line) :
    parseLine line =
      if words blanks line = [] then none else some ((words blanks line).map atoi) := by
  rw [parseLine, cstring_self h, words_strtok]
  cases strtok blanks line with
  | none => rfl
  | some found => simp [tokens_eq_words]

theorem parseLines_words {lines : List Text} (h : ∀ line ∈ lines, 0 ∉ line) :
    parseLines lines = if ∀ line ∈ lines, words blanks line ≠ []
      then some ((lines.flatMap (words blanks)).map atoi) else none := by
  induction lines with
  | nil => simp [parseLines]
  | cons line lines ih =>
    rw [parseLines, parseLine_words (h line (List.mem_cons_self ..)),
      ih fun l hl => h l (List.mem_cons_of_mem line hl)]
    simp only [List.forall_mem_cons]
    by_cases hline : words blanks line = []
    · simp [hline]
    · simp [hline]

end Semestr4.PgmFile
