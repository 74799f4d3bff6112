import Semestr4.PgmFile
import Semestr4.RealText

/-!
# Filter files

The generator writes the size of a filter and its entries, a newline after every
ninth of them. The reader takes the size from the first line and the entries from
the others, one after another, and looks at their count once a line.
-/

set_option autoImplicit false

namespace Semestr4.FilterFile
open Semestr4.ByteText Semestr4.DecimalText Semestr4.PgmFile Semestr4.BinaryRounding
open Semestr4.RealText

/-- `rand()%100/(100.0 * size * size)` for a result of `rand`, in doubles. -/
def quotient (size r : ℕ) : ℚ := double ((r % 100 : ℕ)/double (double (100*size)*size))

def entry (size r : ℕ) : Text := fixed (quotient size r)++[space]

/-- The file for a size that is not negative and the results of `rand`. -/
def generator (size : ℕ) (rand : ℕ → ℕ) : Text :=
  decimal size++newline::(List.range (size*size)).flatMap fun i =>
    entry size (rand i)++if (i+1) % 9 = 0 then [newline] else []

/-- What is stored while parsing, in this order: the `i`-th value goes to
`result[i/FILTER_SIZE][i%FILTER_SIZE]`. -/
structure Filter where
  filterSize : ℤ
  stores : List ℚ

def Filter.result (f : Filter) (i j : ℕ) : ℚ := f.stores.getD (i*f.filterSize.toNat+j) 0

/-- Where no number is found the zero of `calloc` stays. -/
def scanned (token : Text) : ℚ := (scanReal token).getD 0

/-- The values stored for one line, the first without a test for a null pointer. -/
def parseEntries (line : Text) : Option (List ℚ) :=
  match strtok blanks (cstring line) with
  | none => none
  | some (first, rest) => some (scanned first::(tokens blanks rest).map scanned)

def parseFrom (filterSize : ℤ) : ℕ → List Text → Option (List ℚ)
  | _, [] => some []
  | i, line::lines =>
    if i < filterSize*filterSize then
      match parseEntries line with
      | none => none
      | some values => (parseFrom filterSize (i+values.length) lines).map (values++·)
    else some []

/-- A negative size makes the first store fail. -/
def parseFilter (file : Text) : Option Filter :=
  let header := gets 10 (List.replicate 10 0) file
  let filterSize := atoi (cstring header.1)
  if filterSize < 0 ∧ header.2 ≠ [] then none
  else (parseFrom filterSize 0 (records 128 header.2)).map (Filter.mk filterSize)

theorem quotient_eq {size : ℕ} (h : size*size < 2^31) (r : ℕ) :
    quotient size r = double ((r % 100 : ℕ)/(100*(size*size) : ℕ)) := by
  have hle : size ≤ size*size := Nat.le_mul_self size
  have hfirst : double (100*size) = (100*size : ℕ) := by
    have hcast : (100*size : ℚ) = (100*size : ℕ) := by push_cast; rfl
    rw [hcast, double_natCast (by omega)]
  have hsecond : double ((100*size : ℕ)*size) = (100*(size*size) : ℕ) := by
    have hcast : ((100*size : ℕ)*size : ℚ) = (100*(size*size) : ℕ) := by push_cast; ring
    rw [hcast, double_natCast (by omega)]
  rw [quotient, hfirst, hsecond]

theorem exact_normal {size : ℕ} (h : size*size < 2^31) (r : ℕ) :
    Normal ((r % 100 : ℕ)/(100*(size*size) : ℕ)) := normal_fraction _ (by omega)

theorem exact_le {size : ℕ} (h : 1 ≤ size) (r : ℕ) :
    ((r % 100 : ℕ) : ℚ)/(100*(size*size) : ℕ) ≤ 99/100 := by
  have hsize : 1 ≤ size*size := Nat.mul_pos h h
  have hr : r % 100 < 100 := Nat.mod_lt r (by decide)
  have hpos : (0 : ℚ) < (100*(size*size) : ℕ) := by exact_mod_cast Nat.mul_pos (by decide) hsize
  rw [div_le_div_iff₀ hpos (by norm_num)]
  exact_mod_cast (by omega : r % 100*100 ≤ 99*(100*(size*size)))

theorem exact_nonneg (size r : ℕ) : 0 ≤ ((r % 100 : ℕ) : ℚ)/(100*(size*size) : ℕ) :=
  div_nonneg (Nat.cast_nonneg _) (Nat.cast_nonneg _)

theorem quotient_nonneg {size : ℕ} (h : size*size < 2^31) (r : ℕ) : 0 ≤ quotient size r := by
  rw [quotient_eq h]
  exact double_nonneg (exact_nonneg size r)

theorem quotient_le {size : ℕ} (h1 : 1 ≤ size) (h : size*size < 2^31) (r : ℕ) :
    quotient size r ≤ 1 := by
  have hexact := exact_le h1 r
  have herror := (abs_le.mp (double_error (exact_nonneg size r) (exact_normal h r))).2
  rw [quotient_eq h]
  linarith

end Semestr4.FilterFile
