import Mathlib.Algebra.Ring.Nat
import Mathlib.Data.List.Dedup
import Mathlib.Data.List.Sort
import Mathlib.Data.Char

/-!
# The logic evaluator

The functions on propositional expressions as the code computes them, on
strings as lists of characters. Which characters are letters is a property of
the language's strings: here they are the letters of ASCII and any others but
the marks the code itself uses. An operation on values the language refuses
raises. The limit on the depth of recursion is not modelled.
-/

set_option autoImplicit false

namespace Semestr4.LogicEvaluator

/-- What `isalpha` says of one character. -/
structure Alphabet where
  isalpha : Char → Bool
  latin : ∀ z, z.isAlpha = true → isalpha z = true
  marks : ∀ z ∈ ['(', ')', '&', '>', '|', '0', '1'], isalpha z = false

def ascii : Alphabet where
  isalpha := Char.isAlpha
  latin := fun _ h => h
  marks := by
    intro z hz
    simp only [List.mem_cons, List.not_mem_nil, or_false] at hz
    rcases hz with rfl | rfl | rfl | rfl | rfl | rfl | rfl <;> rfl

inductive Raised where
  | typeError
  | indexError
  deriving DecidableEq, Repr

section
variable (A : Alphabet)

/-- The letters of the string, each once, in order. -/
def foo (s : List Char) : List Char := ((s.filter A.isalpha).dedup).insertionSort (· ≤ ·)

def op : List Char := ['&', '>', '|']

/-- The lines on parentheses with which the loops of `check` and `bal` begin. -/
def nest (ln : ℤ) (z : Char) : ℤ :=
  let ln := if z = '(' then ln+1 else ln
  if z = ')' then ln-1 else ln

/-- The loop of `check`, with the letters of the whole expression. After an
operand the code adds the list of letters to the string `'('`, which raises
whatever the character is. -/
def scan (letters : List Char) (ln : ℤ) (state : Bool) : List Char → Except Raised Bool
  | [] => if ln ≠ 0 then .ok false else .ok (!state)
  | z::rest =>
    let ln := nest ln z
    if ln < 0 then .ok false
    else if state then
      if z ∈ letters then scan letters ln false rest
      else if z ∈ ')'::op then .ok false
      else scan letters ln true rest
    else if z ∈ op then scan letters ln true rest
    else .error .typeError

def check (exp : List Char) : Except Raised Bool := scan (foo A exp) 0 true exp

/-- The loop of `bal` over the characters from the last one down to the one at
index 1, which stand at the indices that the length of the rest counts. -/
def balFrom (op : List Char) (ln : ℤ) : List Char → Option ℕ
  | [] => none
  | z::rest =>
    let ln := nest ln z
    if z ∈ op ∧ ln = 0 then some (rest.length+1) else balFrom op ln rest

/-- The index of the last operator outside parentheses; `none` stands for -1. -/
def bal (w op : List Char) : Option ℕ := balFrom op 0 w.tail.reverse

/-- `w[1:-1]`. -/
def within (w : List Char) : List Char := w.tail.dropLast

def strip (w : List Char) : Except Raised (List Char) :=
  match w with
  | [] => .error .indexError
  | first::rest =>
    if first = '(' ∧ (first::rest).getLast? = some ')' then
      match check A (within (first::rest)) with
      | .error e => .error e
      | .ok true => strip (within (first::rest))
      | .ok false => .ok (first::rest)
    else .ok (first::rest)
termination_by w.length
decreasing_by
  simp only [within, List.tail_cons, List.length_dropLast, List.length_cons]
  omega

theorem strip_length {w u : List Char} (h : strip A w = .ok u) : u.length ≤ w.length := by
  induction w using strip.induct A with
  | case1 => simp [strip] at h
  | case2 first rest hparen e hcheck =>
    rw [strip, if_pos hparen, hcheck] at h
    cases h
  | case3 first rest hparen hcheck ih =>
    rw [strip, if_pos hparen, hcheck] at h
    have hu := ih h
    simp only [within, List.tail_cons, List.length_dropLast, List.length_cons] at hu ⊢
    omega
  | case4 first rest hparen hcheck =>
    rw [strip, if_pos hparen, hcheck] at h
    cases h
    exact le_refl _
  | case5 first rest hparen =>
    rw [strip, if_neg hparen] at h
    cases h
    exact le_refl _

/-- Where the string is split: both searches are followed by the same code. -/
def splitAt (w : List Char) : Option ℕ :=
  match bal w ['>'] with
  | some p => some p
  | none => bal w ['&', '|']

theorem balFrom_bounds {op w : List Char} {ln : ℤ} {p : ℕ} (h : balFrom op ln w = some p) :
    0 < p ∧ p ≤ w.length := by
  induction w generalizing ln with
  | nil => cases h
  | cons z rest ih =>
    rw [balFrom] at h
    split at h
    · cases h
      simp
    · have hp := ih h
      simp only [List.length_cons]
      omega

theorem splitAt_bounds {w : List Char} {p : ℕ} (h : splitAt w = some p) :
    0 < p ∧ p < w.length := by
  have hbal : ∃ op, bal w op = some p := by
    unfold splitAt at h
    split at h
    · rename_i hp
      cases h
      exact ⟨_, hp⟩
    · exact ⟨_, h⟩
  obtain ⟨op, hop⟩ := hbal
  have hp := balFrom_bounds hop
  simp only [List.length_reverse, List.length_tail] at hp
  omega

def onp (w : List Char) : Except Raised (List Char) :=
  match _hw : strip A w with
  | .error e => .error e
  | .ok u => match hp : splitAt u with
    | none => .ok u
    | some p => do
      let l ← onp (u.take p)
      let r ← onp (u.drop (p+1))
      return l++r++[u.get ⟨p, (splitAt_bounds hp).2⟩]
termination_by w.length
decreasing_by
  · have hu := strip_length A _hw
    have hb := splitAt_bounds hp
    simp only [List.length_take]
    omega
  · have hu := strip_length A _hw
    have hb := splitAt_bounds hp
    simp only [List.length_drop]
    omega

/-- Each character that is a variable becomes the bit at its place in `val`. -/
def mapuj (wyr zm val : List Char) : Except Raised (List Char) :=
  wyr.mapM fun z =>
    if 0 < zm.count z then match val[zm.idxOf z]? with
      | some bit => .ok bit
      | none => .error .indexError
    else .ok z

def pop : List ℤ → Except Raised (ℤ × List ℤ)
  | [] => .error .indexError
  | x::st => .ok (x, st)

/-- What the loop of `value` does with a character; the second operand of `and`
and `or` is only evaluated where the first does not decide. -/
def evalStep (st : List ℤ) (z : Char) : Except Raised (List ℤ) :=
  if z = '0' then .ok (0::st)
  else if z = '1' then .ok (1::st)
  else if z = '&' then do
    let (x, st) ← pop st
    if x = 0 then return x::st
    else
      let (y, st) ← pop st
      return y::st
  else if z = '|' then do
    let (x, st) ← pop st
    if x ≠ 0 then return x::st
    else
      let (y, st) ← pop st
      return y::st
  else if z = '>' then do
    let (x, st) ← pop st
    if x ≠ 0 then return x::st
    else
      let (y, st) ← pop st
      return (1-y)::st
  else .ok st

def value (wyr val : List Char) : Except Raised ℤ := do
  let zm := foo A wyr
  let wyr ← mapuj wyr zm val
  let st ← wyr.foldlM evalStep []
  let (x, _) ← pop st
  return x

/-- `bin(i)[2:]`. -/
def bin (i : ℕ) : List Char := Nat.toDigits 2 i

def gen (n : ℕ) : List (List Char) :=
  (List.range (2^n)).map fun i => (bin i).leftpad n '0'

/-- The loop of `isTautology` over the valuations still to come. -/
def nowhereFalse (expr : List Char) : List (List Char) → Except Raised Bool
  | [] => .ok true
  | val::rest => do
    let p ← onp A expr
    let x ← value A p val
    if x = 0 then return false
    else nowhereFalse expr rest

def isTautology (expr : List Char) : Except Raised Bool :=
  nowhereFalse A expr (gen (foo A expr).length)

/-- The loop of `areTheSame`. -/
def nowhereDifferent (expr1 expr2 : List Char) : List (List Char) → Except Raised Bool
  | [] => .ok true
  | val::rest => do
    let p1 ← onp A expr1
    let x1 ← value A p1 val
    let p2 ← onp A expr2
    let x2 ← value A p2 val
    if x1 ≠ x2 then return false
    else nowhereDifferent expr1 expr2 rest

def areTheSame (expr1 expr2 : List Char) : Except Raised Bool :=
  if foo A expr1 ≠ foo A expr2 then .ok false
  else nowhereDifferent A expr1 expr2 (gen (foo A expr1).length)

end

end Semestr4.LogicEvaluator
