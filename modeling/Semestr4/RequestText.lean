import Mathlib.Algebra.Field.Rat
import Mathlib.Data.List.GetD
import Semestr4.BinaryRounding
import Semestr4.DecimalText

/-!
# The requests of the two queue services

The services over message queues and over POSIX queues have the same kinds of
messages, read the same commands, and mirror a text and compute an expression in
the same way. The operator of an expression is searched first; then `strtok` cuts
off the first operand, and the second one is all that is left of the line. A
quotient is the nearest double.
-/

set_option autoImplicit false

namespace Semestr4.RequestText
open Semestr4.ByteText Semestr4.DecimalText Semestr4.BinaryRounding

def maxMsgLength : ℕ := 128

inductive MsgType where
  | init
  | mirror
  | time
  | calculate
  | stop
  deriving DecidableEq, Repr

def MsgType.code : MsgType → ℕ
  | .init => 1
  | .mirror => 2
  | .time => 3
  | .calculate => 4
  | .stop => 5

def msgType (code : ℕ) : Option MsgType :=
  [MsgType.init, .mirror, .time, .calculate, .stop].find? fun t => t.code = code

def timeWord : Text := [84, 73, 77, 69]

def endWord : Text := [69, 78, 68]

def calcWord : Text := [67, 65, 76, 67]

def mirrorWord : Text := [77, 73, 82, 82, 79, 82]

/-- The first word of a line of input, and what follows it up to the newline. -/
def arguments (line : Text) : Option (Text × Option Text) :=
  match strtok [32, newline] line with
  | none => none
  | some (word, rest) => some (word, (strtok [newline] rest).map Prod.fst)

/-- The loop of the case `MIRROR`: the characters of the string from position
`i-1` down to the first, each appended. -/
def appendBack (s : Text) : ℕ → Text → Text
  | 0, result => result
  | i+1, result => appendBack s i (result++[s.getD i 0])

def mirror (s : Text) : Text := appendBack s s.length []

/-- Plus, minus, slash and star. -/
def operators : Text := [43, 45, 47, 42]

def operandDelim : Text := [32, 43, 45, 42, 47, 10]

def strpbrk (accept s : Text) : Option UInt8 := s.find? (· ∈ accept)

def InInt (z : ℤ) : Prop := -2^31 ≤ z ∧ z < 2^31

instance (z : ℤ) : Decidable (InInt z) := inferInstanceAs (Decidable (_ ∧ _))

/-- A `double`, or what a division by zero leaves. -/
inductive Value where
  | number (q : ℚ)
  | notFinite
  deriving DecidableEq, Repr

/-- An operation of integers that leaves the range of `int` is undefined. -/
def whole (z : ℤ) : Option Value := if InInt z then some (.number z) else none

def operate (op : UInt8) (a b : ℤ) : Option Value :=
  if op = 43 then whole (a+b)
  else if op = 45 then whole (a-b)
  else if op = 42 then whole (a*b)
  else if op = 47 then some (if b = 0 then .notFinite else .number (double (a/b)))
  else none

/-- The case `CALC`: the result, or nothing where a null pointer is read or an integer
leaves its range. -/
def calculate (expression : Text) : Option Value :=
  match strpbrk operators expression with
  | none => none
  | some op => match strtok operandDelim expression with
    | none => none
    | some (first, rest) => match strtok [newline] rest with
      | none => none
      | some (second, _) =>
        if InInt (atoi first) ∧ InInt (atoi second) then operate op (atoi first) (atoi second)
        else none

def tokenEnd (delim s : Text) : ℕ :=
  (s.takeWhile (· ∈ delim)).length+((s.dropWhile (· ∈ delim)).takeWhile (· ∉ delim)).length

theorem msgType_code (t : MsgType) : msgType t.code = some t := by
  cases t <;> rfl

theorem msgType_some {code : ℕ} {t : MsgType} (h : msgType code = some t) : code = t.code := by
  have hfound := List.find?_some h
  exact (of_decide_eq_true hfound).symm

theorem appendBack_eq (s : Text) {i : ℕ} (hi : i ≤ s.length) (result : Text) :
    appendBack s i result = result++(s.take i).reverse := by
  induction i generalizing result with
  | zero => simp [appendBack]
  | succ i ih =>
    have hlast : s.take (i+1) = s.take i++[s.getD i 0] := by
      rw [List.take_add_one, List.getElem?_eq_getElem hi, List.getD_eq_getElem _ _ hi]
      rfl
    rw [appendBack, ih (Nat.le_of_succ_le hi), hlast, List.reverse_append, List.append_assoc]
    rfl

theorem mirror_eq (s : Text) : mirror s = s.reverse := by
  rw [mirror, appendBack_eq s (Nat.le_refl _), List.take_length, List.nil_append]

def mirrorLine (text : Text) : Text := mirrorWord++32::(text++[newline])

theorem arguments_mirror {text : Text} (hne : text ≠ []) (hline : newline ∉ text) :
    arguments (mirrorLine text) = some (mirrorWord, some text) := by
  have hword : strtok [32, newline] (mirrorLine text) = some (mirrorWord, text++[newline]) :=
    strtok_token (by decide) (by simp [mirrorWord, newline]) (by decide) _
  have htext : strtok [newline] (text++[newline]) = some (text, []) := by
    apply strtok_token hne _ (List.mem_singleton_self _) []
    intro b hb hmem
    exact hline (List.mem_singleton.mp hmem ▸ hb)
  simp only [arguments, hword, htext, Option.map_some]

example : calculate [53, 45, 51] = some (.number 2) := by decide +kernel

end Semestr4.RequestText
