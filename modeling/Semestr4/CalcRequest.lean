import Semestr4.RequestText

/-!
# The value of an expression with spaces

The first operand ends at a space or at the operator. Where it ends at a space
the operator is still in front of the second operand, and `atoi` takes it for a
sign, or finds no number behind it. A quotient is right where it is a double.
-/

set_option autoImplicit false

namespace Semestr4.CalcRequest
open Semestr4.ByteText Semestr4.DecimalText Semestr4.BinaryRounding Semestr4.RequestText

inductive Op where
  | plus
  | minus
  | times
  | divided
  deriving DecidableEq, Repr

def Op.char : Op → UInt8
  | .plus => 43
  | .minus => 45
  | .times => 42
  | .divided => 47

def Op.value : Op → ℕ → ℕ → ℚ
  | .plus, x, y => x+y
  | .minus, x, y => x-y
  | .times, x, y => x*y
  | .divided, x, y => x/y

/-- The operation of integers is within `int`, the divisor not zero. -/
def Op.Fits : Op → ℕ → ℕ → Prop
  | .plus, x, y => InInt (x+y)
  | .minus, x, y => InInt (x-y)
  | .times, x, y => InInt (x*y)
  | .divided, _, y => y ≠ 0

/-- A quotient with finitely many binary digits. -/
def Op.Exact (op : Op) (x y : ℕ) : Prop := op = .divided → ∃ k, y ∣ x*2^k

structure Operand where
  text : Text
  nonempty : text ≠ []
  digits : ∀ b ∈ text, isDigit b = true
  range : InInt (number text)

def spaces (k : ℕ) : Text := List.replicate k 32

def expression (a : Operand) (j : ℕ) (op : Op) (k : ℕ) (b : Operand) : Text :=
  a.text++spaces j++op.char::(spaces k++b.text)

theorem digit_not_delim {b : UInt8} (h : isDigit b = true) : b ∉ operandDelim := by
  have hall : ∀ c ∈ operandDelim, isDigit c = false := by simp [operandDelim, isDigit]
  intro hmem
  rw [hall b hmem] at h
  cases h

def remaining (j : ℕ) (op : Op) (k : ℕ) (b : Operand) : Text :=
  match j with
  | 0 => spaces k++b.text
  | j+1 => spaces j++op.char::(spaces k++b.text)

section
variable (a : Operand) (j : ℕ) (op : Op) (k : ℕ) (b : Operand)

theorem strtok_first :
    strtok operandDelim (expression a j op k b) = some (a.text, remaining j op k b) := by
  have htoken : ∀ c ∈ a.text, c ∉ operandDelim := fun c hc => digit_not_delim (a.digits c hc)
  cases j with
  | zero =>
    have hop : op.char ∈ operandDelim := by cases op <;> decide
    simpa [expression, spaces, remaining] using strtok_token a.nonempty htoken hop _
  | succ j =>
    have hspace : (32 : UInt8) ∈ operandDelim := by decide
    rw [expression, List.append_assoc]
    exact strtok_token a.nonempty htoken hspace _

end

/-- The operator in front of the second operand makes no difference. -/
def Op.Harmless (op : Op) (k x y : ℕ) : Prop :=
  (op = .plus ∧ (k = 0 ∨ y = 0)) ∨ (op = .minus ∧ y = 0) ∨ (op = .times ∧ (x = 0 ∨ y = 0))

theorem Op.Harmless.exact {op : Op} {k x y : ℕ} (h : op.Harmless k x y) : op.Exact x y := by
  rcases h with ⟨rfl, -⟩ | ⟨rfl, -⟩ | ⟨rfl, -⟩ <;> exact Op.noConfusion

def five : Operand := ⟨[53], by decide, by simp [isDigit], by decide⟩

end Semestr4.CalcRequest
