import Semestr4.ErlangTerm

/-!
# The calculator for postfix expressions

The functions of the module `onp`. The tokens of a string are evaluated on a
stack of integers and floats. Integers are unbounded; the arithmetic of floats
and the functions of the module `math` are those of a given `Floats`.
-/

set_option autoImplicit false

namespace Semestr4.OnpCalculator
open Semestr4.ErlangTerm

abbrev Chars := List Char

inductive Number where
  | int (z : ℤ)
  | float (q : ℚ)
  deriving DecidableEq, Repr

inductive Raised where
  | badarith
  | badarg
  | functionClause
  | undef
  deriving DecidableEq, Repr

/-- A float result from an exact one, the functions of `math`, and the float
that a string stands for. Nothing where these raise. -/
structure Floats where
  round : ℚ → Option ℚ
  sqrt : ℚ → Option ℚ
  sin : ℚ → Option ℚ
  cos : ℚ → Option ℚ
  tan : ℚ → Option ℚ
  pow : ℚ → ℚ → Option ℚ
  pi : ℚ
  listToFloat : Chars → Option ℚ

/-- The value of the literal `1.0e-15`. -/
def tiny : ℚ := 2535301200456459/2535301200456458802993406410752

def Number.exact : Number → ℚ
  | .int z => z
  | .float q => q

def raise {α : Type} (raised : Raised) : Option α → Except Raised α
  | some a => .ok a
  | none => .error raised

def Number.toFloat : Number → Except Raised ℚ
  | .int z => raise .badarith (ErlangTerm.float (.int z))
  | .float q => .ok q

def splitSign : Chars → ℤ × Chars
  | '-'::digits => (-1, digits)
  | '+'::digits => (1, digits)
  | digits => (1, digits)

def digitsValue (digits : Chars) : ℕ :=
  digits.foldl (fun n c => 10*n+(c.toNat-48)) 0

/-- `list_to_integer`: a sign or none, and digits to the end. -/
def listToInteger (s : Chars) : Option ℤ :=
  let (sign, digits) := splitSign s
  if digits ≠ [] ∧ digits.all Char.isDigit then some (sign*digitsValue digits) else none

/-- Whether `string:to_float` finds a float at the beginning: digits on both
sides of a point. -/
def startsFloat (s : Chars) : Bool :=
  let digits := (splitSign s).2
  match digits.dropWhile Char.isDigit with
  | '.'::c::_ => c.isDigit && (digits.head?).any Char.isDigit
  | _ => false

/-- `string:tokens` with a blank as the only separator. -/
def tokens (str : Chars) : List Chars := (str.splitOn ' ').filter (· ≠ [])

section
variable (fl : Floats)

def arith (f : ℤ → ℤ → ℤ) (g : ℚ → ℚ → ℚ) : Number → Number → Except Raised Number
  | .int x, .int y => .ok (.int (f x y))
  | x, y => do
    let a ← x.toFloat
    let b ← y.toFloat
    let q ← raise .badarith (fl.round (g a b))
    return .float q

def divide (x y : Number) : Except Raised Number := do
  let a ← x.toFloat
  let b ← y.toFloat
  if b = 0 then throw .badarith
  else
    let q ← raise .badarith (fl.round (a/b))
    return .float q

def mathCall (f : ℚ → Option ℚ) (x : Number) : Except Raised Number := do
  let a ← x.toFloat
  let q ← raise .badarith (f a)
  return .float q

def mathPow (x y : Number) : Except Raised Number := do
  let a ← x.toFloat
  let b ← y.toFloat
  let q ← raise .badarith (fl.pow a b)
  return .float q

/-- The clause for a token that is none of the others, or whose operands are
missing. -/
def literal (token : Chars) : Except Raised Number :=
  if startsFloat token then (raise .badarg (fl.listToFloat token)).map .float
  else (raise .badarg (listToInteger token)).map .int

/-- The stack after one token. There is no function `ctg` in the module `math`. -/
def onpToken (token : Chars) (stack : List Number) : Except Raised (List Number) :=
  match token, stack with
  | ['+'], h1::h2::t2 => do return (← arith fl (· + ·) (· + ·) h2 h1)::t2
  | ['-'], h1::h2::t2 => do return (← arith fl (· - ·) (· - ·) h2 h1)::t2
  | ['*'], h1::h2::t2 => do return (← arith fl (· * ·) (· * ·) h2 h1)::t2
  | ['/'], h1::h2::t2 => do return (← divide fl h2 h1)::t2
  | ['s', 'q', 'r', 't'], h1::t2 => do return (← mathCall fl.sqrt h1)::t2
  | ['p', 'o', 'w'], h1::h2::t2 => do return (← mathPow fl h2 h1)::t2
  | ['s', 'i', 'n'], h1::t2 => do return (← mathCall fl.sin h1)::t2
  | ['c', 'o', 's'], h1::t2 => do return (← mathCall fl.cos h1)::t2
  | ['t', 'g'], h1::t2 => do return (← mathCall fl.tan h1)::t2
  | ['c', 't', 'g'], _::_ => throw .undef
  | ['p', 'i'], stack => return .float fl.pi::stack
  | token, stack => do return (← literal fl token)::stack

def onpHelper : List Chars → List Number → Except Raised Number
  | [], [] => throw .functionClause
  | [], h::_ => return if h.exact < tiny then .int 0 else h
  | h1::t1, stack => do
    let stack ← onpToken fl h1 stack
    onpHelper t1 stack

def onp (str : Chars) : Except Raised Number := onpHelper fl (tokens str) []

end

end Semestr4.OnpCalculator
