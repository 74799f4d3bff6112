import Mathlib.Algebra.Ring.Rat

/-!
# Erlang terms

Lean equality of terms is `=:=`. The looser `==` also identifies an integer with
the float of the same value, except inside the keys of a map, and is equality of
the forms in which each integral float has become an integer. Floats carry their
exact value. The elements of a tuple have a list type of their own.
-/

set_option autoImplicit false

namespace Semestr4.ErlangTerm

/-- Terms without structure, in the order in which they are compared. -/
inductive Handle where
  | reference
  | function
  | port
  | pid
  deriving DecidableEq, Repr

mutual

/-- A map lists its keys in the order of the runtime, its values in parallel. -/
inductive Term where
  | int (z : ℤ)
  | float (q : ℚ)
  | atom (name : String)
  | handle (kind : Handle) (serial : ℕ)
  | tuple (elements : Terms)
  | map (keys values : Terms)
  | nil
  | cons (head tail : Term)
  | bits (bs : List Bool)
  deriving DecidableEq, Repr

inductive Terms where
  | none
  | more (t : Term) (ts : Terms)
  deriving DecidableEq, Repr

end

def Term.pair (x y : Term) : Term := .tuple (.more x (.more y .none))

def Term.isPair : Term → Bool
  | .tuple (.more _ (.more _ .none)) => true
  | _ => false

/-- A string is the list of its code points. -/
def Term.text (s : String) : Term :=
  s.toList.foldr (fun c rest => .cons (.int c.toNat) rest) .nil

mutual

def Term.norm : Term → Term
  | .float q => if q.den = 1 then .int q.num else .float q
  | .tuple ts => .tuple ts.norm
  | .map ks vs => .map ks vs.norm
  | .cons t rest => .cons t.norm rest.norm
  | t => t

def Terms.norm : Terms → Terms
  | .none => .none
  | .more t ts => .more t.norm ts.norm

end

/-- The comparison `==`. -/
def Term.Same (a b : Term) : Prop := a.norm = b.norm

instance (a b : Term) : Decidable (a.Same b) := inferInstanceAs (Decidable (a.norm = b.norm))

theorem Term.Same.refl (a : Term) : a.Same a := rfl

theorem Term.Same.symm {a b : Term} (h : a.Same b) : b.Same a := Eq.symm h

theorem Term.Same.trans {a b c : Term} (h : a.Same b) (h' : b.Same c) : a.Same c := Eq.trans h h'

example : (Term.int 1).Same (.float 1) := by decide

/-- A natural number rounded to 53 significant bits, ties to even. -/
def roundedNat (n : ℕ) : ℕ :=
  let shift := n.log2-52
  let q := n/2^shift
  let r := n%2^shift
  if 2^shift < 2*r ∨ (2^shift = 2*r ∧ q%2 = 1) then (q+1)*2^shift else q*2^shift

/-- The conversion `float/1`, which fails on integers out of range and on terms
that are no numbers. -/
def float : Term → Option ℚ
  | .int z => if roundedNat z.natAbs < 2^1024 then some (z.sign*roundedNat z.natAbs) else none
  | .float q => some q
  | _ => none

example : float (.int (2^53+1)) = some 9007199254740992 := by decide +kernel

def Term.rank : Term → ℕ
  | .int _ => 0
  | .float _ => 0
  | .atom _ => 1
  | .handle _ _ => 2
  | .tuple _ => 3
  | .map _ _ => 4
  | .nil => 5
  | .cons _ _ => 6
  | .bits _ => 7

def Handle.rank : Handle → ℕ
  | .reference => 0
  | .function => 1
  | .port => 2
  | .pid => 3

def Terms.length : Terms → ℕ
  | .none => 0
  | .more _ ts => ts.length+1

def orderOf (a b : ℚ) : Ordering := if a < b then .lt else if b < a then .gt else .eq

mutual

/-- The term order. Inside the keys of a map it is `exact`: an integer then comes
before every float. -/
def Term.order (exact : Bool) : Term → Term → Ordering
  | .int a, .int b => compare a b
  | .int a, .float b => if exact then .lt else orderOf a b
  | .float a, .int b => if exact then .gt else orderOf a b
  | .float a, .float b => orderOf a b
  | .atom a, .atom b => compare a b
  | .handle k m, .handle l n => (compare k.rank l.rank).then (compare m n)
  | .tuple ts, .tuple us => (compare ts.length us.length).then (ts.order exact us)
  | .map ks vs, .map ls us =>
    ((compare ks.length ls.length).then (ks.order true ls)).then (vs.order exact us)
  | .cons t ts, .cons u us => (t.order exact u).then (ts.order exact us)
  | .bits bs, .bits cs => compare bs cs
  | t, u => compare t.rank u.rank

def Terms.order (exact : Bool) : Terms → Terms → Ordering
  | .none, .none => .eq
  | .none, .more _ _ => .lt
  | .more _ _, .none => .gt
  | .more t ts, .more u us => (t.order exact u).then (ts.order exact us)

end

def Term.Less (a b : Term) : Prop := a.order false b = .lt

instance (a b : Term) : Decidable (a.Less b) :=
  inferInstanceAs (Decidable (a.order false b = .lt))

end Semestr4.ErlangTerm
