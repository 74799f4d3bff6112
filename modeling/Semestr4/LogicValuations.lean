import Semestr4.LogicVerdict
import Semestr4.StoppedLoop

/-!
# The valuations examined

The enumerator counts in binary, so it yields every valuation once. The loops
over it stop at the first valuation that decides.
-/

set_option autoImplicit false

namespace Semestr4.LogicValuations
open Semestr4.LogicEvaluator Semestr4.LogicVerdict Semestr4.StoppedLoop
open Semestr4.LogicValue

def Valuation (n : ℕ) (val : List Char) : Prop := val.length = n ∧ ∀ z ∈ val, z = '0' ∨ z = '1'

def Exhausts (n : ℕ) (vals : List (List Char)) : Prop := ∀ val, Valuation n val → vals.count val = 1

theorem mem_gen_valuation {n : ℕ} (hn : 0 < n) (val : List Char) :
    val ∈ gen n ↔ Valuation n val := by
  have hbit : ∀ z : Char, (∃ b, z = bit b) ↔ z = '0' ∨ z = '1' := by
    intro z
    simp [bit]
  rw [mem_gen_iff hn, Valuation]
  simp only [hbit]

theorem digitChar_inj : ∀ i < 2, ∀ j < 2, i.digitChar = j.digitChar → i = j := by
  decide

theorem padded_inj {n : ℕ} (hn : 0 < n) {i j : ℕ} (hi : i < 2^n) (hj : j < 2^n)
    (h : padded n i = padded n j) : i = j := by
  induction n, hn using Nat.le_induction generalizing i j with
  | base =>
    have hone : ∀ i < 2, ∀ j < 2, padded 1 i = padded 1 j → i = j := by decide +kernel
    exact hone i hi j hj h
  | succ n hn ih =>
    rw [padded_succ hn, padded_succ hn] at h
    rw [pow_succ] at hi hj
    obtain ⟨hhalf, hlast⟩ := List.append_inj' h rfl
    have hdiv := ih (by omega) (by omega) hhalf
    have hmod := digitChar_inj (i%2) (Nat.mod_lt i Nat.two_pos) (j%2) (Nat.mod_lt j Nat.two_pos)
      (List.singleton_inj.mp hlast)
    omega

theorem gen_nodup {n : ℕ} (hn : 0 < n) : (gen n).Nodup := by
  apply List.Nodup.map_on _ List.nodup_range
  intro i hi j hj h
  exact padded_inj hn (List.mem_range.mp hi) (List.mem_range.mp hj) h

section
variable (A : Alphabet)

/-- One valuation in the loop of `isTautology`. -/
def nonzero (expr val : List Char) : Except Raised Bool := do
  let p ← onp A expr
  let x ← value A p val
  return decide (x ≠ 0)

/-- One valuation in the loop of `areTheSame`. -/
def equal (expr1 expr2 val : List Char) : Except Raised Bool := do
  let p1 ← onp A expr1
  let x1 ← value A p1 val
  let p2 ← onp A expr2
  let x2 ← value A p2 val
  return decide (x1 = x2)

def tautologyExamines (expr : List Char) : List (List Char) :=
  (loop (nonzero A expr) (gen (foo A expr).length)).2

def sameExamines (expr1 expr2 : List Char) : List (List Char) :=
  if foo A expr1 ≠ foo A expr2 then []
  else (loop (equal A expr1 expr2) (gen (foo A expr1).length)).2

end

variable {A : Alphabet}

theorem nowhereFalse_loop (w : List Char) (vals : List (List Char)) :
    nowhereFalse A w vals = (loop (nonzero A w) vals).1 := by
  refine eq_loop rfl (fun val rest => ?_) vals
  rw [nowhereFalse, nonzero]
  simp only [bind_assoc, pure_bind, decide_eq_true_eq, ite_not]

theorem nowhereDifferent_loop (w w' : List Char) (vals : List (List Char)) :
    nowhereDifferent A w w' vals = (loop (equal A w w') vals).1 := by
  refine eq_loop rfl (fun val rest => ?_) vals
  rw [nowhereDifferent, equal]
  simp only [bind_assoc, pure_bind, decide_eq_true_eq, ite_not]

/-- The valuations come in the order of the enumerator and none twice. All of
them come, each once, where none has decided against. -/
structure Examined (n : ℕ) (verdict : Except Raised Bool) (vals : List (List Char)) : Prop where
  order : vals <+: gen n
  once : vals.Nodup
  all : verdict = .ok true → Exhausts n vals

theorem examined_loop {n : ℕ} (hn : 0 < n) (test : List Char → Except Raised Bool) :
    Examined n (loop test (gen n)).1 (loop test (gen n)).2 where
  order := loop_seen test (gen n)
  once := (loop_seen test (gen n)).sublist.nodup (gen_nodup hn)
  all := by
    intro h val hval
    rw [loop_all h]
    exact List.count_eq_one_of_mem (gen_nodup hn) ((mem_gen_valuation hn val).mpr hval)

theorem isTautology_examined {w : List Char} (hn : 0 < (foo A w).length) :
    Examined (foo A w).length (isTautology A w) (tautologyExamines A w) := by
  rw [isTautology, nowhereFalse_loop]
  exact examined_loop hn _

theorem areTheSame_examined {w w' : List Char} (hn : 0 < (foo A w).length) :
    Examined (foo A w).length (areTheSame A w w') (sameExamines A w w') := by
  rw [areTheSame, sameExamines, nowhereDifferent_loop]
  by_cases hvars : foo A w ≠ foo A w'
  · rw [if_pos hvars, if_pos hvars]
    exact ⟨List.nil_prefix, List.nodup_nil, fun h => by cases h⟩
  · rw [if_neg hvars, if_neg hvars]
    exact examined_loop hn _

theorem valuations_examined (n : ℕ) (hn : 0 < n) :
    (∀ val ∈ gen n, Valuation n val) ∧ (gen n).Nodup ∧ (∀ val, Valuation n val → val ∈ gen n) ∧
    ∀ (A : Alphabet) (w : List Char), (foo A w).length = n →
      Examined n (isTautology A w) (tautologyExamines A w) ∧
      ∀ w', Examined n (areTheSame A w w') (sameExamines A w w') := by
  refine ⟨fun val => (mem_gen_valuation hn val).mp, gen_nodup hn,
    fun val => (mem_gen_valuation hn val).mpr, ?_⟩
  rintro A w rfl
  exact ⟨isTautology_examined hn, fun w' => areTheSame_examined hn⟩

theorem valuations_examined_two : (gen 2).Nodup ∧
    Examined 2 (areTheSame ascii "a&b".toList "b&a".toList)
      (sameExamines ascii "a&b".toList "b&a".toList) := by
  obtain ⟨-, hnodup, -, hall⟩ := valuations_examined 2 (by decide)
  exact ⟨hnodup, (hall ascii "a&b".toList (by decide)).2 _⟩

/-- One variable alone is no tautology, and its value 1 is not looked at. -/
theorem valuations_skipped : ¬∀ n, 0 < n →
    (∀ val ∈ gen n, Valuation n val) ∧ (gen n).Nodup ∧ (∀ val, Valuation n val → val ∈ gen n) ∧
    ∀ (A : Alphabet) (w : List Char), (foo A w).length = n →
      Exhausts n (tautologyExamines A w) ∧
      ∀ w', foo A w = foo A w' → Exhausts n (sameExamines A w w') := by
  intro h
  have hone := ((h 1 (by decide)).2.2.2 ascii ['a'] (by decide)).1 ['1'] ⟨rfl, by simp⟩
  exact absurd hone (by decide +kernel)

end Semestr4.LogicValuations
