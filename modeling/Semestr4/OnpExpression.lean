import Mathlib.Data.List.TakeWhile
import Mathlib.Tactic.Linarith
import Semestr4.OnpCalculator
import Semestr4.PostfixTree

/-!
# What the calculator makes of integer expressions

On tokens of integers and the operators `+`, `-` and `*` the stack of numbers
follows the stack of trees that reads the same tokens. The result at the end is
the value on top, unless it is below the bound that is taken for zero.
-/

set_option autoImplicit false

namespace Semestr4.OnpExpression
open Semestr4.OnpCalculator Semestr4.PostfixTree

structure Literal where
  text : Chars
  value : ℤ
  reads : listToInteger text = some value

inductive Op where
  | add
  | sub
  | mul
  deriving DecidableEq, Repr

def Op.text : Op → Chars
  | .add => ['+']
  | .sub => ['-']
  | .mul => ['*']

def Op.apply : Op → ℤ → ℤ → ℤ
  | .add, x, y => x+y
  | .sub, x, y => x-y
  | .mul, x, y => x*y

abbrev Expr := Tree Literal Op

def valueOf (e : Expr) : ℤ := PostfixTree.value Literal.value Op.apply e

def textOf : Token Literal Op → Chars
  | .leaf a => a.text
  | .op o => o.text

def spaced (ts : List (Token Literal Op)) : Chars := [' '].intercalate (ts.map textOf)

theorem splitSign_mem {s : Chars} {c : Char} (h : c ∈ s) :
    c = '-' ∨ c = '+' ∨ c ∈ (splitSign s).2 := by
  unfold splitSign
  split
  · rcases List.mem_cons.mp h with rfl | h
    · exact Or.inl rfl
    · exact Or.inr (Or.inr h)
  · rcases List.mem_cons.mp h with rfl | h
    · exact Or.inr (Or.inl rfl)
    · exact Or.inr (Or.inr h)
  · exact Or.inr (Or.inr h)

theorem Literal.digits (a : Literal) :
    (splitSign a.text).2 ≠ [] ∧ ∀ c ∈ (splitSign a.text).2, c.isDigit = true := by
  have hreads := a.reads
  unfold listToInteger at hreads
  split at hreads
  rename_i sign digits hsplit
  rw [hsplit]
  split at hreads
  · rename_i h
    exact ⟨h.1, List.all_eq_true.mp h.2⟩
  · cases hreads

theorem Literal.no_blank (a : Literal) : ' ' ∉ a.text := by
  intro hmem
  rcases splitSign_mem hmem with h | h | h
  · exact absurd h (by decide)
  · exact absurd h (by decide)
  · exact absurd (a.digits.2 ' ' h) (by decide)

theorem Literal.ne_nil (a : Literal) : a.text ≠ [] := by
  intro h
  have hdigits := a.digits.1
  rw [h] at hdigits
  exact hdigits rfl

theorem Literal.ne (a : Literal) {token : Chars} (h : listToInteger token = none) :
    a.text ≠ token := by
  rintro rfl
  rw [a.reads] at h
  cases h

theorem Literal.startsFloat (a : Literal) : OnpCalculator.startsFloat a.text = false := by
  have hnone : (splitSign a.text).2.dropWhile Char.isDigit = [] := by
    rw [List.dropWhile_eq_nil_iff]
    exact a.digits.2
  unfold OnpCalculator.startsFloat
  simp only [hnone]

section
variable (fl : Floats)

theorem literal_value (a : Literal) : literal fl a.text = .ok (.int a.value) := by
  unfold literal
  rw [a.startsFloat, if_neg Bool.false_ne_true, a.reads]
  rfl

theorem onpToken_leaf (a : Literal) (stack : List Number) :
    onpToken fl a.text stack = .ok (.int a.value::stack) := by
  unfold onpToken
  split
  case h_12 =>
    rw [literal_value]
    rfl
  all_goals
    rename_i heq
    exact absurd heq (a.ne rfl)

theorem onpToken_op (o : Op) (x y : ℤ) (stack : List Number) :
    onpToken fl o.text (.int y::.int x::stack) = .ok (.int (o.apply x y)::stack) := by
  cases o <;> rfl

theorem onpToken_short (o : Op) (stack : List Number) (h : stack.length < 2) :
    onpToken fl o.text stack = .error .badarg := by
  match stack with
  | [] => cases o <;> rfl
  | [h1] => cases o <;> rfl
  | h1::h2::rest =>
    rw [List.length_cons, List.length_cons] at h
    omega

def numbers (st : List Expr) : List Number := st.map fun t => .int (valueOf t)

/-- The stack of numbers has the values of the stack of trees. -/
theorem onpHelper_build (ts : List (Token Literal Op)) (st : List Expr) :
    onpHelper fl (ts.map textOf) (numbers st) = match build ts st with
      | none => .error .badarg
      | some st' => onpHelper fl [] (numbers st') := by
  induction ts generalizing st with
  | nil => rfl
  | cons token ts ih =>
    rw [List.map_cons, onpHelper]
    cases token with
    | leaf a =>
      rw [textOf, onpToken_leaf]
      exact ih (.leaf a::st)
    | op o =>
      rw [textOf]
      match st with
      | [] =>
        rw [onpToken_short fl o (numbers []) (by decide)]
        rfl
      | [r] =>
        rw [onpToken_short fl o (numbers [r]) (Nat.lt_succ_self 1)]
        rfl
      | r::l::st =>
        rw [show numbers (r::l::st) = .int (valueOf r)::.int (valueOf l)::numbers st from rfl,
          onpToken_op]
        exact ih (.node o l r::st)

theorem textOf_token (token : Token Literal Op) : textOf token ≠ [] ∧ ' ' ∉ textOf token := by
  cases token with
  | leaf a => exact ⟨a.ne_nil, a.no_blank⟩
  | op o => cases o <;> exact ⟨by decide, by decide⟩

theorem tokens_spaced (ts : List (Token Literal Op)) : tokens (spaced ts) = ts.map textOf := by
  by_cases hts : ts = []
  · rw [hts]
    rfl
  · have hblank : ∀ l ∈ ts.map textOf, ' ' ∉ l := by
      intro l hl
      obtain ⟨token, -, rfl⟩ := List.mem_map.mp hl
      exact (textOf_token token).2
    have hne : ts.map textOf ≠ [] := fun h => hts (List.map_eq_nil_iff.mp h)
    rw [tokens, spaced, List.splitOn_intercalate ' ' hblank hne, List.filter_eq_self]
    intro l hl
    obtain ⟨token, -, rfl⟩ := List.mem_map.mp hl
    exact decide_eq_true (textOf_token token).1

theorem onp_build (ts : List (Token Literal Op)) :
    onp fl (spaced ts) = match build ts [] with
      | none => .error .badarg
      | some st => onpHelper fl [] (numbers st) := by
  rw [onp, tokens_spaced]
  exact onpHelper_build fl ts []

end

theorem int_tiny (z : ℤ) : (Number.int z).exact < tiny ↔ z ≤ 0 := by
  have hpos : (0:ℚ) < tiny := by
    unfold tiny
    norm_num
  have hsmall : tiny < 1 := by
    unfold tiny
    norm_num
  rw [Number.exact]
  constructor
  · intro h
    by_contra hz
    have hone : (1:ℚ) ≤ z := by exact_mod_cast not_le.mp hz
    linarith
  · intro h
    have hzero : (z:ℚ) ≤ 0 := by exact_mod_cast h
    linarith

theorem onpHelper_end (fl : Floats) (z : ℤ) (stack : List Number) :
    onpHelper fl [] (.int z::stack) = .ok (.int (max z 0)) := by
  show Except.ok (if (Number.int z).exact < tiny then Number.int 0 else .int z) = _
  by_cases hz : z ≤ 0
  · rw [if_pos ((int_tiny z).mpr hz), max_eq_right hz]
  · rw [if_neg ((int_tiny z).not.mpr hz), max_eq_left (not_le.mp hz).le]

/-- The value of the tree that ends up on top of the stack, or 0 for a negative
one. -/
theorem onp_ends (fl : Floats) {ts : List (Token Literal Op)} {e : Expr} {st : List Expr}
    (h : build ts [] = some (e::st)) : onp fl (spaced ts) = .ok (.int (max (valueOf e) 0)) := by
  rw [onp_build, h]
  exact onpHelper_end fl (valueOf e) (numbers st)

/-- An expression is evaluated exactly if its value is not negative. -/
theorem onp_value_iff (fl : Floats) (e : Expr) :
    onp fl (spaced (postorder e)) = .ok (.int (valueOf e)) ↔ 0 ≤ valueOf e := by
  have hbuild : build (postorder e) [] = some [e] := by
    have h := build_postorder e [] []
    rwa [List.append_nil] at h
  rw [onp_ends fl hbuild, Except.ok.injEq, Number.int.injEq, max_eq_left_iff]

def exactFloats : Floats where
  round := some
  sqrt _ := none
  sin _ := none
  cos _ := none
  tan _ := none
  pow _ _ := none
  pi := 0
  listToFloat _ := none

def two : Literal := ⟨['2'], 2, rfl⟩

def five : Literal := ⟨['5'], 5, rfl⟩

/-- The difference of 2 and 5 is given as 0. -/
theorem difference_cut_off :
    spaced (postorder (.node .sub (.leaf two) (.leaf five))) = ['2', ' ', '5', ' ', '-'] ∧
    valueOf (.node .sub (.leaf two) (.leaf five)) = -3 ∧
    onp exactFloats ['2', ' ', '5', ' ', '-'] = .ok (.int 0) := by
  have hbuild : build (postorder (.node .sub (.leaf two) (.leaf five))) [] =
      some [(.node .sub (.leaf two) (.leaf five) : Expr)] := rfl
  exact ⟨by decide, by decide, onp_ends exactFloats hbuild⟩

theorem onp_returns (fl : Floats) (ts : List (Token Literal Op)) :
    (∃ n, onp fl (spaced ts) = .ok n) ↔ ∃ es : List Expr, es ≠ [] ∧ es.flatMap postorder = ts := by
  constructor
  · rintro ⟨n, hn⟩
    rw [onp_build] at hn
    cases hbuild : build ts [] with
    | none =>
      rw [hbuild] at hn
      cases hn
    | some st =>
      rw [hbuild] at hn
      refine ⟨st.reverse, ?_, (build_iff.mp hbuild).symm⟩
      intro hnil
      rw [List.reverse_eq_nil_iff] at hnil
      rw [hnil] at hn
      cases hn
  · rintro ⟨es, hne, rfl⟩
    have hbuild := build_flatMap es []
    rw [List.append_nil] at hbuild
    cases hst : es.reverse with
    | nil => exact absurd (List.reverse_eq_nil_iff.mp hst) hne
    | cons e st => exact ⟨_, onp_ends fl (hst ▸ hbuild)⟩

/-- Having a result means to be the tokens of one expression, except for the
tokens of several in a row. -/
theorem onp_single_iff (fl : Floats) (ts : List (Token Literal Op)) :
    ((∃ n, onp fl (spaced ts) = .ok n) ↔ ∃ e : Expr, postorder e = ts) ↔
      ¬ ∃ es : List Expr, 2 ≤ es.length ∧ es.flatMap postorder = ts := by
  rw [onp_returns]
  constructor
  · rintro h ⟨es, hlen, hes⟩
    have hne : es ≠ [] := List.ne_nil_of_length_pos (by omega)
    obtain ⟨e, he⟩ := h.mp ⟨es, hne, hes⟩
    have hone : [e].flatMap postorder = ts := by
      rw [List.flatMap_singleton, he]
    rw [flatMap_injective (hes.trans hone.symm), List.length_singleton] at hlen
    omega
  · intro h
    constructor
    · rintro ⟨es, hne, hes⟩
      match es with
      | [] => exact absurd rfl hne
      | [e] => exact ⟨e, by rwa [List.flatMap_singleton] at hes⟩
      | e::f::es =>
        refine absurd ⟨e::f::es, ?_, hes⟩ h
        rw [List.length_cons, List.length_cons]
        omega
    · rintro ⟨e, rfl⟩
      exact ⟨[e], List.cons_ne_nil e [], List.flatMap_singleton ..⟩

/-- The tokens of two expressions are no tokens of one, and have a result. -/
theorem operand_left_over :
    onp exactFloats ['2', ' ', '5'] = .ok (.int 5) ∧
    spaced [.leaf two, .leaf five] = ['2', ' ', '5'] ∧
    ¬ ∃ e : Expr, postorder e = [.leaf two, .leaf five] := by
  have hbuild : build [.leaf two, .leaf five] [] =
      some [(.leaf five : Expr), .leaf two] := rfl
  refine ⟨onp_ends exactFloats hbuild, by decide, ?_⟩
  · rintro ⟨e, he⟩
    have htwo : [Tree.leaf two, .leaf five].flatMap postorder = [e].flatMap postorder := by
      rw [List.flatMap_singleton, he]
      rfl
    cases flatMap_injective htwo

end Semestr4.OnpExpression
