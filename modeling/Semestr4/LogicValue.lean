import Semestr4.LogicGrammar

/-!
# What `value` computes

The loop over a postorder string is the lazy postfix machine, with numbers for
its values. It never finds the stack empty, but an operator whose right operand
decides leaves its left operand on the stack, for a later one to take.
-/

set_option autoImplicit false

namespace Semestr4.LogicValue
open Semestr4.LogicEvaluator Semestr4.PostfixMachine Semestr4.LogicGrammar

def bit : Bool → Char
  | true => '1'
  | false => '0'

def number : Bool → ℤ
  | true => 1
  | false => 0

def bits (A : Alphabet) (ρ : Char → Bool) (s : List Char) : List Char :=
  (foo A s).map fun z => bit (ρ z)

variable {A : Alphabet}

def onLetters (ρ : Char → Bool) (a : Letter A) : Bool := ρ a.1

def token : Instr (Letter A) → Char
  | .push a => a.1
  | .op o => sign o

theorem post_postorder (t : OpTree (Letter A)) : post t = (postorder t).map token := by
  induction t with
  | leaf a => rfl
  | node o l r ihl ihr => simp [post, postorder, ihl, ihr, token]

def read (A : Alphabet) (ρ : Char → Bool) (z : Char) : Char :=
  if A.isalpha z then bit (ρ z) else z

theorem mapuj_bits {ρ : Char → Bool} {zm w : List Char}
    (h : ∀ z ∈ w, z ∈ zm ↔ A.isalpha z = true) :
    mapuj w zm (zm.map fun z => bit (ρ z)) = .ok (w.map (read A ρ)) := by
  induction w with
  | nil => rfl
  | cons z w ih =>
    have ih := ih fun y hy => h y (List.mem_cons_of_mem _ hy)
    have hz := h z (List.mem_cons_self ..)
    unfold mapuj at ih ⊢
    rw [List.mapM_cons, ih]
    by_cases hmem : z ∈ zm
    · simp only [List.count_pos_iff, hmem, if_true, List.getElem?_map, List.getElem?_idxOf hmem,
        Option.map_some, List.map_cons, read, hz.mp hmem]
      rfl
    · have hno : ¬ A.isalpha z = true := fun hl => hmem (hz.mpr hl)
      simp only [List.count_pos_iff, hmem, if_false, List.map_cons, read, hno]
      rfl

theorem read_token (ρ : Char → Bool) (i : Instr (Letter A)) : read A ρ (token i) = match i with
    | .push a => bit (ρ a.1)
    | .op o => sign o := by
  cases i with
  | push a => simp [read, token, a.2]
  | op o => simp [read, token, sign_not_alpha]

theorem evalStep_exec {ρ : Char → Bool} {i : Instr (Letter A)} {st st' : List Bool}
    (h : exec (onLetters ρ) i st = some st') :
    evalStep (st.map number) (read A ρ (token i)) = .ok (st'.map number) := by
  rw [read_token]
  cases i with
  | push a =>
    cases h
    cases hb : ρ a.1 <;> simp [evalStep, bit, number, onLetters, hb]
  | op o =>
    cases st with
    | nil => cases h
    | cons y st =>
      simp only [exec] at h
      split at h
      · rename_i hd
        cases h
        cases o <;> cases y <;>
          simp_all [evalStep, sign, pop, number, Op.decides, bind, Except.bind, pure, Except.pure]
      · rename_i hd
        cases st with
        | nil => cases h
        | cons x st =>
          cases h
          cases o <;> cases y <;> cases x <;>
            simp_all [evalStep, sign, pop, number, Op.decides, Op.taken, bind, Except.bind, pure,
              Except.pure]

theorem foldlM_run {ρ : Char → Bool} {is : List (Instr (Letter A))} {st st' : List Bool}
    (h : run (onLetters ρ) is st = some st') :
    ((is.map token).map (read A ρ)).foldlM evalStep (st.map number) = .ok (st'.map number) := by
  induction is generalizing st with
  | nil =>
    cases h
    rfl
  | cons i is ih =>
    unfold run at h
    rw [List.foldlM_cons, Option.bind_eq_bind, Option.bind_eq_some_iff] at h
    obtain ⟨mid, hi, his⟩ := h
    rw [List.map_cons, List.map_cons, List.foldlM_cons, evalStep_exec hi]
    exact ih his

theorem value_post (t : OpTree (Letter A)) (ρ : Char → Bool) :
    value A (post t) (bits A ρ (post t)) = .ok (number (outcome (onLetters ρ) t).1) := by
  have hmap : mapuj (post t) (foo A (post t)) (bits A ρ (post t)) =
      .ok ((post t).map (read A ρ)) := mapuj_bits fun z hz => by simp [mem_foo, hz]
  have hrun := run_postorder (onLetters ρ) t [] []
  rw [List.append_nil, List.append_nil] at hrun
  have hfold : ((post t).map (read A ρ)).foldlM evalStep [] = .ok
      (((outcome (onLetters ρ) t).1::(outcome (onLetters ρ) t).2).map number) := by
    rw [post_postorder]
    exact foldlM_run hrun
  simp only [value, hmap, hfold, bind, Except.bind, List.map_cons, pop]
  rfl

theorem number_inj {x y : Bool} : number x = number y ↔ x = y := by
  cases x <;> cases y <;> decide

theorem exists_extension (ρ : Letter A → Bool) : ∃ σ : Char → Bool, onLetters σ = ρ := by
  refine ⟨fun z => if h : A.isalpha z = true then ρ ⟨z, h⟩ else false, ?_⟩
  funext a
  simp [onLetters, a.2]

/-- `value` never finds its stack empty. Of a tree and all its subtrees it gives
the truth values exactly when every operator that takes a second operand finds
its own left operand on the stack or an equal value. Of all trees of a shape it
gives them exactly when no right operand can leave a value on the stack under
one that does not decide its operator. -/
theorem value_right_iff (A : Alphabet) (t : OpTree (Letter A)) :
    (∀ ρ, ∃ b, value A (post t) (bits A ρ (post t)) = .ok (number b)) ∧
    (∀ ρ, Everywhere (fun s => value A (post s) (bits A ρ (post s)) =
      .ok (number (truth (onLetters ρ) s))) t ↔ TakesOwn (onLetters ρ) t) ∧
    ((∀ s : OpTree (Letter A), s.shape = t.shape → ∀ ρ, value A (post s) (bits A ρ (post s)) =
      .ok (number (truth (onLetters ρ) s))) ↔ Tidy t.shape) := by
  refine ⟨fun ρ => ⟨_, value_post t ρ⟩, fun ρ => ?_, ?_⟩
  · rw [← everywhere_right_iff]
    simp only [value_post, Except.ok.injEq, number_inj]
  · have hletters : ∃ ρ : Letter A → Bool, ∀ v, ∃ a, ρ a = v := by
      refine ⟨fun a => decide (a.1 = 'a'), fun v => ?_⟩
      cases v with
      | true => exact ⟨⟨'a', A.latin 'a' (by decide)⟩, rfl⟩
      | false => exact ⟨⟨'b', A.latin 'b' (by decide)⟩, rfl⟩
    obtain ⟨ρ, hρ⟩ := hletters
    rw [← shape_right_iff hρ]
    simp only [value_post, Except.ok.injEq, number_inj]
    constructor
    · intro h s hs ρ
      obtain ⟨σ, rfl⟩ := exists_extension ρ
      exact h s hs σ
    · exact fun h s hs ρ => h s hs (onLetters ρ)

/-- In `x|(a&b)` with `b` false the operand `a` stays on the stack and is taken
for `x`. -/
theorem value_takes_stray : ¬ ∀ (t : OpTree (Letter ascii)) (ρ : Char → Bool),
    value ascii (post t) (bits ascii ρ (post t)) = .ok (number (truth (onLetters ρ) t)) := by
  intro h
  have hwrong := h (.node .or (.leaf ⟨'x', rfl⟩) (.node .and (.leaf ⟨'a', rfl⟩) (.leaf ⟨'b', rfl⟩)))
    fun z => decide (z = 'a')
  exact absurd hwrong (by decide)

end Semestr4.LogicValue
