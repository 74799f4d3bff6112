import Mathlib.Logic.Basic
import Mathlib.Data.List.Basic

/-!
# A postfix machine with lazy operators

Trees of conjunctions, disjunctions and implications, and a stack machine that
runs their postorder. An operator pops the value of its right operand and pops
a second one only when the first does not decide the result. The left operand
then stays on the stack, where a later operator can take it for its own.
-/

set_option autoImplicit false

namespace Semestr4.PostfixMachine

inductive Op where
  | and
  | or
  | imp
  deriving DecidableEq, Repr

inductive OpTree (α : Type*) where
  | leaf (a : α)
  | node (o : Op) (l r : OpTree α)
  deriving DecidableEq, Repr

def Op.truth : Op → Bool → Bool → Bool
  | .and, x, y => x && y
  | .or, x, y => x || y
  | .imp, x, y => !x || y

def Op.decides : Op → Bool → Bool
  | .and, y => !y
  | .or, y => y
  | .imp, y => y

def Op.taken : Op → Bool → Bool
  | .and, x => x
  | .or, x => x
  | .imp, x => !x

def Op.neutral : Op → Bool
  | .and => true
  | .or => false
  | .imp => false

theorem Op.truth_decides {o : Op} {x y : Bool} (h : o.decides y = true) : o.truth x y = y := by
  cases o <;> cases x <;> simp_all [Op.decides, Op.truth]

theorem Op.truth_neutral {o : Op} {x y : Bool} (h : o.decides y = false) :
    o.truth x y = o.taken x := by
  cases o <;> cases x <;> simp_all [Op.decides, Op.truth, Op.taken]

theorem Op.neutral_decides (o : Op) : o.decides o.neutral = false := by
  cases o <;> rfl

theorem Op.eq_neutral {o : Op} {y : Bool} (h : o.decides y = false) : y = o.neutral := by
  cases o <;> simpa [Op.decides, Op.neutral] using h

theorem Op.taken_inj (o : Op) {x y : Bool} : o.taken x = o.taken y ↔ x = y := by
  cases o <;> simp [Op.taken]

theorem Op.taken_taken (o : Op) (x : Bool) : o.taken (o.taken x) = x := by
  cases o <;> simp [Op.taken]

section
variable {α : Type*}

def truth (ρ : α → Bool) : OpTree α → Bool
  | .leaf a => ρ a
  | .node o l r => o.truth (truth ρ l) (truth ρ r)

inductive Instr (α : Type*) where
  | push (a : α)
  | op (o : Op)
  deriving DecidableEq, Repr

def postorder : OpTree α → List (Instr α)
  | .leaf a => [.push a]
  | .node o l r => postorder l ++ postorder r ++ [.op o]

/-- One instruction on a stack with its top first, where there is enough to pop. -/
def exec (ρ : α → Bool) : Instr α → List Bool → Option (List Bool)
  | .push a, st => some (ρ a::st)
  | .op _, [] => none
  | .op o, y::st => if o.decides y then some (y::st) else match st with
    | [] => none
    | x::st => some (o.taken x::st)

def run (ρ : α → Bool) (is : List (Instr α)) (st : List Bool) : Option (List Bool) :=
  is.foldlM (fun st i => exec ρ i st) st

def outcome (ρ : α → Bool) : OpTree α → Bool × List Bool
  | .leaf a => (ρ a, [])
  | .node o l r => match outcome ρ r, outcome ρ l with
    | (y, ys), (x, xs) => if o.decides y then (y, ys++x::xs) else match ys with
      | [] => (o.taken x, xs)
      | z::zs => (o.taken z, zs++x::xs)

theorem outcome_node (ρ : α → Bool) (o : Op) (l r : OpTree α) :
    outcome ρ (.node o l r) = if o.decides (outcome ρ r).1 then
        ((outcome ρ r).1, (outcome ρ r).2++(outcome ρ l).1::(outcome ρ l).2)
      else match (outcome ρ r).2 with
        | [] => (o.taken (outcome ρ l).1, (outcome ρ l).2)
        | z::zs => (o.taken z, zs++(outcome ρ l).1::(outcome ρ l).2) := rfl

/-- The code runs on every stack and leaves what was there untouched. -/
theorem run_postorder (ρ : α → Bool) (t : OpTree α) (rest : List (Instr α)) (st : List Bool) :
    run ρ (postorder t++rest) st = run ρ rest ((outcome ρ t).1::(outcome ρ t).2++st) := by
  induction t generalizing rest st with
  | leaf a => rfl
  | node o l r ihl ihr =>
    simp only [postorder, List.append_assoc]
    rw [ihl, ihr]
    have hop : exec ρ (.op o) ((outcome ρ r).1::(outcome ρ r).2++
        ((outcome ρ l).1::(outcome ρ l).2++st)) =
        some ((outcome ρ (.node o l r)).1::(outcome ρ (.node o l r)).2++st) := by
      rw [outcome_node]
      simp only [List.cons_append, exec]
      split
      · simp only [List.append_assoc, List.cons_append]
      · cases (outcome ρ r).2 with
        | nil => rfl
        | cons z zs => simp only [List.cons_append, List.append_assoc]
    simp only [List.singleton_append, run, List.foldlM_cons, hop]
    rfl

/-- The values that operators leave unused, each operator having its own two. -/
def leftover (ρ : α → Bool) : OpTree α → List Bool
  | .leaf _ => []
  | .node o l r =>
    if o.decides (truth ρ r) then leftover ρ r++truth ρ l::leftover ρ l
    else match leftover ρ r with
      | [] => leftover ρ l
      | _::zs => zs++truth ρ l::leftover ρ l

/-- An operator that takes a second value finds its left operand on top, or a
value equal to it. -/
def TakesOwn (ρ : α → Bool) : OpTree α → Prop
  | .leaf _ => True
  | .node o l r => TakesOwn ρ l ∧ TakesOwn ρ r ∧
    (o.decides (truth ρ r) = true ∨ ∀ z ∈ (leftover ρ r).head?, z = truth ρ l)

def Everywhere (P : OpTree α → Prop) : OpTree α → Prop
  | .leaf a => P (.leaf a)
  | .node o l r => P (.node o l r) ∧ Everywhere P l ∧ Everywhere P r

theorem outcome_takesOwn {ρ : α → Bool} {t : OpTree α} (h : TakesOwn ρ t) :
    outcome ρ t = (truth ρ t, leftover ρ t) := by
  induction t with
  | leaf a => rfl
  | node o l r ihl ihr =>
    obtain ⟨hl, hr, hown⟩ := h
    rw [outcome_node, ihl hl, ihr hr]
    simp only [truth, leftover]
    by_cases hd : o.decides (truth ρ r) = true
    · rw [if_pos hd, if_pos hd, Op.truth_decides hd]
    · rw [if_neg hd, if_neg hd, Op.truth_neutral (by simpa using hd)]
      have hz := hown.resolve_left hd
      cases hrest : leftover ρ r with
      | nil => rfl
      | cons z zs =>
        rw [hrest] at hz
        rw [hz z rfl]

/-- The machine is right about every subtree exactly when each operator takes
its own left operand or an equal one. -/
theorem everywhere_right_iff (ρ : α → Bool) (t : OpTree α) :
    Everywhere (fun s => (outcome ρ s).1 = truth ρ s) t ↔ TakesOwn ρ t := by
  induction t with
  | leaf a => exact ⟨fun _ => trivial, fun _ => rfl⟩
  | node o l r ihl ihr =>
    constructor
    · rintro ⟨hroot, hl, hr⟩
      have hl := ihl.mp hl
      have hr := ihr.mp hr
      refine ⟨hl, hr, ?_⟩
      by_cases hd : o.decides (truth ρ r) = true
      · exact Or.inl hd
      · right
        intro z hz
        rw [outcome_node, outcome_takesOwn hl, outcome_takesOwn hr, if_neg hd] at hroot
        simp only [truth, Op.truth_neutral (Bool.eq_false_iff.mpr hd)] at hroot
        cases hrest : leftover ρ r with
        | nil => simp [hrest] at hz
        | cons x xs =>
          rw [hrest] at hroot hz
          obtain rfl : x = z := by simpa using hz
          exact o.taken_inj.mp hroot
    · intro h
      refine ⟨?_, ihl.mpr h.1, ihr.mpr h.2.1⟩
      exact congrArg Prod.fst (outcome_takesOwn h)

end

section
variable {α : Type*}

def OpTree.shape : OpTree α → OpTree Unit
  | .leaf _ => .leaf ()
  | .node o l r => .node o l.shape r.shape

def mayLeave : Bool → OpTree Unit → Bool
  | _, .leaf _ => false
  | true, .node .and l _ => mayLeave true l
  | false, .node .and _ _ => true
  | true, .node .or _ _ => true
  | false, .node .or l _ => mayLeave false l
  | true, .node .imp _ _ => true
  | false, .node .imp l _ => mayLeave true l

def Tidy : OpTree Unit → Prop
  | .leaf _ => True
  | .node o l r => Tidy l ∧ Tidy r ∧ mayLeave o.neutral r = false

instance decidableTidy : (s : OpTree Unit) → Decidable (Tidy s)
  | .leaf _ => inferInstanceAs (Decidable True)
  | .node o l r =>
    have := decidableTidy l
    have := decidableTidy r
    inferInstanceAs (Decidable (Tidy l ∧ Tidy r ∧ mayLeave o.neutral r = false))

theorem mayLeave_decided (o : Op) (y : Bool) (l r : OpTree Unit) (h : o.decides y = true) :
    mayLeave y (.node o l r) = true := by
  cases o <;> cases y <;> simp_all [mayLeave, Op.decides]

theorem mayLeave_taken (o : Op) (x : Bool) (l r : OpTree Unit) (h : mayLeave x l = true) :
    mayLeave (o.taken x) (.node o l r) = true := by
  cases o <;> cases x <;> simp_all [mayLeave, Op.taken]

theorem tidy_takesOwn (ρ : α → Bool) {t : OpTree α} (h : Tidy t.shape) :
    TakesOwn ρ t ∧ (leftover ρ t ≠ [] → mayLeave (truth ρ t) t.shape = true) := by
  induction t with
  | leaf a => exact ⟨trivial, fun hne => absurd rfl hne⟩
  | node o l r ihl ihr =>
    obtain ⟨hl, hr, hclean⟩ := h
    obtain ⟨hl, hleavel⟩ := ihl hl
    obtain ⟨hr, hleaver⟩ := ihr hr
    by_cases hd : o.decides (truth ρ r) = true
    · refine ⟨⟨hl, hr, Or.inl hd⟩, fun _ => ?_⟩
      rw [truth, Op.truth_decides hd]
      exact mayLeave_decided o _ _ _ hd
    · have hneutral : o.decides (truth ρ r) = false := Bool.eq_false_iff.mpr hd
      have hnil : leftover ρ r = [] := by
        by_contra hne
        have hmay := hleaver hne
        rw [Op.eq_neutral hneutral, hclean] at hmay
        cases hmay
      refine ⟨⟨hl, hr, Or.inr (by simp [hnil])⟩, fun hne => ?_⟩
      rw [leftover, if_neg hd, hnil] at hne
      rw [truth, Op.truth_neutral hneutral]
      exact mayLeave_taken o _ _ _ (hleavel hne)

-- The converse builds, on a shape that is not tidy, a tree with the wrong value. Leaves
-- of both values are at hand.

variable {ρ : α → Bool}

theorem outcome_neutral {o : Op} {l r : OpTree α} {x z : Bool} {xs zs : List Bool}
    (hr : outcome ρ r = (o.neutral, z::zs)) (hl : outcome ρ l = (x, xs)) :
    outcome ρ (.node o l r) = (o.taken z, zs++x::xs) := by
  rw [outcome_node, hr, hl]
  simp only [o.neutral_decides]
  rfl

theorem outcome_taken {o : Op} {l r : OpTree α} {x : Bool} {xs : List Bool}
    (hr : outcome ρ r = (o.neutral, [])) (hl : outcome ρ l = (x, xs)) :
    outcome ρ (.node o l r) = (o.taken x, xs) := by
  rw [outcome_node, hr, hl]
  simp only [o.neutral_decides]
  rfl

theorem outcome_decided {o : Op} {l r : OpTree α} {x y : Bool} {xs ys : List Bool}
    (hd : o.decides y = true) (hr : outcome ρ r = (y, ys)) (hl : outcome ρ l = (x, xs)) :
    outcome ρ (.node o l r) = (y, ys++x::xs) := by
  rw [outcome_node, hr, hl]
  exact if_pos hd

def Yields (ρ : α → Bool) (s : OpTree Unit) (v : Bool) (rest : List Bool) (t : OpTree α) : Prop :=
  t.shape = s ∧ outcome ρ t = (v, rest)

theorem exists_exact (hρ : ∀ v, ∃ a, ρ a = v) (s : OpTree Unit) (v : Bool) :
    ∃ t, Yields ρ s v [] t ∧ truth ρ t = v := by
  induction s generalizing v with
  | leaf u =>
    obtain ⟨a, ha⟩ := hρ v
    exact ⟨.leaf a, ⟨rfl, by rw [outcome, ha]⟩, ha⟩
  | node o l r ihl ihr =>
    obtain ⟨tl, ⟨hls, hl⟩, htl⟩ := ihl (o.taken v)
    obtain ⟨tr, ⟨hrs, hr⟩, htr⟩ := ihr o.neutral
    refine ⟨.node o tl tr, ⟨by rw [OpTree.shape, hls, hrs], ?_⟩, ?_⟩
    · rw [outcome_taken hr hl, o.taken_taken]
    · rw [truth, htr, Op.truth_neutral o.neutral_decides, htl, o.taken_taken]

theorem exists_leaving (hρ : ∀ v, ∃ a, ρ a = v) {s : OpTree Unit} {v : Bool}
    (h : mayLeave v s = true) (y : Bool) : ∃ t, Yields ρ s v [y] t ∧ truth ρ t = v := by
  induction s generalizing v with
  | leaf u => cases v <;> cases h
  | node o l r ihl ihr =>
    by_cases hd : o.decides v = true
    · obtain ⟨tl, ⟨hls, hl⟩, -⟩ := exists_exact hρ l y
      obtain ⟨tr, ⟨hrs, hr⟩, htr⟩ := exists_exact hρ r v
      refine ⟨.node o tl tr, ⟨by rw [OpTree.shape, hls, hrs], outcome_decided hd hr hl⟩, ?_⟩
      rw [truth, htr, Op.truth_decides hd]
    · have hmay : mayLeave (o.taken v) l = true := by
        cases o <;> cases v <;> simp_all [mayLeave, Op.decides, Op.taken]
      obtain ⟨tl, ⟨hls, hl⟩, htl⟩ := ihl hmay
      obtain ⟨tr, ⟨hrs, hr⟩, htr⟩ := exists_exact hρ r o.neutral
      refine ⟨.node o tl tr, ⟨by rw [OpTree.shape, hls, hrs], ?_⟩, ?_⟩
      · rw [outcome_taken hr hl, o.taken_taken]
      · rw [truth, htr, Op.truth_neutral o.neutral_decides, htl, o.taken_taken]

theorem exists_right (hρ : ∀ v, ∃ a, ρ a = v) {o : Op} {l r : OpTree Unit} {y : Bool}
    (h : ¬ Tidy (.node o l r)) (hl : Tidy l)
    (huntidy : ¬ Tidy r → ∃ t, Yields ρ r o.neutral [y] t) :
    ∃ t, Yields ρ r o.neutral [y] t := by
  by_cases hr : Tidy r
  · have hmay : mayLeave o.neutral r = true := by
      by_contra hclean
      exact h ⟨hl, hr, Bool.eq_false_iff.mpr hclean⟩
    obtain ⟨t, ht, -⟩ := exists_leaving hρ hmay y
    exact ⟨t, ht⟩
  · exact huntidy hr

theorem exists_untidy (hρ : ∀ v, ∃ a, ρ a = v) {s : OpTree Unit} (h : ¬ Tidy s) (v y : Bool) :
    ∃ t, Yields ρ s v [y] t := by
  induction s generalizing v y with
  | leaf u => exact absurd trivial h
  | node o l r ihl ihr =>
    by_cases hl : Tidy l
    · obtain ⟨tr, hrs, hr⟩ := exists_right hρ h hl fun hr => ihr hr o.neutral (o.taken v)
      obtain ⟨tl, ⟨hls, hl⟩, -⟩ := exists_exact hρ l y
      refine ⟨.node o tl tr, by rw [OpTree.shape, hls, hrs], ?_⟩
      rw [outcome_neutral hr hl, o.taken_taken]
      rfl
    · obtain ⟨tl, hls, hl⟩ := ihl hl (o.taken v) y
      obtain ⟨tr, ⟨hrs, hr⟩, -⟩ := exists_exact hρ r o.neutral
      refine ⟨.node o tl tr, by rw [OpTree.shape, hls, hrs], ?_⟩
      rw [outcome_taken hr hl, o.taken_taken]

/-- On a shape that is not tidy the machine is wrong about some tree. -/
theorem exists_wrong (hρ : ∀ v, ∃ a, ρ a = v) {s : OpTree Unit} (h : ¬ Tidy s) :
    ∃ t, t.shape = s ∧ (outcome ρ t).1 ≠ truth ρ t := by
  induction s with
  | leaf u => exact absurd trivial h
  | node o l r ihl ihr =>
    by_cases hl : Tidy l
    · -- The value to be taken is the opposite of what a deciding right operand gives.
      obtain ⟨tr, hrs, hr⟩ := exists_right hρ h hl fun hr =>
        exists_untidy hρ hr o.neutral (o.taken o.neutral)
      obtain ⟨tl, ⟨hls, hl⟩, htl⟩ := exists_exact hρ l (!o.taken o.neutral)
      refine ⟨.node o tl tr, by rw [OpTree.shape, hls, hrs], ?_⟩
      rw [outcome_neutral hr hl, truth, htl]
      cases o <;> cases truth ρ tr <;> decide
    · obtain ⟨tl, hls, hwrong⟩ := ihl hl
      obtain ⟨tr, ⟨hrs, hr⟩, htr⟩ := exists_exact hρ r o.neutral
      refine ⟨.node o tl tr, by rw [OpTree.shape, hls, hrs], ?_⟩
      rw [outcome_taken hr rfl, truth, htr, Op.truth_neutral o.neutral_decides]
      exact fun heq => hwrong (o.taken_inj.mp heq)

/-- The machine is right about all trees of a shape exactly when it is tidy. -/
theorem shape_right_iff (hρ : ∀ v, ∃ a, ρ a = v) (s : OpTree Unit) :
    (∀ t : OpTree α, t.shape = s → ∀ ρ : α → Bool, (outcome ρ t).1 = truth ρ t) ↔ Tidy s := by
  constructor
  · intro h
    by_contra hs
    obtain ⟨t, ht, hwrong⟩ := exists_wrong hρ hs
    exact hwrong (h t ht ρ)
  · rintro h t rfl ρ
    exact congrArg Prod.fst (outcome_takesOwn (tidy_takesOwn ρ h).1)

end

end Semestr4.PostfixMachine
