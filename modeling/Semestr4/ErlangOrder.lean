import Mathlib.Algebra.Order.Ring.Rat
import Mathlib.Algebra.Order.Ring.Cast
import Mathlib.Order.Compare
import Semestr4.ErlangTerm

/-!
# The order of Erlang terms

The order compares the kinds of two terms first and inside a kind one part after
the other. Such comparisons are total and transitive when those of the parts are.
Different terms can be equal in it, so it is an order of the values of `==`.
-/

set_option autoImplicit false

namespace Semestr4.ErlangOrder
open Semestr4.ErlangTerm

/-- What the comparisons of `a` with `b`, of `b` with `c` and of `a` with `c` can
be in a transitive order. -/
def Chain (ab bc ac : Ordering) : Prop :=
  (ab = .eq → ac = bc) ∧ (bc = .eq → ac = ab) ∧ (ab = bc → ac = ab)

/-- The second parts count only where the first ones are equal. -/
theorem Chain.then {o₁ o₂ o₃ p₁ p₂ p₃ : Ordering} (ho : Chain o₁ o₂ o₃)
    (hp : o₁ = .eq → o₂ = .eq → Chain p₁ p₂ p₃) :
    Chain (o₁.then p₁) (o₂.then p₂) (o₃.then p₃) := by
  obtain ⟨h1, h2, h3⟩ := ho
  cases o₁ with
  | eq =>
    rw [h1 rfl]
    cases o₂ with
    | eq => exact hp rfl rfl
    | lt => exact ⟨fun _ => rfl, nofun, fun h => h.symm⟩
    | gt => exact ⟨fun _ => rfl, nofun, fun h => h.symm⟩
  | lt =>
    cases o₂ with
    | eq =>
      rw [h2 rfl]
      exact ⟨nofun, fun _ => rfl, fun _ => rfl⟩
    | lt =>
      rw [h3 rfl]
      exact ⟨nofun, nofun, fun _ => rfl⟩
    | gt => exact ⟨nofun, nofun, nofun⟩
  | gt =>
    cases o₂ with
    | eq =>
      rw [h2 rfl]
      exact ⟨nofun, fun _ => rfl, fun _ => rfl⟩
    | lt => exact ⟨nofun, nofun, nofun⟩
    | gt =>
      rw [h3 rfl]
      exact ⟨nofun, nofun, fun _ => rfl⟩

theorem compare_chain {α : Type*} [Ord α] [Std.TransOrd α] (a b c : α) :
    Chain (compare a b) (compare b c) (compare a c) := by
  refine ⟨fun h => Std.TransCmp.congr_left h, fun h => (Std.TransCmp.congr_right h).symm, ?_⟩
  intro h
  cases hab : compare a b with
  | lt => exact Std.TransCmp.lt_trans hab (h ▸ hab)
  | eq => exact Std.TransCmp.eq_trans hab (h ▸ hab)
  | gt => exact Std.TransCmp.gt_trans hab (h ▸ hab)

theorem orderOf_eq_compare (a b : ℚ) : ErlangTerm.orderOf a b = compare a b := cmp_eq_compare a b

theorem orderOf_chain (x y z : ℚ) :
    Chain (ErlangTerm.orderOf x y) (ErlangTerm.orderOf y z) (ErlangTerm.orderOf x z) := by
  simp only [orderOf_eq_compare]
  exact compare_chain x y z

theorem orderOf_intCast (x y : ℤ) : ErlangTerm.orderOf x y = compare x y := by
  rw [← cmp_eq_compare]
  simp only [ErlangTerm.orderOf, cmp, cmpUsing, Int.cast_lt]

theorem order_rank (exact : Bool) (a b : Term) :
    a.order exact b = (compare a.rank b.rank).then (a.order exact b) := by
  cases a <;> cases b <;> rfl

/-- An integer and a float are compared by their values, or inside the keys of a
map by their kinds. -/
theorem number_chain (exact : Bool) {a b c : Term} (ha : a.rank = 0) (hb : b.rank = 0)
    (hc : c.rank = 0) : Chain (a.order exact b) (b.order exact c) (a.order exact c) := by
  have hnumber : ∀ {t : Term}, t.rank = 0 → (∃ x, t = .int x) ∨ ∃ x, t = .float x := by
    intro t ht
    cases t <;> first | exact Or.inl ⟨_, rfl⟩ | exact Or.inr ⟨_, rfl⟩ | nomatch ht
  rcases hnumber ha with ⟨x, rfl⟩ | ⟨x, rfl⟩ <;> rcases hnumber hb with ⟨y, rfl⟩ | ⟨y, rfl⟩ <;>
    rcases hnumber hc with ⟨z, rfl⟩ | ⟨z, rfl⟩ <;> cases exact <;>
    simp only [Term.order, ← orderOf_intCast, Bool.false_eq_true, if_false, if_true] <;>
    first | exact orderOf_chain _ _ _ | grind [Chain]

mutual

theorem term_chain (exact : Bool) : ∀ a b c : Term,
    Chain (a.order exact b) (b.order exact c) (a.order exact c)
  | a, b, c => by
    rw [order_rank exact a b, order_rank exact b c, order_rank exact a c]
    apply (compare_chain a.rank b.rank c.rank).then
    intro hab hbc
    rw [Nat.compare_eq_eq] at hab hbc
    cases a with
    | int x => exact number_chain exact rfl hab.symm (hab.trans hbc).symm
    | float x => exact number_chain exact rfl hab.symm (hab.trans hbc).symm
    | atom x =>
      cases b <;> cases hab
      cases c <;> cases hbc
      exact compare_chain _ _ _
    | handle k x =>
      cases b <;> cases hab
      cases c <;> cases hbc
      exact (compare_chain _ _ _).then fun _ _ => compare_chain _ _ _
    | tuple ts =>
      cases b <;> cases hab
      cases c <;> cases hbc
      exact (compare_chain _ _ _).then fun _ _ => terms_chain exact ts _ _
    | map ks vs =>
      cases b <;> cases hab
      cases c <;> cases hbc
      exact ((compare_chain _ _ _).then fun _ _ => terms_chain true ks _ _).then
        fun _ _ => terms_chain exact vs _ _
    | nil =>
      cases b <;> cases hab
      cases c <;> cases hbc
      exact ⟨fun _ => rfl, fun _ => rfl, fun _ => rfl⟩
    | cons t ts =>
      cases b <;> cases hab
      cases c <;> cases hbc
      exact (term_chain exact t _ _).then fun _ _ => term_chain exact ts _ _
    | bits bs =>
      cases b <;> cases hab
      cases c <;> cases hbc
      exact compare_chain _ _ _

theorem terms_chain (exact : Bool) : ∀ ts us ws : Terms,
    Chain (ts.order exact us) (us.order exact ws) (ts.order exact ws)
  | .none, us, ws => by
    cases us <;> cases ws <;> grind [Chain, Terms.order]
  | .more t ts, .none, ws => by
    cases ws <;> grind [Chain, Terms.order]
  | .more t ts, .more u us, .none => by
    grind [Chain, Terms.order]
  | .more t ts, .more u us, .more w ws =>
    (term_chain exact t u w).then fun _ _ => terms_chain exact ts us ws

end

theorem then_swap {o o' p p' : Ordering} (ho : o.swap = o') (hp : o = .eq → p.swap = p') :
    (o.then p).swap = o'.then p' := by
  cases o with
  | eq => rw [← ho, ← hp rfl, Ordering.swap_then]
  | lt => rw [← ho, Ordering.swap_then]; rfl
  | gt => rw [← ho, Ordering.swap_then]; rfl

theorem compare_swap {α : Type*} [Ord α] [Std.OrientedOrd α] (a b : α) :
    (compare a b).swap = compare b a := Std.OrientedOrd.eq_swap.symm

theorem orderOf_swap (x y : ℚ) : (ErlangTerm.orderOf x y).swap = ErlangTerm.orderOf y x := cmp_swap x y

mutual

theorem term_swap (exact : Bool) : ∀ a b : Term, (a.order exact b).swap = b.order exact a
  | a, b => by
    rw [order_rank exact a b, order_rank exact b a]
    apply then_swap (compare_swap a.rank b.rank)
    intro hab
    rw [Nat.compare_eq_eq] at hab
    cases a with
    | int x =>
      cases b <;> cases hab <;> cases exact <;>
        first | exact compare_swap _ _ | exact orderOf_swap _ _ | rfl
    | float x =>
      cases b <;> cases hab <;> cases exact <;> first | exact orderOf_swap _ _ | rfl
    | atom x =>
      cases b <;> cases hab
      exact compare_swap _ _
    | handle k x =>
      cases b <;> cases hab
      exact then_swap (compare_swap _ _) fun _ => compare_swap _ _
    | tuple ts =>
      cases b <;> cases hab
      exact then_swap (compare_swap _ _) fun _ => terms_swap exact ts _
    | map ks vs =>
      cases b <;> cases hab
      exact then_swap (then_swap (compare_swap _ _) fun _ => terms_swap true ks _)
        fun _ => terms_swap exact vs _
    | nil =>
      cases b <;> cases hab
      rfl
    | cons t ts =>
      cases b <;> cases hab
      exact then_swap (term_swap exact t _) fun _ => term_swap exact ts _
    | bits bs =>
      cases b <;> cases hab
      exact compare_swap _ _

theorem terms_swap (exact : Bool) : ∀ ts us : Terms, (ts.order exact us).swap = us.order exact ts
  | .none, .none => rfl
  | .none, .more _ _ => rfl
  | .more _ _, .none => rfl
  | .more t ts, .more u us => then_swap (term_swap exact t u) fun _ => terms_swap exact ts us

end

instance (exact : Bool) : Std.OrientedCmp (Term.order exact) where
  eq_swap := (term_swap exact _ _).symm

instance (exact : Bool) : Std.TransCmp (Term.order exact) where
  isLE_trans {a b c} hab hbc := by
    obtain ⟨h1, h2, h3⟩ := term_chain exact a b c
    cases h : a.order exact b with
    | eq => exact h1 h ▸ hbc
    | gt => exact absurd hab (by rw [h]; decide)
    | lt =>
      cases h' : b.order exact c with
      | eq => exact h2 h' ▸ hab
      | gt => exact absurd hbc (by rw [h']; decide)
      | lt => rw [h3 (h.trans h'.symm), h]; rfl

theorem less_asymm (a b : Term) (h : a.Less b) : ¬ b.Less a := Std.OrientedCmp.not_lt_of_lt h

theorem less_split (a b c : Term) (h : a.Less c) : a.Less b ∨ b.Less c := by
  by_cases hba : (b.order false a).isLE
  · exact Or.inr (Std.TransCmp.lt_of_isLE_of_lt hba h)
  · exact Or.inl (Std.OrientedCmp.lt_of_not_isLE hba)

end Semestr4.ErlangOrder
