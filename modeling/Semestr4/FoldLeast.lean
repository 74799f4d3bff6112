import Mathlib.Order.Notation

/-!
# The member a fold from the right leaves as the least

The fold keeps a member until it meets one that is less. It starts with a value
of its own, which stays when no member is less. Of equal members the last one is
kept.
-/

set_option autoImplicit false

namespace Semestr4.FoldLeast

variable {α : Type*} {lt : α → α → Prop} [DecidableRel lt]

def least (lt : α → α → Prop) [DecidableRel lt] (init : α) (l : List α) : α :=
  l.foldr (fun e kept => if lt e kept then e else kept) init

/-- The value `e` comes first, before the equal members that precede it. -/
def Foremost (lt : α → α → Prop) (init : α) (l : List α) (e : α) : Prop :=
  (e = init ∧ ∀ f ∈ l, ¬ lt f init) ∨
  (lt e init ∧ ∃ before after, l = before++e::after ∧
    (∀ f ∈ before, ¬ lt f e) ∧ ∀ f ∈ after, lt e f)

theorem least_cons (init e : α) (l : List α) :
    least lt init (e::l) = if lt e (least lt init l) then e else least lt init l := rfl

theorem least_mem (lt : α → α → Prop) [DecidableRel lt] (init : α) (l : List α) :
    least lt init l = init ∨ least lt init l ∈ l := by
  induction l with
  | nil => exact Or.inl rfl
  | cons e l ih =>
    rw [least_cons]
    split
    · exact Or.inr (List.mem_cons_self ..)
    · exact ih.imp_right (List.mem_cons_of_mem e)

theorem least_append {init kept : α} {before after : List α} (h : least lt init after = kept)
    (hbefore : ∀ f ∈ before, ¬ lt f kept) : least lt init (before++after) = kept := by
  induction before with
  | nil => exact h
  | cons f before ih =>
    have hrest := ih fun g hg => hbefore g (List.mem_cons_of_mem f hg)
    rw [List.cons_append, least_cons, hrest, if_neg (hbefore f (List.mem_cons_self ..))]

theorem Foremost.least_eq {init e : α} {l : List α} (h : Foremost lt init l e) :
    least lt init l = e := by
  rcases h with ⟨rfl, hall⟩ | ⟨hinit, before, after, rfl, hbefore, hafter⟩
  · rw [← List.append_nil l]
    exact least_append rfl hall
  · apply least_append _ hbefore
    have hlt : lt e (least lt init after) := by
      rcases least_mem lt init after with heq | hmem
      · rw [heq]
        exact hinit
      · exact hafter _ hmem
    rw [least_cons, if_pos hlt]

section
variable (asymm : ∀ a b, lt a b → ¬ lt b a) (split : ∀ a b c, lt a c → lt a b ∨ lt b c)
include asymm split

theorem Foremost.cons {init kept e : α} {l : List α} (h : Foremost lt init l kept) :
    Foremost lt init (e::l) (if lt e kept then e else kept) := by
  have below : ∀ {a b c}, lt a b → ¬ lt c b → lt a c := fun {a b c} hab hcb =>
    (split a c b hab).resolve_right hcb
  rcases h with ⟨rfl, hall⟩ | ⟨hinit, before, after, rfl, hbefore, hafter⟩
  · split
    · rename_i he
      exact Or.inr ⟨he, [], l, rfl, nofun, fun f hf => below he (hall f hf)⟩
    · rename_i he
      exact Or.inl ⟨rfl, List.forall_mem_cons.mpr ⟨he, hall⟩⟩
  · split
    · rename_i he
      refine Or.inr ⟨below he (asymm _ _ hinit), [], _, rfl, nofun, ?_⟩
      intro f hf
      rcases List.mem_append.mp hf with hf | hf
      · exact below he (hbefore f hf)
      · rcases List.mem_cons.mp hf with rfl | hf
        · exact he
        · exact below he (asymm _ _ (hafter f hf))
    · rename_i he
      exact Or.inr ⟨hinit, e::before, after, rfl, List.forall_mem_cons.mpr ⟨he, hbefore⟩, hafter⟩

theorem least_foremost (init : α) (l : List α) : Foremost lt init l (least lt init l) := by
  induction l with
  | nil => exact Or.inl ⟨rfl, nofun⟩
  | cons e l ih => exact ih.cons asymm split

/-- The fold leaves the one value that comes first. -/
theorem least_eq_iff {init e : α} {l : List α} : least lt init l = e ↔ Foremost lt init l e := by
  constructor
  · rintro rfl
    exact least_foremost asymm split init l
  · exact Foremost.least_eq

end

end Semestr4.FoldLeast
