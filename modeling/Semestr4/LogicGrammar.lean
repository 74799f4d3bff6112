import Semestr4.LogicEvaluator
import Semestr4.PostfixMachine

/-!
# The grammar of expressions

Well-formed expressions, and the same expressions with their trees: `>` binds
weakest, `&` and `|` share a level, all three associate to the left. An
expression is flat when none of its parentheses stands inside another pair.
-/

set_option autoImplicit false

namespace Semestr4.LogicGrammar
open Semestr4.LogicEvaluator Semestr4.PostfixMachine

section
variable (A : Alphabet)

abbrev Letter := { z : Char // A.isalpha z = true }

def sign : Op → Char
  | .and => '&'
  | .or => '|'
  | .imp => '>'

/-- The grammar `E ::= letter | E op E | ( E )`. -/
inductive Derives : List Char → Prop where
  | letter (a : Letter A) : Derives [a.1]
  | binary {l r : List Char} (o : Op) : Derives l → Derives r → Derives (l++sign o::r)
  | paren {e : List Char} : Derives e → Derives ('('::(e++[')']))

inductive Level where
  | weak
  | strong
  | atom
  deriving DecidableEq, Repr

/-- Expressions whose outermost operator binds as the level says, with their
trees. -/
inductive Parses : Level → List Char → OpTree (Letter A) → Prop where
  | letter (a : Letter A) : Parses .atom [a.1] (.leaf a)
  | paren {e : List Char} {t : OpTree (Letter A)} :
      Parses .weak e t → Parses .atom ('('::(e++[')'])) t
  | strong {l r : List Char} {t u : OpTree (Letter A)} (o : Op) (ho : o ≠ .imp) :
      Parses .strong l t → Parses .atom r u → Parses .strong (l++sign o::r) (.node o t u)
  | weak {l r : List Char} {t u : OpTree (Letter A)} :
      Parses .weak l t → Parses .strong r u → Parses .weak (l++sign .imp::r) (.node .imp t u)
  | ofAtom {w : List Char} {t : OpTree (Letter A)} : Parses .atom w t → Parses .strong w t
  | ofStrong {w : List Char} {t : OpTree (Letter A)} : Parses .strong w t → Parses .weak w t

def post {A : Alphabet} : OpTree (Letter A) → List Char
  | .leaf a => [a.1]
  | .node o l r => post l++post r++[sign o]

/-- No parenthesis opens inside another pair; `inside` tells whether one is open. -/
def flat (inside : Bool) : List Char → Bool
  | [] => true
  | z::rest =>
    if z = '(' then !inside && flat true rest
    else if z = ')' then flat false rest
    else flat inside rest

end

variable {A : Alphabet}

theorem mem_foo {z : Char} {s : List Char} : z ∈ foo A s ↔ z ∈ s ∧ A.isalpha z = true := by
  simp [foo, List.mem_insertionSort]

theorem mem_op {z : Char} : z ∈ op ↔ ∃ o, z = sign o := by
  constructor
  · intro h
    simp only [op, List.mem_cons, List.not_mem_nil, or_false] at h
    rcases h with rfl | rfl | rfl
    · exact ⟨.and, rfl⟩
    · exact ⟨.imp, rfl⟩
    · exact ⟨.or, rfl⟩
  · rintro ⟨o, rfl⟩
    cases o <;> decide

theorem sign_ne_open (o : Op) : sign o ≠ '(' := by cases o <;> decide

theorem sign_ne_close (o : Op) : sign o ≠ ')' := by cases o <;> decide

theorem sign_not_alpha (o : Op) : A.isalpha (sign o) = false :=
  A.marks (sign o) (by cases o <;> decide)

theorem sign_inj {o o' : Op} : sign o = sign o' ↔ o = o' := by
  cases o <;> cases o' <;> decide

theorem letter_ne {z m : Char} (h : A.isalpha z = true)
    (hm : m ∈ ['(', ')', '&', '>', '|', '0', '1']) : z ≠ m := by
  rintro rfl
  rw [A.marks z hm] at h
  cases h

theorem letter_not_op {z : Char} (h : A.isalpha z = true) : z ∉ op := by
  intro hz
  obtain ⟨o, rfl⟩ := mem_op.mp hz
  rw [sign_not_alpha] at h
  cases h

theorem Parses.derives {v : Level} {w : List Char} {t : OpTree (Letter A)} (h : Parses A v w t) :
    Derives A w := by
  induction h with
  | letter a => exact .letter a
  | paren _ ih => exact .paren ih
  | strong o _ _ _ ihl ihr => exact .binary o ihl ihr
  | weak _ _ ihl ihr => exact .binary .imp ihl ihr
  | ofAtom _ ih => exact ih
  | ofStrong _ ih => exact ih

theorem Derives.ne_nil {w : List Char} (h : Derives A w) : w ≠ [] := by
  cases h <;> simp

theorem Derives.count {w : List Char} (h : Derives A w) : w.count '(' = w.count ')' := by
  induction h with
  | letter a =>
    simp [letter_ne a.2 (m := '(') (by decide), letter_ne a.2 (m := ')') (by decide)]
  | binary o _ _ ihl ihr =>
    simp [List.count_append, ihl, ihr, sign_ne_open o, sign_ne_close o]
  | paren _ ih => simp [List.count_append, ih]

theorem Derives.group {w rest : List Char} (h : Derives A w) (hw : w = '('::rest) :
    ∃ e tail, Derives A e ∧ rest = e ++ ')'::tail := by
  induction h generalizing rest with
  | letter a =>
    have ha : a.1 = '(' := by simpa using congrArg List.head? hw
    exact absurd ha (letter_ne a.2 (by decide))
  | @binary l r o hl hr ihl ihr =>
    obtain ⟨z, l', rfl⟩ := List.exists_cons_of_ne_nil hl.ne_nil
    simp only [List.cons_append, List.cons.injEq] at hw
    obtain ⟨rfl, rfl⟩ := hw
    obtain ⟨e, tail, he, rfl⟩ := ihl rfl
    exact ⟨e, tail++sign o::r, he, by simp⟩
  | @paren e he ih =>
    simp only [List.cons.injEq, true_and] at hw
    exact ⟨e, [], he, hw.symm⟩

theorem Parses.lift {v : Level} {w : List Char} {t : OpTree (Letter A)} (h : Parses A v w t) :
    Parses A .weak w t := by
  cases v with
  | weak => exact h
  | strong => exact .ofStrong h
  | atom => exact .ofStrong (.ofAtom h)

theorem Parses.weak_cases {w : List Char} {t : OpTree (Letter A)} (h : Parses A .weak w t) :
    Parses A .strong w t ∨ ∃ l r tl tr, w = l++sign .imp::r ∧ t = .node .imp tl tr ∧
      Parses A .weak l tl ∧ Parses A .strong r tr := by
  cases h with
  | weak hl hr => exact Or.inr ⟨_, _, _, _, rfl, rfl, hl, hr⟩
  | ofStrong h => exact Or.inl h

theorem Parses.strong_cases {w : List Char} {t : OpTree (Letter A)} (h : Parses A .strong w t) :
    Parses A .atom w t ∨ ∃ o l r tl tr, o ≠ .imp ∧ w = l++sign o::r ∧ t = .node o tl tr ∧
      Parses A .strong l tl ∧ Parses A .atom r tr := by
  cases h with
  | strong o ho hl hr => exact Or.inr ⟨o, _, _, _, _, ho, rfl, rfl, hl, hr⟩
  | ofAtom h => exact Or.inl h

theorem Parses.atom_cases {w : List Char} {t : OpTree (Letter A)} (h : Parses A .atom w t) :
    (∃ a, w = [a.1] ∧ t = .leaf a) ∨ ∃ e, w = '('::(e++[')']) ∧ Parses A .weak e t := by
  cases h with
  | letter a => exact Or.inl ⟨a, rfl, rfl⟩
  | paren he => exact Or.inr ⟨_, rfl, he⟩

theorem join_strong {l r : List Char} {t u : OpTree (Letter A)} {v : Level} (o : Op) (ho : o ≠ .imp)
    (hl : Parses A .strong l t) (hr : Parses A v r u) (hv : v ≠ .weak) :
    ∃ t', Parses A .strong (l++sign o::r) t' := by
  induction hr with
  | letter a => exact ⟨_, .strong o ho hl (.letter a)⟩
  | paren he _ => exact ⟨_, .strong o ho hl (.paren he)⟩
  | strong o' ho' _ hr ih _ =>
    obtain ⟨t', ht'⟩ := ih (by decide)
    have hw := Parses.strong o' ho' ht' hr
    rw [List.append_assoc, List.cons_append] at hw
    exact ⟨_, hw⟩
  | weak _ _ _ _ => exact absurd rfl hv
  | ofAtom _ ih => exact ih (by decide)
  | ofStrong _ _ => exact absurd rfl hv

theorem join_left {l r : List Char} {t u : OpTree (Letter A)} (o : Op)
    (hl : Parses A .weak l t) (hr : Parses A .strong r u) :
    ∃ t', Parses A .weak (l++sign o::r) t' := by
  by_cases ho : o = .imp
  · subst ho
    exact ⟨_, .weak hl hr⟩
  · rcases hl.weak_cases with hl | ⟨l, m, tl, tm, rfl, -, hl, hm⟩
    · obtain ⟨t', ht'⟩ := join_strong o ho hl hr (by decide)
      exact ⟨_, .ofStrong ht'⟩
    · obtain ⟨t', ht'⟩ := join_strong o ho hm hr (by decide)
      have hw := Parses.weak hl ht'
      rw [← List.cons_append, ← List.append_assoc] at hw
      exact ⟨_, hw⟩

theorem join {l r : List Char} {t u : OpTree (Letter A)} {v : Level} (o : Op)
    (hl : Parses A .weak l t) (hr : Parses A v r u) :
    ∃ t', Parses A .weak (l++sign o::r) t' := by
  induction hr with
  | weak _ hm ih _ =>
    obtain ⟨t', ht'⟩ := ih
    have hw := Parses.weak ht' hm
    rw [List.append_assoc, List.cons_append] at hw
    exact ⟨_, hw⟩
  | letter a => exact join_left o hl (.ofAtom (.letter a))
  | paren he _ => exact join_left o hl (.ofAtom (.paren he))
  | strong o' ho' hm hr _ _ => exact join_left o hl (.strong o' ho' hm hr)
  | ofAtom hr _ => exact join_left o hl (.ofAtom hr)
  | ofStrong hr _ => exact join_left o hl hr

theorem Derives.parses {w : List Char} (h : Derives A w) : ∃ t, Parses A .weak w t := by
  induction h with
  | letter a => exact ⟨_, (Parses.letter a).lift⟩
  | binary o _ _ ihl ihr =>
    obtain ⟨t, ht⟩ := ihl
    obtain ⟨u, hu⟩ := ihr
    exact join o ht hu
  | paren _ ih =>
    obtain ⟨t, ht⟩ := ih
    exact ⟨t, (Parses.paren ht).lift⟩

theorem derives_iff_parses {w : List Char} : Derives A w ↔ ∃ t, Parses A .weak w t :=
  ⟨Derives.parses, fun ⟨_, h⟩ => h.derives⟩

theorem flat_other {z : Char} (h : z ≠ '(') (h' : z ≠ ')') (inside : Bool) (rest : List Char) :
    flat inside (z::rest) = flat inside rest := by
  rw [flat, if_neg h, if_neg h']

theorem flat_append {w : List Char} (h : Derives A w) (rest : List Char) :
    flat false (w++rest) = (flat false w && flat false rest) ∧
    flat true (w++rest) = (decide ('(' ∉ w) && flat true rest) := by
  induction h generalizing rest with
  | letter a =>
    have hopen := letter_ne a.2 (m := '(') (by decide)
    have hclose := letter_ne a.2 (m := ')') (by decide)
    simp only [List.singleton_append, flat_other hopen hclose]
    simp [flat, Ne.symm hopen]
  | @binary l r o _ _ ihl ihr =>
    have hsign := fun inside rest => flat_other (sign_ne_open o) (sign_ne_close o) inside rest
    constructor
    · rw [List.append_assoc, (ihl _).1, (ihl _).1, List.cons_append, hsign, hsign, (ihr _).1,
        Bool.and_assoc]
    · rw [List.append_assoc, (ihl _).2, List.cons_append, hsign, (ihr _).2, ← Bool.and_assoc]
      congr 1
      simp [Ne.symm (sign_ne_open o), Bool.decide_and]
  | @paren e _ ih =>
    constructor
    · simp only [List.cons_append, List.append_assoc, flat, ↓reduceIte, Bool.not_false,
        Bool.true_and, (ih _).2]
      simp
    · simp [flat]

theorem flat_binary {l : List Char} (hl : Derives A l) (r : List Char) (o : Op) :
    flat false (l++sign o::r) = (flat false l && flat false r) := by
  rw [(flat_append hl _).1, flat_other (sign_ne_open o) (sign_ne_close o)]

theorem flat_paren {e : List Char} (he : Derives A e) (rest : List Char) :
    flat false ('('::(e ++ ')'::rest)) = (decide ('(' ∉ e) && flat false rest) := by
  simp [flat, (flat_append he _).2]

end Semestr4.LogicGrammar
