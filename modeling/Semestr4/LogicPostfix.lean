import Mathlib.Data.List.Infix
import Mathlib.Logic.Relation
import Semestr4.LogicCheck

/-!
# The postfix form of an expression

The search from the right finds the operator that binds weakest, the last one
where several do, and parentheses are taken off where they enclose everything
and nothing inside has any. So the recursion follows the tree of the
expression, until the recogniser raises: this happens exactly when a
parenthesis opens inside another pair.
-/

set_option autoImplicit false

namespace Semestr4.LogicPostfix
open Semestr4.LogicEvaluator Semestr4.PostfixMachine Semestr4.LogicGrammar Semestr4.LogicCheck

variable {A : Alphabet}

section
variable {ops : List Char}

theorem balFrom_other {z : Char} {ln : ℤ} (h : z ≠ '(') (h' : z ≠ ')')
    (hz : ¬ (z ∈ ops ∧ ln = 0)) (rest : List Char) :
    balFrom ops ln (z::rest) = balFrom ops ln rest := by
  simp only [balFrom, nest_other h h', if_neg hz]

theorem balFrom_group {ln : ℤ} (hln : ln ≤ 0) (hops : ops ⊆ op) {e : List Char}
    (hskip : ∀ rest, balFrom ops (ln-1) (e.reverse++rest) = balFrom ops (ln-1) rest)
    (rest : List Char) :
    balFrom ops ln (('('::(e++[')'])).reverse++rest) = balFrom ops ln rest := by
  have hclose : ¬ (')' ∈ ops ∧ ln-1 = 0) := fun h => by omega
  have hopen : ¬ ('(' ∈ ops ∧ ln-1+1 = 0) := fun h => absurd (hops h.1) (by decide)
  simp only [List.reverse_cons, List.reverse_append, List.reverse_nil, List.nil_append,
    List.cons_append, List.append_assoc]
  rw [balFrom, nest_close, if_neg hclose, hskip, balFrom, nest_open, if_neg hopen,
    Int.sub_add_cancel]

theorem balFrom_inside {w : List Char} (h : Derives A w) (hops : ops ⊆ op) {ln : ℤ} (hln : ln < 0)
    (rest : List Char) : balFrom ops ln (w.reverse++rest) = balFrom ops ln rest := by
  induction h generalizing ln rest with
  | letter a =>
    have hz : ¬ (a.1 ∈ ops ∧ ln = 0) := fun h => by omega
    exact balFrom_other (letter_ne a.2 (by decide)) (letter_ne a.2 (by decide)) hz rest
  | binary o _ _ ihl ihr =>
    have hz : ¬ (sign o ∈ ops ∧ ln = 0) := fun h => by omega
    simp only [List.reverse_append, List.reverse_cons, List.append_assoc, List.cons_append,
      List.nil_append]
    rw [ihr hln, balFrom_other (sign_ne_open o) (sign_ne_close o) hz, ihl hln]
  | paren _ ih => exact balFrom_group (by omega) hops (ih (by omega)) rest

theorem balFrom_atom {w : List Char} {t : OpTree (Letter A)} (h : Parses A .atom w t)
    (hops : ops ⊆ op) (rest : List Char) :
    balFrom ops 0 (w.reverse++rest) = balFrom ops 0 rest := by
  rcases h.atom_cases with ⟨a, rfl, -⟩ | ⟨e, rfl, he⟩
  · exact balFrom_other (letter_ne a.2 (by decide)) (letter_ne a.2 (by decide))
      (fun hz => letter_not_op a.2 (hops hz.1)) rest
  · exact balFrom_group (le_refl 0) hops (balFrom_inside he.derives hops (by decide)) rest

theorem balFrom_strong {v : Level} {w : List Char} {t : OpTree (Letter A)} (h : Parses A v w t)
    (hv : v ≠ .weak) (rest : List Char) :
    balFrom ['>'] 0 (w.reverse++rest) = balFrom ['>'] 0 rest := by
  have hops : ['>'] ⊆ op := by decide
  induction h generalizing rest with
  | letter a => exact balFrom_atom (.letter a) hops rest
  | paren he _ => exact balFrom_atom (.paren he) hops rest
  | strong o ho _ _ ihl ihr =>
    have hz : ¬ (sign o ∈ ['>'] ∧ (0 : ℤ) = 0) := by
      intro h
      exact ho (sign_inj.mp (List.mem_singleton.mp h.1))
    simp only [List.reverse_append, List.reverse_cons, List.append_assoc, List.cons_append,
      List.nil_append]
    rw [ihr (by decide), balFrom_other (sign_ne_open o) (sign_ne_close o) hz, ihl (by decide)]
  | weak _ _ _ _ => exact absurd rfl hv
  | ofAtom _ ih => exact ih (by decide) rest
  | ofStrong _ _ => exact absurd rfl hv

theorem balFrom_shorter {x y : List Char} {ln : ℤ} (h : balFrom ops ln (x++y) = none) :
    balFrom ops ln x = none := by
  induction x generalizing ln with
  | nil => rfl
  | cons z x ih =>
    rw [List.cons_append, balFrom] at h
    rw [balFrom]
    split at h
    · cases h
    · rename_i hz
      rw [if_neg hz]
      exact ih h

theorem bal_none {w : List Char}
    (hskip : ∀ rest, balFrom ops 0 (w.reverse++rest) = balFrom ops 0 rest) : bal w ops = none := by
  cases w with
  | nil => rfl
  | cons z w =>
    have h := hskip []
    rw [List.append_nil, List.reverse_cons] at h
    exact balFrom_shorter h

theorem bal_found {l r : List Char} (o : Op) (hl : l ≠ [])
    (hskip : ∀ rest, balFrom ops 0 (r.reverse++rest) = balFrom ops 0 rest) (ho : sign o ∈ ops) :
    bal (l++sign o::r) ops = some l.length := by
  cases l with
  | nil => exact absurd rfl hl
  | cons z l =>
    simp only [bal, List.cons_append, List.tail_cons, List.reverse_append, List.reverse_cons,
      List.append_assoc, hskip]
    simp [balFrom, nest_other (sign_ne_open o) (sign_ne_close o), ho]

end

theorem splitAt_weak {l r : List Char} {t u : OpTree (Letter A)} (hl : Parses A .weak l t)
    (hr : Parses A .strong r u) : splitAt (l++sign .imp::r) = some l.length := by
  unfold splitAt
  rw [bal_found .imp hl.derives.ne_nil (balFrom_strong hr (by decide)) (by decide)]

theorem bal_strong {w : List Char} {t : OpTree (Letter A)} (h : Parses A .strong w t) :
    bal w ['>'] = none := bal_none (balFrom_strong h (by decide))

theorem splitAt_strong {l r : List Char} {t u : OpTree (Letter A)} {o : Op} (ho : o ≠ .imp)
    (hl : Parses A .strong l t) (hr : Parses A .atom r u) :
    splitAt (l++sign o::r) = some l.length := by
  have hmem : sign o ∈ ['&', '|'] := by
    cases o with
    | and => decide
    | or => decide
    | imp => exact absurd rfl ho
  unfold splitAt
  rw [bal_strong (.strong o ho hl hr),
    bal_found o hl.derives.ne_nil (balFrom_atom hr (by decide)) hmem]

theorem splitAt_atom {w : List Char} {t : OpTree (Letter A)} (h : Parses A .atom w t) :
    splitAt w = none := by
  unfold splitAt
  rw [bal_strong (.ofAtom h), bal_none (balFrom_atom h (by decide))]

/-- An expression with an operator outside parentheses is split at the operator
of its tree, one without has none there. -/
theorem splitAt_cases {w : List Char} {t : OpTree (Letter A)} (h : Parses A .weak w t) :
    (∃ o l r tl tr, w = l++sign o::r ∧ t = .node o tl tr ∧ Parses A .weak l tl ∧
      Parses A .weak r tr ∧ splitAt w = some l.length) ∨
    (Parses A .atom w t ∧ splitAt w = none) := by
  rcases h.weak_cases with h | ⟨l, r, tl, tr, rfl, rfl, hl, hr⟩
  · rcases h.strong_cases with h | ⟨o, l, r, tl, tr, ho, rfl, rfl, hl, hr⟩
    · exact Or.inr ⟨h, splitAt_atom h⟩
    · exact Or.inl ⟨o, l, r, tl, tr, rfl, rfl, hl.lift, hr.lift, splitAt_strong ho hl hr⟩
  · exact Or.inl ⟨.imp, l, r, tl, tr, rfl, rfl, hl, hr.lift, splitAt_weak hl hr⟩

theorem parses_unique {w : List Char} {t u : OpTree (Letter A)} (ht : Parses A .weak w t)
    (hu : Parses A .weak w u) : t = u := by
  induction hn : w.length using Nat.strong_induction_on generalizing w t u with
  | _ n ih =>
    rcases splitAt_cases ht with ⟨o, l, r, tl, tr, rfl, rfl, hl, hr, hs⟩ | ⟨ht, hs⟩
    · rcases splitAt_cases hu with ⟨o', l', r', ul, ur, heq, rfl, hl', hr', hs'⟩ | ⟨-, hs'⟩
      · rw [hs, Option.some.injEq] at hs'
        obtain ⟨rfl, htail⟩ := List.append_inj heq hs'
        obtain ⟨hsign, rfl⟩ := List.cons.inj htail
        obtain rfl := sign_inj.mp hsign
        simp only [List.length_append, List.length_cons] at hn
        rw [ih l.length (by omega) hl hl' rfl, ih r.length (by omega) hr hr' rfl]
      · rw [hs] at hs'
        cases hs'
    · rcases splitAt_cases hu with ⟨o', l', r', ul, ur, -, -, -, -, hs'⟩ | ⟨hu, -⟩
      · rw [hs] at hs'
        cases hs'
      · rcases ht.atom_cases with ⟨a, rfl, rfl⟩ | ⟨e, rfl, he⟩
        · rcases hu.atom_cases with ⟨b, hb, rfl⟩ | ⟨e', heq, -⟩
          · rw [Subtype.ext (List.singleton_inj.mp hb)]
          · simp at heq
        · rcases hu.atom_cases with ⟨b, hb, rfl⟩ | ⟨e', heq, he'⟩
          · simp at hb
          · simp only [List.cons.injEq, List.append_cancel_right_eq, true_and] at heq
            subst heq
            simp only [List.length_append, List.length_cons, List.length_nil] at hn
            exact ih e.length (by omega) he he' rfl

theorem within_paren (z y : Char) (e : List Char) : within (z::(e++[y])) = e := by
  simp [within]

theorem strip_paren (e : List Char) : strip A ('('::(e++[')'])) = match check A e with
    | .error r => .error r
    | .ok true => strip A e
    | .ok false => .ok ('('::(e++[')'])) := by
  have hlast : '(' = '(' ∧ ('('::(e++[')'])).getLast? = some ')' := by
    rw [← List.cons_append, List.getLast?_append_cons]
    simp
  rw [strip, within_paren]
  exact if_pos hlast

theorem strip_bare {w : List Char} (hw : w ≠ []) (h : ∀ e, w ≠ '('::(e++[')'])) :
    strip A w = .ok w := by
  cases w with
  | nil => exact absurd rfl hw
  | cons z rest =>
    have hcond : ¬ (z = '(' ∧ (z::rest).getLast? = some ')') := by
      rintro ⟨rfl, hlast⟩
      rcases List.eq_nil_or_concat rest with rfl | ⟨e, y, rfl⟩
      · simp at hlast
      · rw [List.concat_eq_append, ← List.cons_append, List.getLast?_append_cons] at hlast
        obtain rfl : y = ')' := by simpa using hlast
        exact h e (by simp)
    rw [strip, if_neg hcond]

/-- One round of `strip`: the outer parentheses come off and it goes on inside,
`check` fails on what they hold, or the text stays as it is. -/
theorem strip_cases {w : List Char} (hw : w ≠ []) :
    (∃ e, w = '('::(e++[')']) ∧ check A e = .ok true ∧ strip A w = strip A e) ∨
    (∃ e r, w = '('::(e++[')']) ∧ check A e = .error r ∧ strip A w = .error r) ∨
    (strip A w = .ok w ∧ ∀ e, w = '('::(e++[')']) → check A e = .ok false) := by
  by_cases hparen : ∃ e, w = '('::(e++[')'])
  · obtain ⟨e, rfl⟩ := hparen
    rw [strip_paren]
    cases hc : check A e with
    | error r => exact Or.inr (Or.inl ⟨e, r, rfl, hc, rfl⟩)
    | ok b =>
      cases b with
      | true => exact Or.inl ⟨e, rfl, hc, rfl⟩
      | false =>
        refine Or.inr (Or.inr ⟨rfl, fun e' heq => ?_⟩)
        simp only [List.cons.injEq, List.append_cancel_right_eq, true_and] at heq
        exact heq ▸ hc
  · have hbare : ∀ e, w ≠ '('::(e++[')']) := fun e he => hparen ⟨e, he⟩
    exact Or.inr (Or.inr ⟨strip_bare hw hbare, fun e he => absurd he (hbare e)⟩)

theorem check_flat {e : List Char} (h : Derives A e) (hopen : '(' ∉ e) : check A e = .ok true :=
  check_true_iff.mpr (derives_chain h hopen)

theorem check_nested {e : List Char} (h : Derives A e) (hopen : '(' ∈ e) (rest : List Char) :
    check A (e++rest) = .error .typeError :=
  check_raises_iff.mpr (derives_stuck h hopen false rest)

theorem chain_plain {w : List Char} (h : Chain A w) : '(' ∉ w ∧ ')' ∉ w := by
  induction h with
  | letter hz =>
    simp [(letter_ne hz (m := '(') (by decide)).symm, (letter_ne hz (m := ')') (by decide)).symm]
  | operator hz hy _ ih =>
    obtain ⟨o, rfl⟩ := mem_op.mp hy
    simp [(letter_ne hz (m := '(') (by decide)).symm, (letter_ne hz (m := ')') (by decide)).symm,
      (sign_ne_open o).symm, (sign_ne_close o).symm, ih]
  | foreign hz _ ih => simp [hz.2.2.1.symm, hz.2.2.2.symm, ih]

theorem chain_surplus {w : List Char} (h : Chain A w) (rest : List Char) :
    ¬ Stuck A false (w ++ ')'::rest) := by
  induction h with
  | letter hz =>
    rw [List.singleton_append, stuck_letter hz]
    rintro (⟨hop, -⟩ | ⟨-, hclose⟩)
    · exact absurd hop (by decide)
    · exact absurd (hclose rfl) (by decide)
  | operator hz hy _ ih =>
    rw [List.cons_append, List.cons_append, stuck_letter hz]
    rintro (⟨-, hw⟩ | ⟨hop, -⟩)
    · exact ih hw
    · exact hop hy
  | foreign hz _ ih => rwa [List.cons_append, stuck_foreign hz]

theorem check_closed {e : List Char} (h : Derives A e) (hopen : '(' ∉ e) (rest : List Char) :
    check A (e ++ ')'::rest) = .ok false := by
  have hchain := derives_chain h hopen
  cases hc : check A (e ++ ')'::rest) with
  | error r =>
    rw [scan_typeError hc] at hc
    exact absurd (check_raises_iff.mp hc) (chain_surplus hchain rest)
  | ok b =>
    cases b with
    | false => rfl
    | true => exact absurd (by simp) (chain_plain (check_true_iff.mp hc)).2

theorem parses_unwrap {v : Level} {e : List Char} {t : OpTree (Letter A)}
    (h : Parses A v ('('::(e++[')'])) t) (hplain : ')' ∉ e) : Parses A .weak e t := by
  have hsplit : ∀ {l r : List Char} {o : Op}, Derives A l → Derives A r →
      '('::(e++[')']) ≠ l++sign o::r := by
    intro l r o hl hr heq
    obtain ⟨z, l', rfl⟩ := List.exists_cons_of_ne_nil hl.ne_nil
    simp only [List.cons_append, List.cons.injEq] at heq
    obtain ⟨rfl, heq⟩ := heq
    obtain ⟨g, tail, -, rfl⟩ := hl.group rfl
    rcases List.eq_nil_or_concat r with rfl | ⟨r', y, rfl⟩
    · exact hr.ne_nil rfl
    · rw [List.concat_eq_append, ← List.cons_append, ← List.append_assoc] at heq
      have hmem := (List.append_inj' heq rfl).1
      exact hplain (by simp [hmem])
  rcases h.lift.weak_cases with h | ⟨l, r, tl, tr, heq, -, hl, hr⟩
  · rcases h.strong_cases with h | ⟨o, l, r, tl, tr, -, heq, -, hl, hr⟩
    · rcases h.atom_cases with ⟨a, heq, -⟩ | ⟨e', heq, he⟩
      · simp at heq
      · simp only [List.cons.injEq, List.append_cancel_right_eq, true_and] at heq
        subst heq
        exact he
    · exact absurd heq (hsplit hl.derives hr.derives)
  · exact absurd heq (hsplit hl.derives hr.derives)

/-- What is left has the same tree and is no single group. -/
theorem strip_parses {w u : List Char} {t : OpTree (Letter A)} (ht : Parses A .weak w t)
    (h : strip A w = .ok u) :
    Parses A .weak u t ∧ u <:+: w ∧ ∀ e, Derives A e → u ≠ '('::(e++[')']) := by
  induction hn : w.length using Nat.strong_induction_on generalizing w with
  | _ n ih =>
    rcases strip_cases ht.derives.ne_nil with
      ⟨e, rfl, hc, hstrip⟩ | ⟨e, r, rfl, hc, hstrip⟩ | ⟨hstrip, hstays⟩
    · rw [hstrip] at h
      have hplain := (chain_plain (check_true_iff.mp hc)).2
      simp only [List.length_append, List.length_cons, List.length_nil] at hn
      obtain ⟨hu, hinfix, hgroup⟩ := ih e.length (by omega) (parses_unwrap ht hplain) h rfl
      exact ⟨hu, hinfix.trans ⟨['('], [')'], by simp⟩, hgroup⟩
    · rw [hstrip] at h
      cases h
    · rw [hstrip] at h
      cases h
      refine ⟨ht, List.infix_rfl, fun e he heq => ?_⟩
      -- `check` says no only to what is no expression of its own
      have hc := hstays e heq
      by_cases hopen : '(' ∈ e
      · have hraise := check_nested he hopen []
        rw [List.append_nil, hc] at hraise
        cases hraise
      · rw [check_flat he hopen] at hc
        cases hc

theorem strip_raises {w : List Char} (hd : Derives A w) {e : Raised}
    (h : strip A w = .error e) : ∃ v, ('('::(v++[')'])) <:+: w ∧ check A v = .error e := by
  obtain ⟨t, ht⟩ := hd.parses
  clear hd
  induction hn : w.length using Nat.strong_induction_on generalizing w with
  | _ n ih =>
    rcases strip_cases ht.derives.ne_nil with
      ⟨v, rfl, hc, hstrip⟩ | ⟨v, r, rfl, hc, hstrip⟩ | ⟨hstrip, -⟩
    · rw [hstrip] at h
      have hplain := (chain_plain (check_true_iff.mp hc)).2
      simp only [List.length_append, List.length_cons, List.length_nil] at hn
      obtain ⟨v', hinfix, hv'⟩ := ih v.length (by omega) h (parses_unwrap ht hplain) rfl
      exact ⟨v', hinfix.trans ⟨['('], [')'], by simp⟩, hv'⟩
    · rw [hstrip] at h
      cases h
      exact ⟨v, List.infix_rfl, hc⟩
    · rw [hstrip] at h
      cases h

theorem onp_error {w : List Char} {e : Raised} (h : strip A w = .error e) :
    onp A w = .error e := by
  rw [onp]
  split
  · rename_i e' he
    rw [h] at he
    exact he.symm
  · rename_i u hu
    rw [h] at hu
    cases hu

theorem onp_whole {w u : List Char} (h : strip A w = .ok u) (hs : splitAt u = none) :
    onp A w = .ok u := by
  rw [onp]
  split
  · rename_i e he
    rw [h] at he
    cases he
  · rename_i u' hu
    rw [h] at hu
    cases hu
    split
    · rfl
    · rename_i p hp
      rw [hs] at hp
      cases hp

theorem drop_past (l r : List Char) (z : Char) : (l++z::r).drop (l.length+1) = r := by
  rw [← List.drop_drop, List.drop_left]
  rfl

theorem onp_split {w l r : List Char} {z : Char} (h : strip A w = .ok (l++z::r))
    (hs : splitAt (l++z::r) = some l.length) :
    onp A w = (onp A l).bind fun a => (onp A r).bind fun b => .ok (a++b++[z]) := by
  rw [onp]
  split
  · rename_i e he
    rw [h] at he
    cases he
  · rename_i u' hu
    rw [h] at hu
    cases hu
    split
    · rename_i hp
      rw [hs] at hp
      cases hp
    · rename_i p hp
      rw [hs] at hp
      cases hp
      simp only [List.take_left, drop_past, List.get_eq_getElem, List.getElem_append_right (le_refl _)]
      simp
      rfl

inductive Calls (A : Alphabet) : List Char → List Char → Prop where
  | left {w u : List Char} {p : ℕ} (hu : strip A w = .ok u) (hp : splitAt u = some p) :
      Calls A w (u.take p)
  | right {w u : List Char} {p : ℕ} (hu : strip A w = .ok u) (hp : splitAt u = some p) :
      Calls A w (u.drop (p+1))

theorem calls_shorter {w v : List Char} (hd : Derives A w) (h : Calls A w v) :
    v.length < w.length ∧ v ≠ [] ∧ Derives A v := by
  obtain ⟨t, ht⟩ := hd.parses
  have hboth : ∀ {u p}, strip A w = .ok u → splitAt u = some p →
      ((u.take p).length < w.length ∧ Derives A (u.take p)) ∧
      (u.drop (p+1)).length < w.length ∧ Derives A (u.drop (p+1)) := by
    intro u p hu hp
    have hlen := strip_length A hu
    rcases splitAt_cases (strip_parses ht hu).1 with ⟨o, l, r, tl, tr, rfl, -, hl, hr, hs⟩ | ⟨-, hs⟩
    · rw [hs, Option.some.injEq] at hp
      subst hp
      rw [List.take_left, drop_past]
      simp only [List.length_append, List.length_cons] at hlen
      exact ⟨⟨by omega, hl.derives⟩, by omega, hr.derives⟩
    · rw [hs] at hp
      cases hp
  cases h with
  | left hu hp =>
    obtain ⟨⟨hlen, hv⟩, -⟩ := hboth hu hp
    exact ⟨hlen, hv.ne_nil, hv⟩
  | right hu hp =>
    obtain ⟨-, hlen, hv⟩ := hboth hu hp
    exact ⟨hlen, hv.ne_nil, hv⟩

theorem onp_post {w s : List Char} {t : OpTree (Letter A)} (ht : Parses A .weak w t)
    (h : onp A w = .ok s) : s = post t := by
  induction hn : w.length using Nat.strong_induction_on generalizing w s t with
  | _ n ih =>
    cases hs : strip A w with
    | error e =>
      rw [onp_error hs] at h
      cases h
    | ok u =>
      obtain ⟨hu, -, hgroup⟩ := strip_parses ht hs
      have hlen := strip_length A hs
      rcases splitAt_cases hu with ⟨o, l, r, tl, tr, rfl, rfl, hl, hr, hp⟩ | ⟨hatom, hp⟩
      · simp only [List.length_append, List.length_cons] at hlen
        rw [onp_split hs hp] at h
        cases hleft : onp A l with
        | error e => simp [hleft, Except.bind] at h
        | ok a =>
          cases hright : onp A r with
          | error e => simp [hleft, hright, Except.bind] at h
          | ok b =>
            simp only [hleft, hright, Except.bind, Except.ok.injEq] at h
            rw [← h, post, ih l.length (by omega) hl hleft rfl, ih r.length (by omega) hr hright rfl]
      · rw [onp_whole hs hp] at h
        cases h
        rcases hatom.atom_cases with ⟨a, rfl, rfl⟩ | ⟨e, heq, he⟩
        · rfl
        · exact absurd heq (hgroup e he.derives)

theorem onp_raises {w : List Char} (hd : Derives A w) {e : Raised} (h : onp A w = .error e) :
    ∃ v, ('('::(v++[')'])) <:+: w ∧ check A v = .error e := by
  induction hn : w.length using Nat.strong_induction_on generalizing w with
  | _ n ih =>
    cases hs : strip A w with
    | error e' =>
      rw [onp_error hs] at h
      cases h
      exact strip_raises hd hs
    | ok u =>
      obtain ⟨t, ht⟩ := hd.parses
      obtain ⟨hu, hinfix, -⟩ := strip_parses ht hs
      have hlen := strip_length A hs
      rcases splitAt_cases hu with ⟨o, l, r, tl, tr, rfl, rfl, hl, hr, hp⟩ | ⟨-, hp⟩
      · simp only [List.length_append, List.length_cons] at hlen
        rw [onp_split hs hp] at h
        cases hleft : onp A l with
        | error e' =>
          simp only [hleft, Except.bind, Except.error.injEq] at h
          subst h
          obtain ⟨v, hv, hcheck⟩ := ih l.length (by omega) hl.derives hleft rfl
          exact ⟨v, (hv.trans ⟨[], sign o::r, by simp⟩).trans hinfix, hcheck⟩
        | ok a =>
          cases hright : onp A r with
          | error e' =>
            simp only [hleft, hright, Except.bind, Except.error.injEq] at h
            subst h
            obtain ⟨v, hv, hcheck⟩ := ih r.length (by omega) hr.derives hright rfl
            exact ⟨v, (hv.trans ⟨l++[sign o], [], by simp⟩).trans hinfix, hcheck⟩
          | ok b => simp [hleft, hright, Except.bind] at h
      · rw [onp_whole hs hp] at h
        cases h

theorem calls_derives {w v : List Char} (hd : Derives A w)
    (h : Relation.ReflTransGen (Calls A) w v) : Derives A v := by
  induction h with
  | refl => exact hd
  | tail _ hc ih => exact (calls_shorter ih hc).2.2

theorem strip_not_indexError {w : List Char} (hd : Derives A w) :
    strip A w ≠ .error .indexError := by
  intro h
  obtain ⟨v, -, hv⟩ := strip_raises hd h
  cases scan_typeError hv

theorem flat_plain {w : List Char} (h : '(' ∉ w) (inside : Bool) : flat inside w = true := by
  induction w generalizing inside with
  | nil => rfl
  | cons z w ih =>
    simp only [List.mem_cons, not_or] at h
    rw [flat, if_neg (Ne.symm h.1)]
    split
    · exact ih h.2 false
    · exact ih h.2 inside

theorem strip_flat {w : List Char} {t : OpTree (Letter A)} (ht : Parses A .weak w t) :
    (∃ u, strip A w = .ok u ∧ flat false u = flat false w) ∨
    (strip A w = .error .typeError ∧ flat false w = false) := by
  by_cases hparen : ∃ e, w = '('::(e++[')'])
  · obtain ⟨e, rfl⟩ := hparen
    rw [strip_paren]
    obtain ⟨g, tail, hg, heq⟩ := ht.derives.group rfl
    rcases List.eq_nil_or_concat tail with rfl | ⟨x, y, rfl⟩
    · obtain rfl : e = g := by simpa using heq
      by_cases hopen : '(' ∈ e
      · have hcheck := check_nested hg hopen []
        rw [List.append_nil] at hcheck
        rw [hcheck, flat_paren hg]
        exact Or.inr ⟨rfl, by simp [hopen]⟩
      · have hbare : ∀ v, e ≠ '('::(v++[')']) := by
          rintro v rfl
          simp at hopen
        rw [check_flat hg hopen, flat_paren hg]
        exact Or.inl ⟨e, strip_bare hg.ne_nil hbare, by simp [hopen, flat_plain hopen, flat]⟩
    · rw [List.concat_eq_append, ← List.cons_append, ← List.append_assoc] at heq
      obtain rfl := (List.append_inj' heq rfl).1
      by_cases hopen : '(' ∈ g
      · rw [check_nested hg hopen, List.append_assoc, List.cons_append, flat_paren hg]
        exact Or.inr ⟨rfl, by simp [hopen]⟩
      · rw [check_closed hg hopen]
        exact Or.inl ⟨_, rfl, rfl⟩
  · exact Or.inl ⟨w, strip_bare ht.derives.ne_nil fun e he => hparen ⟨e, he⟩, rfl⟩

theorem onp_returns_iff {w : List Char} (hd : Derives A w) :
    (∃ s, onp A w = .ok s) ↔ flat false w = true := by
  induction hn : w.length using Nat.strong_induction_on generalizing w with
  | _ n ih =>
    obtain ⟨t, ht⟩ := hd.parses
    rcases strip_flat ht with ⟨u, hs, hflat⟩ | ⟨hs, hflat⟩
    · obtain ⟨hu, -, hgroup⟩ := strip_parses ht hs
      have hlen := strip_length A hs
      rw [← hflat]
      rcases splitAt_cases hu with ⟨o, l, r, tl, tr, rfl, rfl, hl, hr, hp⟩ | ⟨hatom, hp⟩
      · simp only [List.length_append, List.length_cons] at hlen
        rw [onp_split hs hp, flat_binary hl.derives, Bool.and_eq_true,
          ← ih l.length (by omega) hl.derives rfl, ← ih r.length (by omega) hr.derives rfl]
        cases onp A l <;> cases onp A r <;> simp [Except.bind]
      · rw [onp_whole hs hp]
        rcases hatom.atom_cases with ⟨a, rfl, rfl⟩ | ⟨e, heq, he⟩
        · have hopen : '(' ∉ [a.1] := by simp [(letter_ne a.2 (m := '(') (by decide)).symm]
          simp [flat_plain hopen]
        · exact absurd heq (hgroup e he.derives)
    · rw [onp_error hs, hflat]
      simp

/-- What `onp` returns of an expression is the postorder of its only tree. It
fails only where `check` does, on what stands between two parentheses of the
expression, and every string the recursion reaches is a shorter expression, so
that no empty string is indexed. -/
theorem onp_postorder (A : Alphabet) (w : List Char) (hd : Derives A w) :
    (∃ t, Parses A .weak w t ∧ (∀ u, Parses A .weak w u → u = t) ∧
      ∀ s, onp A w = .ok s → s = post t) ∧
    (∀ e, onp A w = .error e → ∃ v, ('('::(v++[')'])) <:+: w ∧ check A v = .error e) ∧
    (∀ x v, Relation.ReflTransGen (Calls A) w x → Calls A x v →
      v.length < x.length ∧ v ≠ [] ∧ Derives A v) ∧
    ∀ x, Relation.ReflTransGen (Calls A) w x → x ≠ [] ∧ strip A x ≠ .error .indexError := by
  obtain ⟨t, ht⟩ := hd.parses
  refine ⟨⟨t, ht, fun u hu => parses_unique hu ht, fun s hs => onp_post ht hs⟩, ?_, ?_, ?_⟩
  · exact fun e he => onp_raises hd he
  · exact fun x v hx hv => calls_shorter (calls_derives hd hx) hv
  · intro x hx
    have hx := calls_derives hd hx
    exact ⟨hx.ne_nil, strip_not_indexError hx⟩

theorem onp_postorder_small : ∃ t, Parses ascii .weak "a>b&c".toList t ∧
    onp ascii "a>b&c".toList = .ok "abc&>".toList ∧ post t = "abc&>".toList := by
  have hd : Derives ascii "a>b&c".toList :=
    .binary .imp (.letter ⟨'a', rfl⟩) (.binary .and (.letter ⟨'b', rfl⟩) (.letter ⟨'c', rfl⟩))
  obtain ⟨t, ht, -, hpost⟩ := (onp_postorder ascii _ hd).1
  have hs : onp ascii "a>b&c".toList = .ok "abc&>".toList := by decide +kernel
  exact ⟨t, ht, hs, (hpost _ hs).symm⟩

end Semestr4.LogicPostfix
