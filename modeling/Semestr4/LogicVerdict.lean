import Semestr4.LogicPostfix
import Semestr4.LogicValue

/-!
# Tautologies and equivalence

The enumerator yields the bits of every assignment, and the variables of an
expression and of its postfix form are the same. So the verdicts are those of
the lazy machine over all assignments, on expressions on which the conversion
does not raise.
-/

set_option autoImplicit false

namespace Semestr4.LogicVerdict
open Semestr4.LogicEvaluator Semestr4.PostfixMachine Semestr4.LogicGrammar
open Semestr4.LogicPostfix Semestr4.LogicValue

def padded (n i : ℕ) : List Char := (bin i).leftpad n '0'

theorem padded_succ {n : ℕ} (hn : 0 < n) (i : ℕ) :
    padded (n+1) i = padded n (i/2)++[(i%2).digitChar] := by
  unfold padded bin
  by_cases hi : 2 ≤ i
  · rw [Nat.toDigits_of_base_le (by decide) hi]
    simp [List.leftpad]
  · have hzero : i/2 = 0 := by omega
    have hmod : i%2 = i := by omega
    rw [hzero, hmod, Nat.toDigits_of_lt_base (by omega), Nat.toDigits_zero]
    obtain ⟨k, rfl⟩ : ∃ k, n = k+1 := ⟨n-1, by omega⟩
    simp [List.leftpad, List.replicate_succ']

theorem mem_gen {n : ℕ} {val : List Char} : val ∈ gen n ↔ ∃ i < 2^n, padded n i = val := by
  simp [gen, padded]

theorem digitChar_bit (b : Bool) : b.toNat.digitChar = bit b := by
  cases b <;> decide

theorem mem_gen_iff {n : ℕ} (hn : 0 < n) (val : List Char) :
    val ∈ gen n ↔ val.length = n ∧ ∀ z ∈ val, ∃ b, z = bit b := by
  induction n, hn using Nat.le_induction generalizing val with
  | base =>
    have hgen : gen 1 = [[bit false], [bit true]] := by decide +kernel
    rw [hgen]
    constructor
    · intro h
      rcases List.mem_pair.mp h with rfl | rfl
      · exact ⟨rfl, by simp⟩
      · exact ⟨rfl, by simp⟩
    · rintro ⟨hlen, hbits⟩
      obtain ⟨z, rfl⟩ := List.length_eq_one_iff.mp hlen
      obtain ⟨b, rfl⟩ := hbits z (List.mem_singleton_self z)
      cases b <;> simp
  | succ n hn ih =>
    rw [mem_gen]
    constructor
    · rintro ⟨i, hi, rfl⟩
      have hhalf : i/2 < 2^n := by
        rw [pow_succ] at hi
        omega
      obtain ⟨hlen, hbits⟩ := (ih (padded n (i/2))).mp (mem_gen.mpr ⟨i/2, hhalf, rfl⟩)
      rw [padded_succ hn]
      refine ⟨by simp [hlen], fun z hz => ?_⟩
      rcases List.mem_append.mp hz with hz | hz
      · exact hbits z hz
      · have hbit : i%2 = (decide (i%2 = 1)).toNat := by
          rcases Nat.mod_two_eq_zero_or_one i with h | h <;> simp [h]
        rw [List.mem_singleton.mp hz, hbit, digitChar_bit]
        exact ⟨_, rfl⟩
    · rintro ⟨hlen, hbits⟩
      rcases List.eq_nil_or_concat val with rfl | ⟨v, z, rfl⟩
      · simp at hlen
      · rw [List.concat_eq_append] at hlen hbits ⊢
        obtain ⟨b, rfl⟩ := hbits z (by simp)
        have hv := (ih v).mpr ⟨by simpa using hlen, fun y hy => hbits y (by simp [hy])⟩
        obtain ⟨j, hj, rfl⟩ := mem_gen.mp hv
        have hb : b.toNat < 2 := Bool.toNat_lt b
        refine ⟨2*j+b.toNat, by rw [pow_succ]; omega, ?_⟩
        have hdiv : (2*j+b.toNat)/2 = j := by omega
        have hmod : (2*j+b.toNat)%2 = b.toNat := by omega
        rw [padded_succ hn, hdiv, hmod, digitChar_bit]

theorem foo_congr (A : Alphabet) {s s' : List Char}
    (h : ∀ z, A.isalpha z = true → (z ∈ s ↔ z ∈ s')) : foo A s = foo A s' := by
  have hperm : (s.filter A.isalpha).dedup.Perm (s'.filter A.isalpha).dedup := by
    rw [List.perm_ext_iff_of_nodup (List.nodup_dedup _) (List.nodup_dedup _)]
    intro z
    simp only [List.mem_dedup, List.mem_filter]
    exact ⟨fun hz => ⟨(h z hz.2).mp hz.1, hz.2⟩, fun hz => ⟨(h z hz.2).mpr hz.1, hz.2⟩⟩
  apply List.Perm.eq_of_pairwise' (r := (· ≤ ·)) (List.pairwise_insertionSort _ _)
    (List.pairwise_insertionSort _ _)
  exact (List.perm_insertionSort _ _).trans (hperm.trans (List.perm_insertionSort _ _).symm)

variable {A : Alphabet}

theorem parses_letters {v : Level} {w : List Char} {t : OpTree (Letter A)} (h : Parses A v w t)
    {z : Char} (hz : A.isalpha z = true) : z ∈ w ↔ z ∈ post t := by
  have hsign : ∀ o, z ≠ sign o := by
    rintro o rfl
    rw [sign_not_alpha] at hz
    cases hz
  have hopen := letter_ne hz (m := '(') (by decide)
  have hclose := letter_ne hz (m := ')') (by decide)
  induction h with
  | letter a => rfl
  | paren _ ih => simp [hopen, hclose, ih]
  | strong o _ _ _ ihl ihr => simp [post, hsign o, ihl, ihr]
  | weak _ _ ihl ihr => simp [post, hsign .imp, ihl, ihr]
  | ofAtom _ ih => exact ih
  | ofStrong _ ih => exact ih

theorem foo_post {w : List Char} {t : OpTree (Letter A)} (h : Parses A .weak w t) :
    foo A w = foo A (post t) := foo_congr A fun _ hz => parses_letters h hz

theorem exists_letter {w : List Char} (h : Derives A w) : ∃ z ∈ w, A.isalpha z = true := by
  induction h with
  | letter a => exact ⟨a.1, List.mem_singleton_self _, a.2⟩
  | binary o _ _ ihl _ =>
    obtain ⟨z, hz, hl⟩ := ihl
    exact ⟨z, List.mem_append_left _ hz, hl⟩
  | paren _ ih =>
    obtain ⟨z, hz, hl⟩ := ih
    exact ⟨z, by simp [hz], hl⟩

theorem foo_pos {w : List Char} (h : Derives A w) : 0 < (foo A w).length := by
  obtain ⟨z, hz, hl⟩ := exists_letter h
  exact List.length_pos_of_mem (mem_foo.mpr ⟨hz, hl⟩)

theorem foo_nodup (s : List Char) : (foo A s).Nodup :=
  (List.perm_insertionSort _ _).nodup_iff.mpr (List.nodup_dedup _)

theorem exists_assignment {zm val : List Char} (hzm : zm.Nodup) (hlen : val.length = zm.length)
    (hbits : ∀ z ∈ val, ∃ b, z = bit b) : ∃ ρ : Char → Bool, val = zm.map fun z => bit (ρ z) := by
  refine ⟨fun z => val[zm.idxOf z]? = some '1', List.ext_getElem (by simpa using hlen) ?_⟩
  intro i hi hi'
  obtain ⟨b, hb⟩ := hbits val[i] (List.getElem_mem hi)
  have hzi : i < zm.length := hlen ▸ hi
  rw [List.getElem_map]
  simp only [hzm.idxOf_getElem i hzi, List.getElem?_eq_getElem hi, hb]
  cases b <;> decide

theorem mem_gen_bits {w : List Char} (h : Derives A w) (val : List Char) :
    val ∈ gen (foo A w).length ↔ ∃ ρ, val = bits A ρ w := by
  rw [mem_gen_iff (foo_pos h)]
  constructor
  · rintro ⟨hlen, hbits⟩
    exact exists_assignment (foo_nodup w) hlen hbits
  · rintro ⟨ρ, rfl⟩
    refine ⟨by simp [bits], fun z hz => ?_⟩
    obtain ⟨y, -, rfl⟩ := List.mem_map.mp hz
    exact ⟨ρ y, rfl⟩

theorem nowhereDifferent_tells {w w' p p' : List Char} {vals : List (List Char)}
    (h : onp A w = .ok p) (h' : onp A w' = .ok p')
    (hvals : ∀ val ∈ vals, ∃ b b', value A p val = .ok (number b) ∧
      value A p' val = .ok (number b')) :
    ∃ r, nowhereDifferent A w w' vals = .ok r ∧
      (r = true ↔ ∀ val ∈ vals, value A p val = value A p' val) := by
  induction vals with
  | nil => exact ⟨true, rfl, by simp⟩
  | cons val rest ih =>
    obtain ⟨b, b', hb, hb'⟩ := hvals val (List.mem_cons_self ..)
    obtain ⟨r, hr, hiff⟩ := ih fun v hv => hvals v (List.mem_cons_of_mem _ hv)
    rw [nowhereDifferent, h, h']
    by_cases hsame : number b = number b'
    · refine ⟨r, by simpa [bind, Except.bind, hb, hb', hsame] using hr, ?_⟩
      simp [hiff, hb, hb', hsame]
    · refine ⟨false, by simp [bind, Except.bind, hb, hb', hsame, pure, Except.pure], ?_⟩
      simp [hb, hb', hsame]

theorem areTheSame_tells {w w' : List Char} {t t' : OpTree (Letter A)} (ht : Parses A .weak w t)
    (ht' : Parses A .weak w' t') (hflat : flat false w = true) (hflat' : flat false w' = true)
    (hvars : foo A w = foo A w') : ∃ r, areTheSame A w w' = .ok r ∧
      (r = true ↔ ∀ ρ, (outcome (onLetters (A := A) ρ) t).1 =
        (outcome (onLetters (A := A) ρ) t').1) := by
  obtain ⟨p, hp⟩ := (onp_returns_iff ht.derives).mpr hflat
  obtain rfl := onp_post ht hp
  obtain ⟨p', hp'⟩ := (onp_returns_iff ht'.derives).mpr hflat'
  obtain rfl := onp_post ht' hp'
  have hbits : ∀ ρ, bits A ρ w = bits A ρ (post t) := fun ρ => by rw [bits, foo_post ht, bits]
  have hbits' : ∀ ρ, bits A ρ w = bits A ρ (post t') := fun ρ => by
    rw [bits, hvars, foo_post ht', bits]
  have hvalue : ∀ ρ, value A (post t) (bits A ρ w) = .ok (number (outcome (onLetters ρ) t).1) :=
    fun ρ => by rw [hbits, value_post]
  have hvalue' : ∀ ρ, value A (post t') (bits A ρ w) = .ok (number (outcome (onLetters ρ) t').1) :=
    fun ρ => by rw [hbits', value_post]
  have hvals : ∀ val ∈ gen (foo A w).length, ∃ b b', value A (post t) val = .ok (number b) ∧
      value A (post t') val = .ok (number b') := by
    intro val hval
    obtain ⟨ρ, rfl⟩ := (mem_gen_bits ht.derives val).mp hval
    exact ⟨_, _, hvalue ρ, hvalue' ρ⟩
  obtain ⟨r, hr, hiff⟩ := nowhereDifferent_tells hp hp' hvals
  refine ⟨r, by rw [areTheSame, if_neg (not_not.mpr hvars), hr], hiff.trans ?_⟩
  constructor
  · intro h ρ
    have hv := h _ ((mem_gen_bits ht.derives _).mpr ⟨ρ, rfl⟩)
    rw [hvalue, hvalue', Except.ok.injEq, number_inj] at hv
    exact hv
  · intro h val hval
    obtain ⟨ρ, rfl⟩ := (mem_gen_bits ht.derives val).mp hval
    rw [hvalue, hvalue', h]

/-- Expressions with different variables are never the same. Of two with the
same variables, without nested parentheses and with operators that take their
own left operands, the verdict is whether their truth values agree. -/
theorem same_told {w w' : List Char} {t t' : OpTree (Letter A)} (ht : Parses A .weak w t)
    (ht' : Parses A .weak w' t') :
    (foo A w ≠ foo A w' → areTheSame A w w' = .ok false) ∧
    (foo A w = foo A w' → flat false w = true → flat false w' = true →
      (∀ ρ, TakesOwn (onLetters (A := A) ρ) t ∧ TakesOwn (onLetters (A := A) ρ) t') →
      ∃ r, areTheSame A w w' = .ok r ∧ (r = true ↔
        ∀ ρ, truth (onLetters (A := A) ρ) t = truth (onLetters (A := A) ρ) t')) := by
  refine ⟨fun hvars => if_pos hvars, fun hvars hflat hflat' hown => ?_⟩
  obtain ⟨r, hr, hiff⟩ := areTheSame_tells ht ht' hflat hflat' hvars
  refine ⟨r, hr, hiff.trans ?_⟩
  simp only [outcome_takesOwn (hown _).1, outcome_takesOwn (hown _).2]

theorem same_told_small : areTheSame ascii "a>b".toList "(a)>b".toList = .ok true := by
  have ha : Parses ascii .atom "a".toList (.leaf ⟨'a', rfl⟩) := .letter ⟨'a', rfl⟩
  have hb : Parses ascii .atom "b".toList (.leaf ⟨'b', rfl⟩) := .letter ⟨'b', rfl⟩
  obtain ⟨r, hr, hiff⟩ := (same_told (.weak ha.lift (.ofAtom hb))
    (.weak (Parses.paren ha.lift).lift (.ofAtom hb))).2 (by decide) (by decide) (by decide)
    fun ρ => ⟨⟨trivial, trivial, Or.inr (by simp [leftover])⟩,
      ⟨trivial, trivial, Or.inr (by simp [leftover])⟩⟩
  exact hr.trans (congrArg Except.ok (hiff.mpr fun ρ => rfl))

/-- `a` and `b&a|a` are equivalent, but only one of them has the variable `b`. -/
theorem same_needs_variables : ¬ ∀ (w w' : List Char) (t t' : OpTree (Letter ascii)),
    Parses ascii .weak w t → Parses ascii .weak w' t' →
      (areTheSame ascii w w' = .ok true ↔
        ∀ ρ, truth (onLetters ρ) t = truth (onLetters ρ) t') := by
  intro h
  have ha : Parses ascii .atom "a".toList (.leaf ⟨'a', rfl⟩) := .letter ⟨'a', rfl⟩
  have hb : Parses ascii .atom "b".toList (.leaf ⟨'b', rfl⟩) := .letter ⟨'b', rfl⟩
  have hsame := (h "a".toList "b&a|a".toList _ _ ha.lift
    (Parses.strong .or (by decide) (.strong .and (by decide) (.ofAtom hb) ha) ha).lift).mpr
    fun ρ => by simp [truth, Op.truth]
  have hdifferent : areTheSame ascii "a".toList "b&a|a".toList = .ok false := by decide +kernel
  rw [hdifferent] at hsame
  cases hsame

end Semestr4.LogicVerdict
