import Semestr4.LogicGrammar

/-!
# What `check` recognises

The automaton accepts operands joined by operators, where an operand is a
letter behind any characters it does not know. It raises as soon as another
character than an operator follows a letter, unless that is a closing
parenthesis too many. So it says no only where there is no expression, but it
raises on every expression with parentheses.
-/

set_option autoImplicit false

namespace Semestr4.LogicCheck
open Semestr4.LogicEvaluator Semestr4.PostfixMachine Semestr4.LogicGrammar

def Foreign (A : Alphabet) (z : Char) : Prop :=
  A.isalpha z = false ∧ z ∉ op ∧ z ≠ '(' ∧ z ≠ ')'

instance (A : Alphabet) (z : Char) : Decidable (Foreign A z) :=
  inferInstanceAs (Decidable (A.isalpha z = false ∧ z ∉ op ∧ z ≠ '(' ∧ z ≠ ')'))

/-- Letters joined by operators, with foreign characters before the letters. -/
inductive Chain (A : Alphabet) : List Char → Prop where
  | letter {z : Char} (hz : A.isalpha z = true) : Chain A [z]
  | operator {z y : Char} {w : List Char} (hz : A.isalpha z = true) (hy : y ∈ op) :
      Chain A w → Chain A (z::y::w)
  | foreign {z : Char} {w : List Char} (hz : Foreign A z) : Chain A w → Chain A (z::w)

/-- Such a chain, in which parentheses can be opened, comes to a letter with no
operator behind it but another character, which closes no parenthesis too many.
The flag tells whether one is open. -/
inductive Stuck (A : Alphabet) : Bool → List Char → Prop where
  | here {opened : Bool} {z y : Char} {w : List Char} (hz : A.isalpha z = true) (hy : y ∉ op)
      (hclose : y = ')' → opened = true) : Stuck A opened (z::y::w)
  | operator {opened : Bool} {z y : Char} {w : List Char} (hz : A.isalpha z = true)
      (hy : y ∈ op) : Stuck A opened w → Stuck A opened (z::y::w)
  | opening {opened : Bool} {w : List Char} : Stuck A true w → Stuck A opened ('('::w)
  | foreign {opened : Bool} {z : Char} {w : List Char} (hz : Foreign A z) :
      Stuck A opened w → Stuck A opened (z::w)

variable {A : Alphabet}

theorem nest_open (ln : ℤ) : nest ln '(' = ln+1 := rfl

theorem nest_close (ln : ℤ) : nest ln ')' = ln-1 := rfl

theorem nest_other {z : Char} (h : z ≠ '(') (h' : z ≠ ')') (ln : ℤ) : nest ln z = ln := by
  simp only [nest, if_neg h, if_neg h']

theorem char_cases (A : Alphabet) (z : Char) :
    A.isalpha z = true ∨ z ∈ op ∨ z = '(' ∨ z = ')' ∨ Foreign A z := by
  unfold Foreign
  cases h : A.isalpha z
  · tauto
  · exact Or.inl rfl

section
variable {letters : List Char} {ln : ℤ} {z : Char} {rest : List Char}

theorem scan_letter (hln : 0 ≤ ln) (hz : A.isalpha z = true) (hmem : z ∈ letters) :
    scan letters ln true (z::rest) = scan letters ln false rest := by
  have hnest := nest_other (letter_ne hz (m := '(') (by decide))
    (letter_ne hz (m := ')') (by decide)) ln
  simp only [scan, hnest, if_neg (not_lt.mpr hln), if_pos hmem, if_true]

theorem scan_open (hln : 0 ≤ ln) (hmem : '(' ∉ letters) :
    scan letters ln true ('('::rest) = scan letters (ln+1) true rest := by
  simp only [scan, nest_open, if_neg (not_lt.mpr (Int.add_nonneg hln Int.one_nonneg)),
    if_neg hmem, if_true]
  rfl

theorem scan_close (hmem : ')' ∉ letters) : scan letters ln true (')'::rest) = .ok false := by
  simp only [scan, if_neg hmem, if_true]
  split <;> rfl

theorem scan_sign (hz : z ∈ op) (hmem : z ∉ letters) :
    scan letters ln true (z::rest) = .ok false := by
  simp only [scan, if_neg hmem, if_true, if_pos (List.mem_cons_of_mem _ hz)]
  split <;> rfl

theorem scan_foreign (hln : 0 ≤ ln) (hz : Foreign A z) (hmem : z ∉ letters) :
    scan letters ln true (z::rest) = scan letters ln true rest := by
  have hnot : z ∉ ')'::op := by simp [hz.2.1, hz.2.2.2]
  simp only [scan, nest_other hz.2.2.1 hz.2.2.2, if_neg (not_lt.mpr hln), if_neg hmem,
    if_neg hnot, if_true]

theorem scan_operator (hln : 0 ≤ ln) (hz : z ∈ op) :
    scan letters ln false (z::rest) = scan letters ln true rest := by
  obtain ⟨o, rfl⟩ := mem_op.mp hz
  simp only [scan, nest_other (sign_ne_open o) (sign_ne_close o), if_neg (not_lt.mpr hln),
    if_pos hz, Bool.false_eq_true, if_false]

theorem scan_surplus : scan letters 0 false (')'::rest) = .ok false := rfl

theorem scan_raises (hln : 0 ≤ ln) (hz : z ∉ op) (hclose : z = ')' → 0 < ln) :
    scan letters ln false (z::rest) = .error .typeError := by
  have hnest : ¬ nest ln z < 0 := by
    by_cases hopen : z = '('
    · rw [hopen, nest_open]
      omega
    · by_cases h : z = ')'
      · have := hclose h
        rw [h, nest_close]
        omega
      · rw [nest_other hopen h]
        omega
  simp only [scan, if_neg hnest, if_neg hz, Bool.false_eq_true, if_false]

end

section
variable {b : Bool} {z y : Char} {w : List Char}

theorem Foreign.not_letter (hz : Foreign A z) : ¬ A.isalpha z = true := by
  rw [hz.1]
  exact Bool.false_ne_true

theorem chain_letter (hz : A.isalpha z = true) : Chain A (z::y::w) ↔ y ∈ op ∧ Chain A w := by
  constructor
  · intro h
    cases h with
    | operator _ hy hw => exact ⟨hy, hw⟩
    | foreign hf _ => exact absurd hz hf.not_letter
  · exact fun ⟨hy, hw⟩ => .operator hz hy hw

theorem chain_foreign (hz : Foreign A z) : Chain A (z::w) ↔ Chain A w := by
  constructor
  · intro h
    cases h with
    | letter hl => exact absurd hl hz.not_letter
    | operator hl _ _ => exact absurd hl hz.not_letter
    | foreign _ hw => exact hw
  · exact .foreign hz

theorem chain_mark (hz : z ∈ op ∨ z = '(' ∨ z = ')') : ¬ Chain A (z::w) := by
  have hletter : ¬ A.isalpha z = true := by
    rcases hz with hz | rfl | rfl
    · exact fun h => letter_not_op h hz
    · exact fun h => letter_ne h (m := '(') (by decide) rfl
    · exact fun h => letter_ne h (m := ')') (by decide) rfl
  intro h
  cases h with
  | letter hl => exact hletter hl
  | operator hl _ _ => exact hletter hl
  | foreign hf _ => exact hz.elim hf.2.1 (fun h => h.elim hf.2.2.1 hf.2.2.2)

theorem stuck_letter (hz : A.isalpha z = true) : Stuck A b (z::y::w) ↔
    (y ∈ op ∧ Stuck A b w) ∨ (y ∉ op ∧ (y = ')' → b = true)) := by
  constructor
  · intro h
    cases h with
    | here _ hy hclose => exact Or.inr ⟨hy, hclose⟩
    | operator _ hy hw => exact Or.inl ⟨hy, hw⟩
    | opening _ => exact absurd rfl (letter_ne hz (m := '(') (by decide))
    | foreign hf _ => exact absurd hz hf.not_letter
  · rintro (⟨hy, hw⟩ | ⟨hy, hclose⟩)
    · exact .operator hz hy hw
    · exact .here hz hy hclose

theorem stuck_single (hz : A.isalpha z = true) : ¬ Stuck A b [z] := by
  intro h
  cases h with
  | opening hw => cases hw
  | foreign _ hw => cases hw

theorem stuck_open : Stuck A b ('('::w) ↔ Stuck A true w := by
  constructor
  · intro h
    cases h with
    | here hl _ _ => exact absurd rfl (letter_ne hl (m := '(') (by decide))
    | operator hl _ _ => exact absurd rfl (letter_ne hl (m := '(') (by decide))
    | opening hw => exact hw
    | foreign hf _ => exact absurd rfl hf.2.2.1
  · exact .opening

theorem stuck_foreign (hz : Foreign A z) : Stuck A b (z::w) ↔ Stuck A b w := by
  constructor
  · intro h
    cases h with
    | here hl _ _ => exact absurd hl hz.not_letter
    | operator hl _ _ => exact absurd hl hz.not_letter
    | opening _ => exact absurd rfl hz.2.2.1
    | foreign _ hw => exact hw
  · exact .foreign hz

theorem stuck_mark (hz : z ∈ op ∨ z = ')') : ¬ Stuck A b (z::w) := by
  have hletter : ¬ A.isalpha z = true := by
    rcases hz with hz | rfl
    · exact fun h => letter_not_op h hz
    · exact fun h => letter_ne h (m := ')') (by decide) rfl
  intro h
  cases h with
  | here hl _ _ => exact hletter hl
  | operator hl _ _ => exact hletter hl
  | opening _ => exact absurd hz (by decide)
  | foreign hf _ => exact hz.elim hf.2.1 hf.2.2.2

end

/-- What the loop comes to. Behind a letter the outcome is told of the rest with
the letter in front. -/
theorem scan_spec {letters w : List Char} (h : ∀ z ∈ w, z ∈ letters ↔ A.isalpha z = true) :
    ∀ ln : ℤ, 0 ≤ ln →
      ((scan letters ln true w = .ok true ↔ Chain A w ∧ ln = 0) ∧
        (scan letters ln true w = .error .typeError ↔ Stuck A (decide (0 < ln)) w)) ∧
      ∀ a, A.isalpha a = true →
        (scan letters ln false w = .ok true ↔ Chain A (a::w) ∧ ln = 0) ∧
        (scan letters ln false w = .error .typeError ↔ Stuck A (decide (0 < ln)) (a::w)) := by
  induction w with
  | nil =>
    intro ln hln
    have hchain : ¬ Chain A [] := by
      intro hc
      cases hc
    have hstuck : ∀ b, ¬ Stuck A b [] := by
      intro b hs
      cases hs
    refine ⟨?_, fun a ha => ?_⟩
    · by_cases hzero : ln = 0 <;> simp [scan, hzero, hchain, hstuck]
    · have hone : Chain A [a] := .letter ha
      by_cases hzero : ln = 0 <;> simp [scan, hzero, hone, stuck_single ha]
  | cons z rest ih =>
    intro ln hln
    have hmem := h z (List.mem_cons_self ..)
    have ih := ih fun y hy => h y (List.mem_cons_of_mem _ hy)
    constructor
    · rcases char_cases A z with hz | hz | rfl | rfl | hz
      · rw [scan_letter hln hz (hmem.mpr hz)]
        exact (ih ln hln).2 z hz
      · rw [scan_sign hz (mt hmem.mp fun hl => letter_not_op hl hz)]
        simp [chain_mark (A := A) (Or.inl hz), stuck_mark (A := A) (Or.inl hz)]
      · have hopen : '(' ∉ letters := mt hmem.mp (by simp [A.marks '(' (by decide)])
        rw [scan_open hln hopen, (ih (ln+1) (by omega)).1.1, (ih (ln+1) (by omega)).1.2,
          stuck_open]
        have hpos : 0 < ln+1 := by omega
        have hne : ¬ ln+1 = 0 := by omega
        simp [chain_mark (A := A) (Or.inr (Or.inl rfl)), hpos, hne]
      · have hclose : ')' ∉ letters := mt hmem.mp (by simp [A.marks ')' (by decide)])
        rw [scan_close hclose]
        simp [chain_mark (A := A) (Or.inr (Or.inr rfl)), stuck_mark (A := A) (Or.inr rfl)]
      · rw [scan_foreign hln hz (mt hmem.mp hz.not_letter), chain_foreign hz, stuck_foreign hz]
        exact (ih ln hln).1
    · intro a ha
      rw [chain_letter ha, stuck_letter ha]
      by_cases hz : z ∈ op
      · rw [scan_operator hln hz, (ih ln hln).1.1, (ih ln hln).1.2]
        simp [hz]
      · by_cases hclose : z = ')' ∧ ln = 0
        · obtain ⟨rfl, rfl⟩ := hclose
          rw [scan_surplus]
          simp [hz]
        · have hraise : z = ')' → 0 < ln := by
            intro hz'
            have : ln ≠ 0 := fun hzero => hclose ⟨hz', hzero⟩
            omega
          rw [scan_raises hln hz hraise]
          simpa [hz] using hraise

theorem mem_foo_self {s : List Char} (z : Char) (hz : z ∈ s) :
    z ∈ foo A s ↔ A.isalpha z = true := by
  simp [mem_foo, hz]

theorem check_true_iff {s : List Char} : check A s = .ok true ↔ Chain A s := by
  have h := (scan_spec (mem_foo_self (A := A) (s := s)) 0 (le_refl 0)).1.1
  simpa [check] using h

theorem check_raises_iff {s : List Char} :
    check A s = .error .typeError ↔ Stuck A false s := by
  have h := (scan_spec (mem_foo_self (A := A) (s := s)) 0 (le_refl 0)).1.2
  simpa [check] using h

theorem scan_typeError {letters w : List Char} {ln : ℤ} {state : Bool} {e : Raised}
    (h : scan letters ln state w = .error e) : e = .typeError := by
  induction w generalizing ln state with
  | nil =>
    rw [scan] at h
    split at h <;> cases h
  | cons z rest ih =>
    rw [scan] at h
    split at h
    · cases h
    · split at h
      · split at h
        · exact ih h
        · split at h
          · cases h
          · exact ih h
      · split at h
        · exact ih h
        · cases h
          rfl

theorem Chain.append {l r : List Char} (o : Op) (hl : Chain A l) (hr : Chain A r) :
    Chain A (l++sign o::r) := by
  induction hl with
  | letter hz => exact .operator hz (mem_op.mpr ⟨o, rfl⟩) hr
  | operator hz hy _ ih => exact .operator hz hy ih
  | foreign hz _ ih => exact .foreign hz ih

theorem Chain.stuck {l w : List Char} {b : Bool} (o : Op) (hl : Chain A l) (hw : Stuck A b w) :
    Stuck A b (l++sign o::w) := by
  induction hl with
  | letter hz => exact .operator hz (mem_op.mpr ⟨o, rfl⟩) hw
  | operator hz hy _ ih => exact .operator hz hy ih
  | foreign hz _ ih => exact .foreign hz ih

theorem Chain.blocked {l w : List Char} {y : Char} {b : Bool} (hl : Chain A l) (hy : y ∉ op)
    (hclose : y = ')' → b = true) : Stuck A b (l++y::w) := by
  induction hl with
  | letter hz => exact .here hz hy hclose
  | operator hz hy' _ ih => exact .operator hz hy' ih
  | foreign hz _ ih => exact .foreign hz ih

theorem derives_chain {w : List Char} (h : Derives A w) (hopen : '(' ∉ w) : Chain A w := by
  induction h with
  | letter a => exact .letter a.2
  | binary o _ _ ihl ihr =>
    simp only [List.mem_append, List.mem_cons, not_or] at hopen
    exact (ihl hopen.1).append o (ihr hopen.2.2)
  | paren _ _ => exact absurd (List.mem_cons_self ..) hopen

theorem derives_stuck {w : List Char} (h : Derives A w) (hopen : '(' ∈ w) (b : Bool)
    (rest : List Char) : Stuck A b (w++rest) := by
  induction h generalizing b rest with
  | letter a =>
    have ha : '(' = a.1 := by simpa using hopen
    exact absurd ha.symm (letter_ne a.2 (by decide))
  | @binary l r o hl hr ihl ihr =>
    rw [List.append_assoc]
    by_cases hmem : '(' ∈ l
    · exact ihl hmem b _
    · have hright : '(' ∈ r := by simpa [hmem, Ne.symm (sign_ne_open o)] using hopen
      exact (derives_chain hl hmem).stuck o (ihr hright b rest)
  | @paren e he ih =>
    rw [List.cons_append, List.append_assoc]
    apply Stuck.opening
    by_cases hmem : '(' ∈ e
    · exact ih hmem true _
    · exact (derives_chain he hmem).blocked (by decide) fun _ => rfl

theorem chain_derives {w : List Char} (h : Chain A w) (hknown : ∀ z ∈ w, ¬ Foreign A z) :
    Derives A w := by
  induction h with
  | @letter z hz => exact .letter ⟨z, hz⟩
  | @operator z y w hz hy _ ih =>
    obtain ⟨o, rfl⟩ := mem_op.mp hy
    have hw := ih fun x hx => hknown x (by simp [hx])
    exact Derives.binary o (.letter ⟨z, hz⟩) hw
  | foreign hz _ _ => exact absurd hz (hknown _ (List.mem_cons_self ..))

theorem derives_known {w : List Char} (h : Derives A w) : ∀ z ∈ w, ¬ Foreign A z := by
  induction h with
  | letter a =>
    intro z hz hf
    obtain rfl : z = a.1 := by simpa using hz
    exact hf.not_letter a.2
  | binary o _ _ ihl ihr =>
    intro z hz hf
    simp only [List.mem_append, List.mem_cons] at hz
    rcases hz with hz | rfl | hz
    · exact ihl z hz hf
    · exact hf.2.1 (mem_op.mpr ⟨o, rfl⟩)
    · exact ihr z hz hf
  | paren _ ih =>
    intro z hz hf
    simp only [List.mem_cons, List.mem_append, List.not_mem_nil, or_false] at hz
    rcases hz with rfl | hz | rfl
    · exact hf.2.2.1 rfl
    · exact ih z hz hf
    · exact hf.2.2.2 rfl

/-- `check` answers, and says yes exactly to the expressions, on the strings on
which it neither gets stuck nor overlooks a foreign character. -/
theorem check_recognises_iff (A : Alphabet) (s : List Char) :
    (∃ b, check A s = .ok b ∧ (b = true ↔ Derives A s)) ↔
      ¬ Stuck A false s ∧ ¬ (Chain A s ∧ ∃ z ∈ s, Foreign A z) := by
  constructor
  · rintro ⟨b, hb, hiff⟩
    constructor
    · intro hstuck
      rw [check_raises_iff.mpr hstuck] at hb
      cases hb
    · rintro ⟨hchain, z, hz, hf⟩
      rw [check_true_iff.mpr hchain] at hb
      cases hb
      exact derives_known (hiff.mp rfl) z hz hf
  · rintro ⟨hstuck, hforeign⟩
    cases hc : check A s with
    | error e =>
      rw [scan_typeError hc] at hc
      exact absurd (check_raises_iff.mp hc) hstuck
    | ok b =>
      refine ⟨b, rfl, ?_⟩
      constructor
      · rintro rfl
        have hchain := check_true_iff.mp hc
        exact chain_derives hchain fun z hz hf => hforeign ⟨hchain, z, hz, hf⟩
      · intro hd
        have hopen : '(' ∉ s := by
          intro hmem
          have h := derives_stuck hd hmem false []
          rw [List.append_nil] at h
          exact hstuck h
        have htrue := check_true_iff.mpr (derives_chain hd hopen)
        rw [hc] at htrue
        exact Except.ok.inj htrue

/-- On an expression in parentheses `check` raises. -/
theorem check_paren_raises : ¬ ∀ s, ∃ b, check ascii s = .ok b ∧ (b = true ↔ Derives ascii s) := by
  intro h
  obtain ⟨b, hb, -⟩ := h ['(', 'a', ')']
  have hraise : check ascii ['(', 'a', ')'] = .error .typeError := by decide
  rw [hraise] at hb
  cases hb

end Semestr4.LogicCheck
