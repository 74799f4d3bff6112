import Mathlib.Algebra.Ring.Int.Defs
import Mathlib.Data.List.Induction
import Mathlib.Data.List.TakeWhile
import Mathlib.Order.Basic
import Semestr4.ByteText

/-!
# Decimal numbers and tokens of C strings

Numbers are written with their decimal digits and read by `atoi`, which is not
limited here to the range of a machine integer. `strtok` cuts a string at
delimiters: its tokens are the maximal runs of other characters. Cutting a
string in two pieces leaves its tokens, or breaks one of them in two.
-/

set_option autoImplicit false

namespace Semestr4.DecimalText
open Semestr4.ByteText

def isDigit (b : UInt8) : Bool := 48 ≤ b && b ≤ 57

def isSpace (b : UInt8) : Bool := b = 32 || (9 ≤ b && b ≤ 13)

def number (s : Text) : ℕ := s.foldl (fun n b => 10*n+(b.toNat-48)) 0

def atoi (s : Text) : ℤ :=
  match s.dropWhile isSpace with
  | [] => 0
  | b::rest =>
    if b = 45 then -(number (rest.takeWhile isDigit))
    else if b = 43 then number (rest.takeWhile isDigit)
    else number ((b::rest).takeWhile isDigit)

def digits (n : ℕ) : Text := (Nat.toDigits 10 n).map Char.toUInt8

/-- The format `%d`. -/
def decimal (z : ℤ) : Text := if z < 0 then 45::digits z.natAbs else digits z.natAbs

/-- A call of `strtok`: the token and what the next call goes on with, or a null
pointer. -/
def strtok (delim s : Text) : Option (Text × Text) :=
  match s.dropWhile (· ∈ delim) with
  | [] => none
  | b::rest => some ((b::rest).takeWhile (· ∉ delim), ((b::rest).dropWhile (· ∉ delim)).tail)

/-- At most `fuel` tokens; the length of the string is always enough. -/
def tokensIn (delim : Text) : ℕ → Text → List Text
  | 0, _ => []
  | fuel+1, s => match strtok delim s with
    | none => []
    | some (token, rest) => token::tokensIn delim fuel rest

/-- What successive calls of `strtok` return until the null pointer. -/
def tokens (delim s : Text) : List Text := tokensIn delim s.length s

theorem digit_byte {d : ℕ} (h : d < 10) : (Nat.digitChar d).toUInt8 = UInt8.ofNat (48+d) := by
  have hall : ∀ d < 10, (Nat.digitChar d).toUInt8 = UInt8.ofNat (48+d) := by decide
  exact hall d h

theorem digits_eq (n : ℕ) :
    digits n = (if n < 10 then [] else digits (n/10)) ++ [UInt8.ofNat (48+n%10)] := by
  unfold digits
  rw [Nat.toDigits_eq_if (by decide)]
  split
  · rename_i hn
    rw [List.map_singleton, digit_byte hn, Nat.mod_eq_of_lt hn, List.nil_append]
  · rw [List.map_append, List.map_singleton, digit_byte (Nat.mod_lt _ (by decide))]

theorem digits_ne_nil (n : ℕ) : digits n ≠ [] := by
  rw [digits_eq]
  simp

theorem digits_isDigit (n : ℕ) : ∀ b ∈ digits n, isDigit b = true := by
  induction n using Nat.strong_induction_on with
  | _ n ih =>
    intro b hb
    rw [digits_eq, List.mem_append, List.mem_singleton] at hb
    rcases hb with hb | rfl
    · split at hb
      · cases hb
      · exact ih (n/10) (by omega) b hb
    · have hall : ∀ d < 10, isDigit (UInt8.ofNat (48+d)) = true := by decide
      exact hall _ (Nat.mod_lt _ (by decide))

theorem number_snoc (s : Text) (b : UInt8) : number (s++[b]) = 10*number s+(b.toNat-48) := by
  simp [number, List.foldl_append]

theorem number_digits (n : ℕ) : number (digits n) = n := by
  induction n using Nat.strong_induction_on with
  | _ n ih =>
    have hlast : ∀ d < 10, (UInt8.ofNat (48+d)).toNat-48 = d := by decide
    rw [digits_eq, number_snoc, hlast _ (Nat.mod_lt _ (by decide))]
    split
    · rename_i hn
      change 10*0+n%10 = n
      omega
    · rw [ih (n/10) (by omega)]
      omega

theorem number_beginning {n : ℕ} (hn : 0 < n) {s t : Text} (h : digits n = s++t) (ht : t ≠ []) :
    number s < n := by
  have hgrow : 10*number s ≤ number (s++t) := by
    clear h
    induction t using List.reverseRecOn with
    | nil => exact absurd rfl ht
    | append_singleton t b ih =>
      rw [← List.append_assoc, number_snoc]
      by_cases hnil : t = []
      · subst hnil
        rw [List.append_nil]
        omega
      · have := ih hnil
        omega
  rw [← h, number_digits] at hgrow
  omega

theorem digit_no_sign {b : UInt8} (h : isDigit b = true) :
    isSpace b = false ∧ b ≠ 45 ∧ b ≠ 43 ∧ b ≠ 32 ∧ b ≠ 10 ∧ b ≠ 0 := by
  simp only [isDigit, Bool.and_eq_true, decide_eq_true_eq, UInt8.le_iff_toNat_le] at h
  have hne : ∀ c : UInt8, c.toNat < 48 → b ≠ c := by
    rintro c hc rfl
    exact absurd h.1 (by simpa using hc)
  refine ⟨?_, hne 45 (by decide), hne 43 (by decide), hne 32 (by decide), hne 10 (by decide),
    hne 0 (by decide)⟩
  have hbig : ¬ b ≤ 13 := by
    rw [UInt8.le_iff_toNat_le]
    have := h.1
    simp at this ⊢
    omega
  simp [isSpace, hne 32 (by decide), hbig]

theorem atoi_number {s : Text} (hs : s ≠ []) (h : ∀ b ∈ s, isDigit b = true) :
    atoi s = number s := by
  cases s with
  | nil => exact absurd rfl hs
  | cons b rest =>
    obtain ⟨hspace, hminus, hplus, -⟩ := digit_no_sign (h b (List.mem_cons_self ..))
    have htake : (b::rest).takeWhile isDigit = b::rest := List.takeWhile_eq_self_iff.mpr h
    simp only [atoi, List.dropWhile_cons, hspace, Bool.false_eq_true, if_false, if_neg hminus,
      if_neg hplus, htake]

theorem atoi_digits (n : ℕ) : atoi (digits n) = n := by
  rw [atoi_number (digits_ne_nil n) (digits_isDigit n), number_digits]

theorem atoi_digits_append (n : ℕ) {rest : Text} (h : ∀ b ∈ rest.head?, isDigit b = false) :
    atoi (digits n++rest) = n := by
  have hdigits := digits_isDigit n
  have hstop : rest.takeWhile isDigit = [] := by
    cases rest with
    | nil => rfl
    | cons b rest => exact List.takeWhile_cons_of_neg (by simp [h b rfl])
  have htake : (digits n++rest).takeWhile isDigit = digits n := by
    rw [List.takeWhile_append_of_pos hdigits, hstop, List.append_nil]
  cases hd : digits n with
  | nil => exact absurd hd (digits_ne_nil n)
  | cons b s =>
    rw [hd] at htake hdigits
    obtain ⟨hspace, hminus, hplus, -⟩ := digit_no_sign (hdigits b (List.mem_cons_self ..))
    rw [List.cons_append] at htake ⊢
    simp only [atoi, List.dropWhile_cons, hspace, Bool.false_eq_true, if_false, if_neg hminus,
      if_neg hplus, htake]
    rw [← hd, number_digits]

theorem decimal_natCast (n : ℕ) : decimal n = digits n := by
  simp [decimal]

theorem atoi_decimal (z : ℤ) : atoi (decimal z) = z := by
  by_cases hz : z < 0
  · have htake : (digits z.natAbs).takeWhile isDigit = digits z.natAbs :=
      List.takeWhile_eq_self_iff.mpr (digits_isDigit _)
    have hneg : atoi (45::digits z.natAbs) = -(number ((digits z.natAbs).takeWhile isDigit)) := rfl
    rw [decimal, if_pos hz, hneg, htake, number_digits]
    omega
  · rw [decimal, if_neg hz, atoi_digits]
    omega

variable {delim : Text}

def Continues (delim : Text) : Text → Prop
  | [] => False
  | b::_ => b ∉ delim

instance (delim s : Text) : Decidable (Continues delim s) :=
  match s with
  | [] => inferInstanceAs (Decidable False)
  | b::_ => inferInstanceAs (Decidable (b ∉ delim))

def words (delim : Text) : Text → List Text
  | [] => []
  | b::s =>
    if b ∈ delim then words delim s
    else if Continues delim s then (words delim s).modifyHead (b::·)
    else [b]::words delim s

theorem words_continues {s : Text} (h : Continues delim s) :
    words delim s = s.takeWhile (· ∉ delim)::words delim (s.dropWhile (· ∉ delim)) := by
  induction s with
  | nil => exact absurd h id
  | cons b s ih =>
    have hb : b ∉ delim := h
    have htake : (b::s).takeWhile (· ∉ delim) = b::s.takeWhile (· ∉ delim) := by simp [hb]
    have hdrop : (b::s).dropWhile (· ∉ delim) = s.dropWhile (· ∉ delim) := by simp [hb]
    rw [htake, hdrop, words, if_neg hb]
    by_cases hs : Continues delim s
    · rw [if_pos hs, ih hs]
      rfl
    · rw [if_neg hs]
      cases s with
      | nil => rfl
      | cons c s =>
        have hc : c ∈ delim := not_not.mp hs
        simp [hc]

theorem words_delim {b : UInt8} (hb : b ∈ delim) (s : Text) :
    words delim (b::s) = words delim s := by
  rw [words, if_pos hb]

theorem words_skip (s : Text) : words delim (s.dropWhile (· ∈ delim)) = words delim s := by
  induction s with
  | nil => rfl
  | cons b s ih =>
    by_cases hb : b ∈ delim
    · rw [words_delim hb, ← ih]
      simp [hb]
    · simp [hb]

theorem words_strtok (s : Text) : words delim s = match strtok delim s with
    | none => []
    | some (token, rest) => token::words delim rest := by
  rw [← words_skip, strtok]
  cases h : s.dropWhile (· ∈ delim) with
  | nil => rfl
  | cons b rest =>
    have hb : Continues delim (b::rest) := by
      have hhead := List.head?_dropWhile_not (p := (· ∈ delim)) (l := s)
      rw [h] at hhead
      simpa [Continues] using hhead
    rw [words_continues hb]
    simp only [List.cons.injEq, true_and]
    cases hrest : (b::rest).dropWhile (· ∉ delim) with
    | nil => rfl
    | cons c tail =>
      have hhead := List.head?_dropWhile_not (p := (· ∉ delim)) (l := b::rest)
      rw [hrest] at hhead
      exact words_delim (by simpa using hhead) tail

theorem strtok_nil : strtok delim [] = none := rfl

theorem decide_delim {token : Text} (ht : ∀ b ∈ token, b ∉ delim) :
    ∀ b ∈ token, (!decide (b ∈ delim)) = true := by
  simpa using ht

theorem strtok_token {token : Text} (hne : token ≠ []) (ht : ∀ b ∈ token, b ∉ delim)
    {d : UInt8} (hd : d ∈ delim) (s : Text) : strtok delim (token++d::s) = some (token, s) := by
  cases token with
  | nil => exact absurd rfl hne
  | cons b token =>
    rw [List.forall_mem_cons] at ht
    have hall := decide_delim ht.2
    simp [strtok, ht.1, List.takeWhile_append_of_pos hall, List.dropWhile_append_of_pos hall, hd]

theorem strtok_last {token : Text} (hne : token ≠ []) (ht : ∀ b ∈ token, b ∉ delim) :
    strtok delim token = some (token, []) := by
  cases token with
  | nil => exact absurd rfl hne
  | cons b token =>
    rw [List.forall_mem_cons] at ht
    have hall := decide_delim ht.2
    simpa [strtok, ht.1, List.dropWhile_eq_nil_iff.mpr hall] using ht.2

theorem strtok_shorter {s token rest : Text} (h : strtok delim s = some (token, rest)) :
    rest.length < s.length := by
  have hsub := (List.dropWhile_sublist (l := s) (p := (· ∈ delim))).length_le
  rw [strtok] at h
  cases hs : s.dropWhile (· ∈ delim) with
  | nil =>
    rw [hs] at h
    cases h
  | cons b tail =>
    rw [hs] at h hsub
    have hb : b ∉ delim := by
      have hhead := List.head?_dropWhile_not (p := (· ∈ delim)) (l := s)
      rw [hs] at hhead
      simpa using hhead
    simp only [hb, not_false_eq_true, decide_true, List.dropWhile_cons_of_pos, Option.some.injEq,
      Prod.mk.injEq] at h
    have hle := (List.dropWhile_sublist (l := tail) (p := (· ∉ delim))).length_le
    rw [← h.2, List.length_tail]
    rw [List.length_cons] at hsub
    omega

theorem tokens_eq_words (s : Text) : tokens delim s = words delim s := by
  have hfuel : ∀ fuel (s : Text), s.length ≤ fuel → tokensIn delim fuel s = words delim s := by
    intro fuel
    induction fuel with
    | zero =>
      intro s hs
      rw [List.length_eq_zero_iff.mp (Nat.le_zero.mp hs)]
      rfl
    | succ fuel ih =>
      intro s hs
      rw [words_strtok, tokensIn]
      cases h : strtok delim s with
      | none => rfl
      | some found =>
        have hlt := strtok_shorter h
        exact congrArg (found.1::·) (ih found.2 (by omega))
  exact hfuel s.length s (Nat.le_refl _)

theorem words_eq_nil {s : Text} : words delim s = [] ↔ ∀ b ∈ s, b ∈ delim := by
  induction s with
  | nil => simp [words]
  | cons b s ih =>
    rw [List.forall_mem_cons, words]
    by_cases hb : b ∈ delim
    · rw [if_pos hb, ih, and_iff_right hb]
    · rw [if_neg hb]
      by_cases hs : Continues delim s
      · rw [if_pos hs, words_continues hs]
        simp [hb]
      · rw [if_neg hs]
        simp [hb]

def Joint (delim a b : Text) : Prop := (∃ x ∈ a.getLast?, x ∉ delim) ∧ Continues delim b

theorem words_append {a b : Text} (h : ¬ Joint delim a b) :
    words delim (a++b) = words delim a++words delim b := by
  induction a with
  | nil => rfl
  | cons x a ih =>
    by_cases hx : x ∈ delim
    · rw [List.cons_append, words_delim hx, words_delim hx]
      cases a with
      | nil => rfl
      | cons y a => exact ih h
    · cases a with
      | nil =>
        have hb : ¬ Continues delim b := fun hb => h ⟨⟨x, rfl, hx⟩, hb⟩
        have hnil : ¬ Continues delim [] := id
        simp only [List.cons_append, List.nil_append, words, if_neg hx, if_neg hb, if_neg hnil]
      | cons y a =>
        have hjoin := ih h
        rw [List.cons_append, words, words, if_neg hx, if_neg hx, hjoin]
        by_cases hy : Continues delim (y::a)
        · rw [if_pos hy, if_pos (show Continues delim (y::a++b) from hy), words_continues hy]
          rfl
        · rw [if_neg hy, if_neg (show ¬ Continues delim (y::a++b) from hy)]
          rfl

theorem words_joint {a b : Text} (h : Joint delim a b) :
    (words delim (a++b)).length+1 = (words delim a).length+(words delim b).length := by
  induction a with
  | nil =>
    obtain ⟨⟨x, hx, -⟩, -⟩ := h
    cases hx
  | cons x a ih =>
    cases a with
    | nil =>
      obtain ⟨⟨y, hy, hx⟩, hb⟩ := h
      obtain rfl : x = y := by simpa using hy
      have hnil : ¬ Continues delim [] := id
      simp only [List.cons_append, List.nil_append, words, if_neg hx, if_pos hb, if_neg hnil,
        List.length_modifyHead, List.length_singleton]
      omega
    | cons y a =>
      have hlength := ih h
      by_cases hx : x ∈ delim
      · rwa [List.cons_append, words_delim hx, words_delim hx]
      · rw [List.cons_append, words, words, if_neg hx, if_neg hx]
        by_cases hy : Continues delim (y::a)
        · rw [if_pos hy, if_pos (show Continues delim (y::a++b) from hy), List.length_modifyHead,
            List.length_modifyHead]
          exact hlength
        · rw [if_neg hy, if_neg (show ¬ Continues delim (y::a++b) from hy)]
          simp only [List.length_cons] at hlength ⊢
          omega

theorem words_token {token : Text} (hne : token ≠ []) (ht : ∀ b ∈ token, b ∉ delim) {d : UInt8}
    (hd : d ∈ delim) (s : Text) : words delim (token++d::s) = token::words delim s := by
  have hcontinues : Continues delim (token++d::s) := by
    cases token with
    | nil => exact absurd rfl hne
    | cons b token => exact ht b (List.mem_cons_self ..)
  have hall : ∀ b ∈ token, decide (b ∉ delim) = true := fun b hb => decide_eq_true (ht b hb)
  rw [words_continues hcontinues, List.takeWhile_append_of_pos hall,
    List.dropWhile_append_of_pos hall]
  simp [hd, words_delim hd]

theorem words_last {token : Text} (hne : token ≠ []) (ht : ∀ b ∈ token, b ∉ delim) :
    words delim token = [token] := by
  rw [words_strtok, strtok_last hne ht]
  rfl

end Semestr4.DecimalText
