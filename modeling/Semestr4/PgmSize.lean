import Semestr4.PgmFile

/-!
# The line with the size of the image

The size is read correctly as long as its line fits the buffer of ten bytes.
When the line fills it without the newline, the newline is taken for the next
line. A longer line loses digits of the height, or all of it.
-/

set_option autoImplicit false

namespace Semestr4.PgmSize
open Semestr4.ByteText Semestr4.DecimalText Semestr4.LineBuffer Semestr4.PgmFile

variable {width height : ℕ}

theorem gets_ended (size : ℕ) (buffer : Text) {t : Text} (h : Ended t) (hne : t ≠ []) (hz : 0 ∉ t)
    (rest : Text) : ∃ filled, gets size buffer (t++rest) = (filled, t.drop (size-1)++rest) ∧
      cstring filled = t.take (size-1) := by
  refine ⟨_, by rw [gets, fgets_ended h hne], ?_⟩
  have hnonzero : 0 ∉ t.take (size-1) := fun h0 => hz (List.mem_of_mem_take h0)
  rw [cstring_append hnonzero]
  exact List.append_nil _

theorem digits_not {d : UInt8} (hd : isDigit d = false) (n : ℕ) : d ∉ digits n := by
  intro h
  have := digits_isDigit n d h
  rw [hd] at this
  cases this

theorem writeSize_eq : writeSize width height = digits width++space::(digits height++[newline]) := by
  simp [writeSize, decimal_natCast]

variable (width height) in
theorem ended_size : Ended (writeSize width height) := by
  have hbody : newline ∉ digits width++space::digits height := by
    rw [List.mem_append, List.mem_cons, not_or, not_or]
    exact ⟨digits_not rfl _, by decide, digits_not rfl _⟩
  have := ended_line hbody
  rwa [List.append_assoc, List.cons_append, ← writeSize_eq] at this

variable (width height) in
theorem size_no_zero : 0 ∉ writeSize width height := by
  rw [writeSize_eq, List.mem_append, List.mem_cons, List.mem_append, not_or, not_or, not_or]
  exact ⟨digits_not rfl _, by decide, digits_not rfl _, by decide⟩

variable (width height) in
theorem size_ne_nil : writeSize width height ≠ [] := by
  simp [writeSize]

variable (width height) in
theorem parseSize_written (rest : Text) :
    ∃ buffer, parseSize ([80, 50, newline]++(writeSize width height++rest)) =
      (strtok [space] ((writeSize width height).take 9)).bind fun (w, more) =>
        (strtok [newline] more).map fun (h, _) =>
          ((atoi w, atoi h), (gets 10 buffer ((writeSize width height).drop 9++rest)).2) := by
  have hmagic : Ended [80, 50, newline] := ended_line (show newline ∉ [80, 50] by decide)
  obtain ⟨first, hfirst, -⟩ := gets_ended 10 (List.replicate 10 0) hmagic (by decide) (by decide)
    (writeSize width height++rest)
  obtain ⟨second, hsecond, hline⟩ := gets_ended 10 first (ended_size width height)
    (size_ne_nil width height) (size_no_zero width height) rest
  refine ⟨second, ?_⟩
  change gets 10 (List.replicate 10 0) _ = (first, writeSize width height++rest) at hfirst
  change gets 10 first _ = (second, (writeSize width height).drop 9++rest) at hsecond
  change cstring second = (writeSize width height).take 9 at hline
  rw [parseSize]
  simp only [hfirst, hsecond, hline]
  cases strtok [space] ((writeSize width height).take 9) with
  | none => rfl
  | some found =>
    obtain ⟨w, more⟩ := found
    dsimp only [Option.bind_some]
    cases strtok [newline] more <;> rfl

theorem digits_token {d : UInt8} (hd : isDigit d = false) (n : ℕ) :
    ∀ b ∈ digits n, b ∉ [d] := by
  intro b hb hbd
  rw [List.mem_singleton] at hbd
  exact digits_not hd n (hbd ▸ hb)

theorem width_token (h : (digits width).length ≤ 8) :
    strtok [space] ((writeSize width height).take 9) =
      some (digits width, (digits height++[newline]).take (8-(digits width).length)) := by
  have htake : (writeSize width height).take 9 =
      digits width++space::(digits height++[newline]).take (8-(digits width).length) := by
    rw [writeSize_eq, List.take_append, List.take_of_length_le (by omega),
      show 9-(digits width).length = 8-(digits width).length+1 by omega, List.take_succ_cons]
  rw [htake]
  exact strtok_token (digits_ne_nil width) (digits_token rfl width) (List.mem_singleton_self _) _

theorem digits_pos (n : ℕ) : 0 < (digits n).length := List.length_pos_of_ne_nil (digits_ne_nil n)

theorem size_fits (h : (writeSize width height).length ≤ 9) (rest : Text) :
    parseSize ([80, 50, newline]++(writeSize width height++([50, 53, 53, newline]++rest))) =
      some (((width : ℤ), (height : ℤ)), rest) := by
  obtain ⟨buffer, hparse⟩ := parseSize_written width height
    ([50, 53, 53, newline]++rest)
  have hlength := h
  rw [writeSize_eq, List.length_append, List.length_cons, List.length_append,
    List.length_singleton] at hlength
  have hmax : Ended [50, 53, 53, newline] := ended_line (show newline ∉ [50, 53, 53] by decide)
  obtain ⟨filled, hgets, -⟩ := gets_ended 10 buffer hmax (by decide) (by decide) rest
  change gets 10 buffer _ = (filled, rest) at hgets
  have hheight : strtok [newline] ((digits height++[newline]).take (8-(digits width).length)) =
      some (digits height, []) := by
    rw [List.take_of_length_le (by simp; omega)]
    exact strtok_token (digits_ne_nil height) (digits_token rfl height)
      (List.mem_singleton_self _) []
  rw [hparse, width_token (by omega), List.drop_of_length_le h, List.nil_append]
  simp only [Option.bind_some, Option.map_some, hheight, hgets, atoi_digits]

theorem size_fills (h : (writeSize width height).length = 10) (rest : Text) :
    parseSize ([80, 50, newline]++(writeSize width height++rest)) =
      some (((width : ℤ), (height : ℤ)), rest) := by
  obtain ⟨buffer, hparse⟩ := parseSize_written width height rest
  have hlength := h
  rw [writeSize_eq, List.length_append, List.length_cons, List.length_append,
    List.length_singleton] at hlength
  have hpos := digits_pos height
  have hlast : (writeSize width height).drop 9 = [newline] := by
    rw [writeSize_eq, ← List.cons_append, ← List.append_assoc,
      List.drop_append_of_le_length (by simp; omega), List.drop_of_length_le (by simp; omega)]
    rfl
  obtain ⟨filled, hgets, -⟩ := gets_ended 10 buffer
    (ended_line (show newline ∉ [] by decide)) (by decide) (by decide) rest
  change gets 10 buffer ([newline]++rest) = (filled, rest) at hgets
  have hheight : strtok [newline] ((digits height++[newline]).take (8-(digits width).length)) =
      some (digits height, []) := by
    rw [List.take_append_of_le_length (by omega), List.take_of_length_le (by omega)]
    exact strtok_last (digits_ne_nil height) (digits_token rfl height)
  rw [hparse, width_token (by omega), hlast]
  simp only [Option.bind_some, Option.map_some, hheight, hgets, atoi_digits]

theorem size_overflows (hh : 1 ≤ height) (h : 10 < (writeSize width height).length) {rest : Text}
    {image : ℤ × ℤ} {lines : Text}
    (hp : parseSize ([80, 50, newline]++(writeSize width height++rest)) = some (image, lines)) :
    image.2 ≠ height := by
  obtain ⟨buffer, hparse⟩ := parseSize_written width height rest
  rw [hparse] at hp
  rw [writeSize_eq, List.length_append, List.length_cons, List.length_append,
    List.length_singleton] at h
  rcases Nat.lt_trichotomy (digits width).length 8 with hwidth | hwidth | hwidth
  · -- the buffer has some digits of the height
    have hbeginning : (digits height++[newline]).take (8-(digits width).length) =
        (digits height).take (8-(digits width).length) := List.take_append_of_le_length (by omega)
    have hne : (digits height).take (8-(digits width).length) ≠ [] := by
      rw [Ne, List.take_eq_nil_iff, not_or]
      exact ⟨by omega, digits_ne_nil height⟩
    have htoken : ∀ b ∈ (digits height).take (8-(digits width).length), b ∉ [newline] :=
      fun b hb => digits_token rfl height b (List.mem_of_mem_take hb)
    have hnumber := number_beginning hh (List.take_append_drop (8-(digits width).length) _).symm
      (by rw [Ne, List.drop_eq_nil_iff]; omega)
    have hatoi := atoi_number hne fun b hb => digits_isDigit height b (List.mem_of_mem_take hb)
    rw [width_token (by omega), hbeginning] at hp
    simp only [strtok_last hne htoken, Option.bind_some, Option.map_some, Option.some.injEq,
      Prod.mk.injEq] at hp
    rw [← hp.1, hatoi]
    exact fun heq => absurd (Int.ofNat_inj.mp heq) (by omega)
  · -- the blank after the width is the last byte of the buffer
    rw [width_token (by omega), hwidth] at hp
    cases hp
  · -- the buffer has digits of the width only
    have htake : (writeSize width height).take 9 = (digits width).take 9 := by
      rw [writeSize_eq, List.take_append_of_le_length (by omega)]
    have hne : (digits width).take 9 ≠ [] := by
      rw [Ne, List.take_eq_nil_iff, not_or]
      exact ⟨by decide, digits_ne_nil width⟩
    have htoken : ∀ b ∈ (digits width).take 9, b ∉ [space] :=
      fun b hb => digits_token rfl width b (List.mem_of_mem_take hb)
    rw [htake] at hp
    simp only [strtok_last hne htoken, strtok_nil, Option.bind_some, Option.map_none] at hp
    cases hp

end Semestr4.PgmSize
