import Mathlib.Data.List.TakeWhile
import Mathlib.Order.Basic

/-!
# Wholes numbered by their pieces

The items of a list are cut into pieces, most of them into one. Some pieces are
wanted, and some items; the question is when numbering the pieces finds the wanted
items at their numbers. Behind the first item that is really cut all numbers are
too large, and a wanted piece there would need another one behind itself.
-/

set_option autoImplicit false

namespace Semestr4.NumberedPieces

variable {α : Type*}

/-- Every item has a piece. Whole items are their only piece, others have more than
one, and pieces are whole. -/
structure Pieces (whole : α → Prop) (pieces : α → List α) (items : List α) : Prop where
  nonempty : ∀ x ∈ items, pieces x ≠ []
  one : ∀ x ∈ items, whole x → pieces x = [x]
  more : ∀ x ∈ items, ¬whole x → 2 ≤ (pieces x).length
  piece : ∀ x ∈ items, ∀ p ∈ pieces x, whole p

/-- The wanted pieces are the wanted items, with their numbers. -/
def Same (pieces : α → List α) (wantedPiece wantedItem : α → Prop) (items : List α) : Prop :=
  ∀ (i : ℕ) (x : α),
    (items.flatMap pieces)[i]? = some x ∧ wantedPiece x ↔ items[i]? = some x ∧ wantedItem x

section
variable {whole : α → Prop} {pieces : α → List α} {wantedPiece wantedItem : α → Prop} {x : α}
  {items : List α}

theorem Pieces.of_subset {part : List α} (h : Pieces whole pieces items) (hpart : part ⊆ items) :
    Pieces whole pieces part where
  nonempty y hy := h.nonempty y (hpart hy)
  one y hy := h.one y (hpart hy)
  more y hy := h.more y (hpart hy)
  piece y hy := h.piece y (hpart hy)

theorem Pieces.tail (h : Pieces whole pieces (x::items)) : Pieces whole pieces items :=
  h.of_subset (List.subset_cons_self ..)

theorem Pieces.length_le (h : Pieces whole pieces items) :
    items.length ≤ (items.flatMap pieces).length := by
  induction items with
  | nil => exact Nat.zero_le _
  | cons x items ih =>
    have hpos := List.length_pos_iff.mpr (h.nonempty x (List.mem_cons_self ..))
    have hrest := ih h.tail
    rw [List.flatMap_cons, List.length_append, List.length_cons]
    omega

theorem Pieces.number (h : Pieces whole pieces items) {i : ℕ} (hi : items[i]? = some x)
    (hwhole : whole x) :
    (items.flatMap pieces)[((items.take i).flatMap pieces).length]? = some x := by
  obtain ⟨hlt, hx⟩ := List.getElem?_eq_some_iff.mp hi
  have hsplit : items = items.take i++x::items.drop (i+1) := by
    rw [← hx, ← List.drop_eq_getElem_cons hlt, List.take_append_drop]
  have hflat : items.flatMap pieces = (items.take i++x::items.drop (i+1)).flatMap pieces :=
    congrArg (·.flatMap pieces) hsplit
  rw [List.flatMap_append, List.flatMap_cons, h.one x (List.mem_of_getElem? hi) hwhole] at hflat
  rw [hflat, List.getElem?_append_right (le_refl _), Nat.sub_self]
  rfl

theorem Pieces.shifted (h : Pieces whole pieces (x::items)) (hcut : ¬whole x) {i : ℕ}
    (hi : 0 < i) (hlt : i < (x::items).length) :
    i < (((x::items).take i).flatMap pieces).length := by
  obtain ⟨j, rfl⟩ := Nat.exists_eq_succ_of_ne_zero hi.ne'
  have hmore := h.more x (List.mem_cons_self ..) hcut
  have hrest := (h.tail.of_subset (List.take_subset j items)).length_le
  rw [List.length_cons] at hlt
  rw [List.length_take_of_le (by omega)] at hrest
  rw [List.take_succ_cons, List.flatMap_cons, List.length_append]
  omega

theorem Same.none_wanted (h : Pieces whole pieces (x::items)) (hcut : ¬whole x)
    (hsame : Same pieces wantedPiece wantedItem (x::items)) {i : ℕ} {p : α}
    (hp : ((x::items).flatMap pieces)[i]? = some p) : ¬wantedPiece p := by
  induction hn : ((x::items).flatMap pieces).length-i using Nat.strong_induction_on
    generalizing i with
  | _ n ih =>
    intro hwanted
    obtain ⟨hitem, -⟩ := (hsame i p).mp ⟨hp, hwanted⟩
    obtain ⟨hlt, -⟩ := List.getElem?_eq_some_iff.mp hitem
    obtain ⟨hlt', -⟩ := List.getElem?_eq_some_iff.mp hp
    obtain ⟨y, hy, hpiece⟩ := List.mem_flatMap.mp (List.mem_of_getElem? hp)
    have hwhole := h.piece y hy p hpiece
    have hpos : 0 < i := by
      rcases Nat.eq_zero_or_pos i with rfl | hpos
      · obtain rfl := Option.some_inj.mp hitem
        exact absurd hwhole hcut
      · exact hpos
    have hlarger := h.shifted hcut hpos hlt
    exact ih _ (by omega) (h.number hitem hwhole) rfl hwanted

theorem same_cons_whole (hone : pieces x = [x]) :
    Same pieces wantedPiece wantedItem (x::items) ↔
      (wantedItem x ↔ wantedPiece x) ∧ Same pieces wantedPiece wantedItem items := by
  have hcons : (x::items).flatMap pieces = x::items.flatMap pieces := by
    rw [List.flatMap_cons, hone]
    rfl
  rw [Same, hcons]
  constructor
  · intro h
    refine ⟨?_, fun i => h (i+1)⟩
    have hfirst := h 0 x
    simpa using hfirst.symm
  · rintro ⟨hfirst, hrest⟩ i y
    cases i with
    | zero =>
      simp only [List.getElem?_cons_zero, Option.some_inj]
      refine and_congr_right ?_
      rintro rfl
      exact hfirst.symm
    | succ i => exact hrest i y

theorem same_cons_cut (h : Pieces whole pieces (x::items)) (hcut : ¬whole x) :
    Same pieces wantedPiece wantedItem (x::items) ↔
      ∀ y ∈ x::items, ¬wantedItem y ∧ ∀ p ∈ pieces y, ¬wantedPiece p := by
  constructor
  · intro hsame y hy
    have hnone : ∀ p ∈ (x::items).flatMap pieces, ¬wantedPiece p := by
      intro p hp
      obtain ⟨i, hi⟩ := List.mem_iff_getElem?.mp hp
      exact hsame.none_wanted h hcut hi
    refine ⟨fun hwanted => ?_, fun p hp => hnone p (List.mem_flatMap.mpr ⟨y, hy, hp⟩)⟩
    obtain ⟨i, hi⟩ := List.mem_iff_getElem?.mp hy
    obtain ⟨hp, hwanted'⟩ := (hsame i y).mpr ⟨hi, hwanted⟩
    exact hnone y (List.mem_of_getElem? hp) hwanted'
  · intro hnone i y
    refine iff_of_false ?_ ?_
    · rintro ⟨hi, hwanted⟩
      obtain ⟨z, hz, hp⟩ := List.mem_flatMap.mp (List.mem_of_getElem? hi)
      exact (hnone z hz).2 y hp hwanted
    · rintro ⟨hi, hwanted⟩
      exact (hnone y (List.mem_of_getElem? hi)).1 hwanted

/-- Up to the first item that is cut the same are wanted, and from there on nothing. -/
theorem same_iff [DecidablePred whole] (h : Pieces whole pieces items) :
    Same pieces wantedPiece wantedItem items ↔
      (∀ y ∈ items.takeWhile (whole ·), wantedItem y ↔ wantedPiece y) ∧
        ∀ y ∈ items.dropWhile (whole ·), ¬wantedItem y ∧ ∀ p ∈ pieces y, ¬wantedPiece p := by
  induction items with
  | nil => simp [Same]
  | cons x items ih =>
    by_cases hwhole : whole x
    · have htake : (x::items).takeWhile (whole ·) = x::items.takeWhile (whole ·) :=
        List.takeWhile_cons_of_pos (by simpa using hwhole)
      have hdrop : (x::items).dropWhile (whole ·) = items.dropWhile (whole ·) :=
        List.dropWhile_cons_of_pos (by simpa using hwhole)
      rw [same_cons_whole (h.one x (List.mem_cons_self ..) hwhole), ih h.tail, htake, hdrop,
        List.forall_mem_cons, and_assoc]
    · have htake : (x::items).takeWhile (whole ·) = [] :=
        List.takeWhile_cons_of_neg (by simpa using hwhole)
      have hdrop : (x::items).dropWhile (whole ·) = x::items :=
        List.dropWhile_cons_of_neg (by simpa using hwhole)
      rw [same_cons_cut h hwhole, htake, hdrop]
      simp

end

end Semestr4.NumberedPieces
