import Mathlib.Data.Int.ModEq
import Mathlib.Logic.Function.Basic
import Mathlib.Tactic.Ring

/-!
# Cyclic arrays

Cells are addressed by integers and used modulo a capacity. The contents of a
region are read from a start position, wrapping at the capacity. Storing behind
the region extends the contents at the back, advancing the start drops the front.
-/

set_option autoImplicit false

namespace Semestr4.CircularBuffer

variable {α : Type*}

def contents (cells : ℤ → α) (cap pos : ℤ) (n : ℕ) : List α :=
  (List.range n).map fun i : ℕ => cells ((pos+i) % cap)

/-- The wrap-around of C code: increment, and reset when the capacity is hit. -/
def advance (cap pos : ℤ) : ℤ := if pos+1 = cap then 0 else pos+1

@[simp] theorem contents_zero (cells : ℤ → α) (cap pos : ℤ) : contents cells cap pos 0 = [] := rfl

@[simp] theorem contents_length (cells : ℤ → α) (cap pos : ℤ) (n : ℕ) :
    (contents cells cap pos n).length = n := by
  simp [contents]

theorem advance_mod (cap pos : ℤ) (h0 : 0 ≤ pos) (h1 : pos < cap) :
    advance cap pos = (pos+1) % cap := by
  unfold advance
  split
  · rename_i h
    rw [h, Int.emod_self]
  · exact (Int.emod_eq_of_lt (by omega) (by omega)).symm

theorem advance_nonneg (cap pos : ℤ) (h0 : 0 ≤ pos) : 0 ≤ advance cap pos := by
  unfold advance
  split <;> omega

theorem advance_lt (cap pos : ℤ) (h1 : pos < cap) (hc : 0 < cap) : advance cap pos < cap := by
  unfold advance
  split <;> omega

theorem contents_congr (cells : ℤ → α) (cap pos pos' : ℤ) (n : ℕ) (h : pos % cap = pos' % cap) :
    contents cells cap pos n = contents cells cap pos' n := by
  apply List.map_congr_left
  intro i _
  have hi : (pos+i) % cap = (pos'+i) % cap := Int.ModEq.add_right _ h
  rw [hi]

theorem contents_succ (cells : ℤ → α) (cap pos : ℤ) (n : ℕ) :
    contents cells cap pos (n+1) = cells (pos % cap) :: contents cells cap (pos+1) n := by
  simp only [contents, List.range_succ_eq_map, List.map_cons, List.map_map]
  congr 1
  · simp
  · apply List.map_congr_left
    intro i _
    simp only [Function.comp_apply, Nat.succ_eq_add_one, Nat.cast_add, Nat.cast_one]
    rw [show pos+((i:ℤ)+1) = pos+1+i by ring]

theorem contents_snoc (cells : ℤ → α) (cap pos : ℤ) (n : ℕ) :
    contents cells cap pos (n+1) = contents cells cap pos n ++ [cells ((pos+n) % cap)] := by
  simp [contents, List.range_succ]

theorem offset_injective (cap pos i j : ℤ) (hi : 0 ≤ i) (hj : 0 ≤ j) (hic : i < cap) (hjc : j < cap)
    (h : (pos+i) % cap = (pos+j) % cap) : i = j := by
  have hm : i % cap = j % cap := Int.ModEq.add_left_cancel' pos h
  rwa [Int.emod_eq_of_lt hi hic, Int.emod_eq_of_lt hj hjc] at hm

theorem contents_update_outside (cells : ℤ → α) (cap pos k : ℤ) (n : ℕ) (x : α)
    (h : ∀ i : ℕ, i < n → (pos+i) % cap ≠ k) :
    contents (Function.update cells k x) cap pos n = contents cells cap pos n := by
  apply List.map_congr_left
  intro i hi
  exact Function.update_of_ne (h i (List.mem_range.mp hi)) _ _

/-- A store just behind the region appends to its contents and overwrites none
of them while the region is shorter than the capacity. -/
theorem contents_push (cells : ℤ → α) (cap pos : ℤ) (n : ℕ) (x : α) (hn : (n:ℤ) < cap) :
    contents (Function.update cells ((pos+n) % cap) x) cap pos (n+1) =
      contents cells cap pos n ++ [x] := by
  rw [contents_snoc, Function.update_self]
  congr 1
  apply contents_update_outside
  intro i hi he
  have := offset_injective cap pos i n (by omega) (by omega) (by omega) hn he
  omega

theorem contents_pop (cells : ℤ → α) (cap pos : ℤ) (n : ℕ) (x : α)
    (h0 : 0 ≤ pos) (h1 : pos < cap) (hn : (n:ℤ) < cap) :
    contents cells cap pos (n+1) =
      cells pos :: contents (Function.update cells pos x) cap (advance cap pos) n := by
  rw [contents_succ, Int.emod_eq_of_lt h0 h1]
  have hp : advance cap pos % cap = (pos+1) % cap := by
    rw [advance_mod cap pos h0 h1, Int.emod_emod_of_dvd _ (dvd_refl cap)]
  rw [contents_congr _ cap (advance cap pos) (pos+1) n hp]
  rw [contents_update_outside]
  intro i hi he
  have h2 : (pos+((i:ℤ)+1)) % cap = (pos+0) % cap := by
    rw [add_zero, Int.emod_eq_of_lt h0 h1, ← add_assoc, add_right_comm, he]
  have := offset_injective cap pos (i+1) 0 (by omega) (by omega) (by omega) (by omega) h2
  omega

theorem behind_push (cap pos n : ℤ) (p : ℤ) (hc : 0 < cap) (hp : p = (pos+n) % cap) :
    advance cap p = (pos+(n+1)) % cap := by
  have h0 : 0 ≤ p := hp ▸ Int.emod_nonneg _ (by omega)
  have h1 : p < cap := hp ▸ Int.emod_lt_of_pos _ hc
  rw [advance_mod cap p h0 h1, hp, Int.emod_add_emod, add_assoc]

theorem behind_pop (cap pos n : ℤ) (h0 : 0 ≤ pos) (h1 : pos < cap) :
    (advance cap pos+(n-1)) % cap = (pos+n) % cap := by
  rw [advance_mod cap pos h0 h1, Int.emod_add_emod]
  congr 1
  ring

end Semestr4.CircularBuffer
