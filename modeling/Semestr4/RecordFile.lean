import Semestr4.SeekableFile

/-!
# Files of records

A content is cut into records of one size from its beginning on. What does not
fill a record at the end belongs to none.
-/

set_option autoImplicit false

namespace Semestr4.RecordFile
open Semestr4.ByteText Semestr4.SeekableFile

variable {size : ℕ}

def record (size : ℕ) (content : Text) (k : ℕ) : Text := (content.drop (size*k)).take size

def recordsOf (size : ℕ) (content : Text) : List Text :=
  (List.range (content.length/size)).map (record size content)

def Sized (size : ℕ) (rs : List Text) : Prop := ∀ r ∈ rs, r.length = size

theorem Sized.cons {r : Text} {rs : List Text} (hr : r.length = size) (h : Sized size rs) :
    Sized size (r::rs) := by
  intro s hs
  rcases List.mem_cons.mp hs with rfl | hs
  · exact hr
  · exact h s hs

theorem sized_append {rs ts : List Text} :
    Sized size (rs++ts) ↔ Sized size rs ∧ Sized size ts := by
  simp only [Sized, List.mem_append, or_imp, forall_and]

theorem Sized.perm {rs ts : List Text} (h : Sized size rs) (hp : ts.Perm rs) : Sized size ts :=
  fun r hr => h r (hp.mem_iff.mp hr)

theorem Sized.flatten_length {rs : List Text} (h : Sized size rs) :
    rs.flatten.length = size*rs.length := by
  induction rs with
  | nil => rfl
  | cons r rs ih =>
    have hr : r.length = size := h r (List.mem_cons_self ..)
    have hrest := ih fun s hs => h s (List.mem_cons_of_mem r hs)
    rw [List.flatten_cons, List.length_append, hr, hrest, List.length_cons, Nat.mul_succ,
      Nat.add_comm]

theorem record_flatten {rs : List Text} (h : Sized size rs) (tail : Text) {k : ℕ}
    (hk : k < rs.length) : record size (rs.flatten++tail) k = rs[k] := by
  induction rs generalizing k with
  | nil => cases hk
  | cons r rs ih =>
    have hr : r.length = size := h r (List.mem_cons_self ..)
    have hrest : Sized size rs := fun s hs => h s (List.mem_cons_of_mem r hs)
    rw [List.flatten_cons, List.append_assoc]
    cases k with
    | zero =>
      rw [record, ← hr, Nat.mul_zero, List.drop_zero, List.take_left]
      rfl
    | succ k =>
      have hlater : size*(k+1) = r.length+size*k := by rw [hr, Nat.mul_succ, Nat.add_comm]
      rw [record, hlater, List.drop_length_add_append]
      exact ih hrest (Nat.lt_of_succ_lt_succ hk)

theorem recordsOf_take (hs : 0 < size) {rs : List Text} (h : Sized size rs) (tail : Text) :
    (recordsOf size (rs.flatten++tail)).take rs.length = rs := by
  have hlen := h.flatten_length
  have hcount : rs.length ≤ (rs.flatten++tail).length/size := by
    rw [Nat.le_div_iff_mul_le hs, List.length_append, hlen, Nat.mul_comm]
    exact Nat.le_add_right _ _
  rw [recordsOf, ← List.map_take, List.take_range, Nat.min_eq_left hcount]
  apply List.ext_getElem
  · simp
  · intro k hk hk'
    rw [List.getElem_map, List.getElem_range]
    exact record_flatten h tail hk'

theorem recordsOf_flatten (hs : 0 < size) {rs : List Text} (h : Sized size rs) :
    recordsOf size rs.flatten = rs := by
  have htake := recordsOf_take hs h []
  rw [List.append_nil] at htake
  have hall : (recordsOf size rs.flatten).length = rs.length := by
    rw [recordsOf, List.length_map, List.length_range, h.flatten_length,
      Nat.mul_div_cancel_left _ hs]
  rwa [← hall, List.take_length] at htake

theorem begins_with {content : Text} {n : ℕ} (h : size*n ≤ content.length) :
    ∃ rs tail, content = rs.flatten++tail ∧ Sized size rs ∧ rs.length = n := by
  induction n generalizing content with
  | zero => exact ⟨[], content, rfl, List.forall_mem_nil _, rfl⟩
  | succ n ih =>
    rw [Nat.mul_succ] at h
    have hrest : size*n ≤ (content.drop size).length := by
      rw [List.length_drop]
      omega
    obtain ⟨rs, tail, hcontent, hsized, hlen⟩ := ih hrest
    refine ⟨content.take size::rs, tail, ?_, hsized.cons ?_, by rw [List.length_cons, hlen]⟩
    · rw [List.flatten_cons, List.append_assoc, ← hcontent, List.take_append_drop]
    · exact List.length_take_of_le (by omega)

end Semestr4.RecordFile
