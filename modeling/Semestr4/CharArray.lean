import Semestr4.ByteText

/-!
# Strings in arrays of characters

An array of characters keeps its length. A string written into it ends with a
zero byte, and what stood behind stays. Reading a string goes on to the first
zero byte, so that an array without one holds no string.
-/

set_option autoImplicit false

namespace Semestr4.CharArray
open Semestr4.ByteText

structure Chars (n : ℕ) where
  bytes : Text
  size : bytes.length = n
  deriving DecidableEq

variable {n : ℕ}

def terminated (bytes : Text) : Option Text := if 0 ∈ bytes then some (cstring bytes) else none

def store (s bytes : Text) : Text := s++0::bytes.drop (s.length+1)

theorem store_length {s bytes : Text} (h : s.length < bytes.length) :
    (store s bytes).length = bytes.length := by
  simp only [store, List.length_append, List.length_cons, List.length_drop]
  omega

def zeros (n : ℕ) : Chars n := ⟨List.replicate n 0, List.length_replicate ..⟩

def Chars.string (a : Chars n) : Option Text := terminated a.bytes

/-- A copy of a string that does not fit is not defined. -/
def Chars.strcpy (a : Chars n) (s : Text) : Option (Chars n) :=
  if h : s.length < n then
    some { bytes := store s a.bytes, size := (store_length (a.size.symm ▸ h)).trans a.size }
  else none

def Chars.snprintf (a : Chars n) (s : Text) : Chars n :=
  if h : 0 < n then
    { bytes := store (s.take (n-1)) a.bytes
      size := (store_length (by rw [List.length_take, a.size]; omega)).trans a.size }
  else a

def Chars.overlay (a b : Chars n) (k : ℕ) : Chars n where
  bytes := b.bytes.take k++a.bytes.drop k
  size := by rw [List.length_append, List.length_take, List.length_drop, a.size, b.size]; omega

def Chars.set (a : Chars n) (i : ℕ) (c : UInt8) : Chars n where
  bytes := a.bytes.set i c
  size := by rw [List.length_set, a.size]

theorem terminated_append {s : Text} (h : 0 ∉ s) (rest : Text) :
    terminated (s++rest) = (terminated rest).map (s++·) := by
  simp only [terminated, List.mem_append, h, false_or, cstring_append h]
  split <;> rfl

theorem terminated_zero (rest : Text) : terminated (0::rest) = some [] := by
  simp [terminated, cstring]

theorem terminated_ended {s : Text} (h : 0 ∉ s) (rest : Text) :
    terminated (s++0::rest) = some s := by
  rw [terminated_append h, terminated_zero, Option.map_some, List.append_nil]

theorem terminated_iff {bytes s : Text} :
    terminated bytes = some s ↔ 0 ∉ s ∧ ∃ rest, bytes = s++0::rest := by
  constructor
  · intro h
    have hmem : 0 ∈ bytes := by
      by_contra hnone
      rw [terminated, if_neg hnone] at h
      cases h
    obtain ⟨before, rest, rfl, hbefore⟩ := List.eq_append_cons_of_mem hmem
    rw [terminated_ended hbefore, Option.some.injEq] at h
    exact h ▸ ⟨hbefore, rest, rfl⟩
  · rintro ⟨hs, rest, rfl⟩
    exact terminated_ended hs rest

theorem terminated_length {bytes s : Text} (h : terminated bytes = some s) :
    s.length < bytes.length := by
  obtain ⟨-, rest, rfl⟩ := terminated_iff.mp h
  simp only [List.length_append, List.length_cons]
  omega

theorem strcpy_bytes {a : Chars n} {s : Text} (h : s.length < n) :
    ∃ b, a.strcpy s = some b ∧ b.bytes = store s a.bytes :=
  ⟨_, dif_pos h, rfl⟩

theorem snprintf_bytes {a : Chars n} {s : Text} (h : s.length < n) :
    (a.snprintf s).bytes = store s a.bytes := by
  rw [Chars.snprintf, dif_pos (Nat.zero_lt_of_lt h)]
  simp only [List.take_of_length_le (show s.length ≤ n-1 by omega)]

theorem overlay_bytes (a b : Chars n) (k : ℕ) :
    (a.overlay b k).bytes = b.bytes.take k++a.bytes.drop k := rfl

theorem take_store_longer {s : Text} {k : ℕ} (h : s.length < k) (bytes : Text) :
    ∃ rest, (store s bytes).take k = s++0::rest := by
  obtain ⟨d, rfl⟩ : ∃ d, k = s.length+(d+1) := ⟨k-s.length-1, by omega⟩
  exact ⟨_, by rw [store, List.take_length_add_append, List.take_succ_cons]⟩

theorem take_store_shorter {s bytes : Text} {k : ℕ} (h : k ≤ s.length) :
    (store s bytes).take k = s.take k :=
  List.take_append_of_le_length h

theorem drop_store_shorter {s bytes : Text} {k : ℕ} (h : k ≤ s.length) :
    (store s bytes).drop k = s.drop k++0::bytes.drop (s.length+1) :=
  List.drop_append_of_le_length h

theorem overlay_longer {a b : Chars n} {s bytes : Text} {k : ℕ} (hb : b.bytes = store s bytes)
    (hs : 0 ∉ s) (h : s.length < k) : (a.overlay b k).string = some s := by
  obtain ⟨rest, hrest⟩ := take_store_longer h bytes
  rw [Chars.string, overlay_bytes, hb, hrest, List.append_assoc, List.cons_append]
  exact terminated_ended hs _

theorem overlay_shorter {a b : Chars n} {s bytes : Text} {k : ℕ} (hb : b.bytes = store s bytes)
    (hs : 0 ∉ s) (h : k ≤ s.length) :
    (a.overlay b k).string = (terminated (a.bytes.drop k)).map (s.take k++·) := by
  have hzero : 0 ∉ s.take k := fun hmem => hs (List.mem_of_mem_take hmem)
  rw [Chars.string, overlay_bytes, hb, take_store_shorter h]
  exact terminated_append hzero _

theorem overlay_both {a b : Chars n} {r s bytes bytes' : Text} {k : ℕ}
    (ha : a.bytes = store s bytes) (hs : 0 ∉ s) (hb : b.bytes = store r bytes') (hr : 0 ∉ r)
    (hks : k ≤ s.length) (hkr : k ≤ r.length) :
    (a.overlay b k).string = some (r.take k++s.drop k) := by
  have hrest : terminated (a.bytes.drop k) = some (s.drop k) := by
    rw [ha, drop_store_shorter hks]
    exact terminated_ended (fun hmem => hs (List.mem_of_mem_drop hmem)) _
  rw [overlay_shorter hb hr hkr, hrest, Option.map_some]

end Semestr4.CharArray
