import Mathlib.Data.List.Basic

/-!
# Descriptor tables

A process refers to what it has open by small numbers. A new descriptor takes
the lowest number that is free. Duplicating onto a number replaces what was
open there, and a fork copies the whole table.
-/

set_option autoImplicit false

namespace Semestr4.DescriptorTable

variable {ο : Type*}

/-- The descriptors in use, with `none` where one was closed. -/
abbrev Table (ο : Type*) := List (Option ο)

def look (t : Table ο) (fd : ℕ) : Option ο := (t[fd]?).join

def put (t : Table ο) (fd : ℕ) (x : Option ο) : Table ο :=
  (t++List.replicate (fd+1-t.length) none).set fd x

def lowest (t : Table ο) : ℕ := (t.findIdx? Option.isNone).getD t.length

def allocate (t : Table ο) (x : ο) : Table ο × ℕ := (put t (lowest t) (some x), lowest t)

def close (t : Table ο) (fd : ℕ) : Table ο := put t fd none

/-- Duplicating a closed descriptor changes nothing. -/
def dup2 (t : Table ο) (old new : ℕ) : Table ο :=
  match look t old with
  | none => t
  | some x => put t new (some x)

def pipe (t : Table ο) (read write : ο) : Table ο × (ℕ × ℕ) :=
  let (t', r) := allocate t read
  let (t'', w) := allocate t' write
  (t'', (r, w))

def Holds (t : Table ο) (x : ο) : Prop := ∃ fd, look t fd = some x

theorem look_put (t : Table ο) (fd : ℕ) (x : Option ο) (i : ℕ) :
    look (put t fd x) i = if i = fd then x else look t i := by
  unfold look put
  rw [List.getElem?_set]
  by_cases h : fd = i
  · subst h
    have hlen : fd < (t++List.replicate (fd+1-t.length) none).length := by
      simp
      omega
    rw [if_pos rfl, if_pos hlen, if_pos rfl]
    rfl
  · rw [if_neg h, if_neg (Ne.symm h), List.getElem?_append]
    split
    · rfl
    · rename_i hi
      rw [List.getElem?_eq_none (Nat.le_of_not_lt hi), List.getElem?_replicate]
      split <;> rfl

theorem look_close (t : Table ο) (fd i : ℕ) :
    look (close t fd) i = if i = fd then none else look t i :=
  look_put t fd none i

theorem look_dup2 {t : Table ο} {old : ℕ} {x : ο} (h : look t old = some x) (new i : ℕ) :
    look (dup2 t old new) i = if i = new then some x else look t i := by
  simp only [dup2, h]
  exact look_put t new (some x) i

/-- Nothing was closed, so that a new descriptor comes after all others. -/
def Full (t : Table ο) : Prop := ∀ x ∈ t, x ≠ none

theorem Full.lowest {t : Table ο} (h : Full t) : lowest t = t.length := by
  have hf : t.findIdx? Option.isNone = none := by
    rw [List.findIdx?_eq_none_iff]
    intro x hx
    cases x with
    | none => exact absurd rfl (h none hx)
    | some x => rfl
  rw [DescriptorTable.lowest, hf]
  rfl

theorem Full.allocate {t : Table ο} (h : Full t) (x : ο) :
    allocate t x = (t++[some x], t.length) := by
  simp [DescriptorTable.allocate, h.lowest, put]

theorem Full.append {t : Table ο} (h : Full t) (xs : List ο) : Full (t++xs.map some) := by
  intro x hx
  rcases List.mem_append.mp hx with hx | hx
  · exact h x hx
  · obtain ⟨y, -, rfl⟩ := List.mem_map.mp hx
    exact Option.some_ne_none y

theorem Full.pipe {t : Table ο} (h : Full t) (read write : ο) :
    pipe t read write = (t++[some read, some write], (t.length, t.length+1)) := by
  have hw := (h.append [read]).allocate write
  simp only [List.map_cons, List.map_nil] at hw
  simp [DescriptorTable.pipe, h.allocate read, hw]

theorem look_append (t u : Table ο) (i : ℕ) :
    look (t++u) i = if i < t.length then look t i else look u (i-t.length) := by
  unfold look
  rw [List.getElem?_append]
  split <;> rfl

end Semestr4.DescriptorTable
