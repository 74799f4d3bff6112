import Mathlib.Data.List.AList

/-!
# Entries of a map that a relation keeps apart

A symmetric relation on the entries of a finite map identifies its keys when it
holds of no two different entries. Adding an entry unrelated to all others keeps
this, and so does replacing a value by one with no further relations.
-/

set_option autoImplicit false

namespace Semestr4.UniqueKeys

variable {κ ν : Type*} [DecidableEq κ]

abbrev Map (κ ν : Type*) := AList (fun _ : κ => ν)

def Identifies (R : κ → ν → κ → ν → Prop) (m : Map κ ν) : Prop :=
  ∀ k v l w, m.lookup k = some v → m.lookup l = some w → R k v l w → k = l

def Everywhere (P : ν → Prop) (m : Map κ ν) : Prop := ∀ k v, m.lookup k = some v → P v

theorem lookup_insert_cases {m : Map κ ν} {k l : κ} {v w : ν}
    (h : (m.insert k v).lookup l = some w) :
    (l = k ∧ w = v) ∨ (l ≠ k ∧ m.lookup l = some w) := by
  by_cases hl : l = k
  · subst hl
    rw [AList.lookup_insert, Option.some.injEq] at h
    exact Or.inl ⟨rfl, h.symm⟩
  · rw [AList.lookup_insert_ne hl] at h
    exact Or.inr ⟨hl, h⟩

theorem mem_entries {m : Map κ ν} {e : Sigma (fun _ : κ => ν)} :
    e ∈ m.entries ↔ m.lookup e.1 = some e.2 := by
  rw [← Option.mem_def, AList.mem_lookup_iff]

theorem perm_of_lookup {m n : Map κ ν} (h : ∀ k, m.lookup k = n.lookup k) :
    m.entries.Perm n.entries := by
  apply List.lookup_ext m.nodupKeys n.nodupKeys
  intro k v
  change v ∈ m.lookup k ↔ v ∈ n.lookup k
  rw [h]

theorem insert_restored {m : Map κ ν} {k : κ} {u v : ν} (h : m.lookup k = some v) :
    ((m.insert k u).insert k v).entries.Perm m.entries := by
  apply perm_of_lookup
  intro l
  by_cases hl : l = k
  · rw [hl, AList.lookup_insert, h]
  · rw [AList.lookup_insert_ne hl, AList.lookup_insert_ne hl]

theorem everywhere_empty (P : ν → Prop) : Everywhere P (∅ : Map κ ν) := by
  intro k v h
  simp at h

theorem everywhere_insert {P : ν → Prop} {m : Map κ ν} {k : κ} {v : ν} (hm : Everywhere P m)
    (hv : P v) : Everywhere P (m.insert k v) := by
  intro l w h
  rcases lookup_insert_cases h with ⟨-, rfl⟩ | ⟨-, h⟩
  · exact hv
  · exact hm l w h

theorem everywhere_perm {P : ν → Prop} {m n : Map κ ν} (h : m.entries.Perm n.entries)
    (hm : Everywhere P m) : Everywhere P n := by
  intro k v hk
  rw [← AList.perm_lookup h] at hk
  exact hm k v hk

section
variable {R : κ → ν → κ → ν → Prop}

theorem identifies_empty : Identifies R (∅ : Map κ ν) := by
  intro k v l w h
  simp at h

theorem identifies_perm {m n : Map κ ν} (h : m.entries.Perm n.entries) (hm : Identifies R m) :
    Identifies R n := by
  intro k v l w hk hl hR
  rw [← AList.perm_lookup h] at hk hl
  exact hm k v l w hk hl hR

theorem identifies_insert (symm : ∀ k v l w, R k v l w → R l w k v) {m : Map κ ν} {k : κ} {v : ν}
    (hm : Identifies R m) (hnew : ∀ l w, l ≠ k → m.lookup l = some w → ¬ R k v l w) :
    Identifies R (m.insert k v) := by
  intro a x b y ha hb hR
  rcases lookup_insert_cases ha with ⟨hak, hx⟩ | ⟨hak, ha⟩
  · rcases lookup_insert_cases hb with ⟨hbk, -⟩ | ⟨hbk, hb⟩
    · exact hak.trans hbk.symm
    · rw [hak, hx] at hR
      exact absurd hR (hnew b y hbk hb)
  · rcases lookup_insert_cases hb with ⟨hbk, hy⟩ | ⟨-, hb⟩
    · rw [hbk, hy] at hR
      exact absurd (symm a x k v hR) (hnew a x hak ha)
    · exact hm a x b y ha hb hR

theorem unrelated_update {m : Map κ ν} {k : κ} {u v : ν} (hm : Identifies R m)
    (hk : m.lookup k = some u) (hsame : ∀ l w, R k v l w → R k u l w) (l : κ) (w : ν)
    (hlk : l ≠ k) (hl : m.lookup l = some w) : ¬ R k v l w := by
  intro hR
  exact hlk (hm k u l w hk hl (hsame l w hR)).symm

theorem identifies_pairwise {m : Map κ ν} (hm : Identifies R m) :
    m.entries.Pairwise fun a b => ¬ R a.1 a.2 b.1 b.2 := by
  have hkeys : m.entries.Pairwise fun a b => a.1 ≠ b.1 := List.nodupKeys_iff_pairwise.mp m.nodupKeys
  refine hkeys.imp_of_mem ?_
  intro a b ha hb hne hR
  exact hne (hm a.1 a.2 b.1 b.2 (mem_entries.mp ha) (mem_entries.mp hb) hR)

end

theorem filter_length_le_one {α : Type*} {R : α → α → Prop} {p : α → Bool} {l : List α}
    (hl : l.Pairwise fun a b => ¬ R a b) (hp : ∀ a b, p a → p b → R a b) :
    (l.filter p).length ≤ 1 := by
  have hf := hl.filter p
  cases h : l.filter p with
  | nil => exact Nat.zero_le 1
  | cons a rest =>
    cases rest with
    | nil => exact Nat.le_refl 1
    | cons b rest =>
      rw [h] at hf
      have hab : ¬ R a b := (List.pairwise_cons.mp hf).1 b (List.mem_cons_self ..)
      have ha : a ∈ l.filter p := by simp [h]
      have hb : b ∈ l.filter p := by simp [h]
      exact absurd (hp a b (List.mem_filter.mp ha).2 (List.mem_filter.mp hb).2) hab

theorem filter_eq_singleton {α : Type*} {p : α → Bool} {l : List α} {a : α}
    (hlen : (l.filter p).length ≤ 1) (ha : a ∈ l) (hp : p a) : l.filter p = [a] := by
  have hmem : a ∈ l.filter p := List.mem_filter.mpr ⟨ha, hp⟩
  cases h : l.filter p with
  | nil => simp [h] at hmem
  | cons b rest =>
    rw [h] at hlen hmem
    obtain rfl : rest = [] := List.length_eq_zero_iff.mp (by simpa using hlen)
    rw [List.mem_singleton.mp hmem]

end Semestr4.UniqueKeys
