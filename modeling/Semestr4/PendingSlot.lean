import Mathlib.Data.List.Perm.Lattice

/-!
# A slot for one notice

Notices that are not queued share one slot: a notice that arrives while another
one waits in the slot is lost. Each notice that was posted has been taken, waits
in the slot or is lost.
-/

set_option autoImplicit false

namespace Semestr4.PendingSlot

variable {π : Type*}

/-- The first notice stays. -/
def post (slot : Option π) (p : π) : Option π := slot.or (some p)

def lostBy (slot : Option π) (p : π) : List π := if slot.isSome then [p] else []

@[simp] theorem post_none (p : π) : post none p = some p := rfl

@[simp] theorem post_some (p q : π) : post (some p) q = some p := rfl

theorem lostBy_eq_nil {slot : Option π} {p : π} : lostBy slot p = [] ↔ slot = none := by
  cases slot <;> simp [lostBy]

/-- What became of the notices posted so far. -/
def Account (slot : Option π) (posted taken lost : List π) : Prop :=
  posted.Perm (taken++slot.toList++lost)

theorem Account.empty : Account (none : Option π) [] [] [] := List.Perm.refl []

theorem Account.post {slot : Option π} {posted taken lost : List π}
    (h : Account slot posted taken lost) (p : π) :
    Account (post slot p) (posted++[p]) taken (lost++lostBy slot p) := by
  unfold Account at h ⊢
  cases slot with
  | none =>
    simp only [post_none, lostBy, Option.isSome_none, Bool.false_eq_true, if_false,
      Option.toList_none, Option.toList_some, List.append_nil] at h ⊢
    refine (h.append_right [p]).trans ?_
    rw [List.append_assoc, List.append_assoc]
    exact List.perm_append_comm.append_left taken
  | some q =>
    simp only [post_some, lostBy, Option.isSome_some, if_true]
    rw [← List.append_assoc]
    exact h.append_right [p]

theorem Account.take {p : π} {posted taken lost : List π}
    (h : Account (some p) posted taken lost) : Account none posted (taken++[p]) lost := by
  simpa [Account] using h

theorem Account.nothing_lost {posted taken lost : List π} (h : Account none posted taken lost)
    (hposted : posted.Nodup) : (∀ p ∈ posted, p ∈ taken) ↔ lost = [] := by
  simp only [Account, Option.toList_none, List.append_nil] at h
  constructor
  · intro hall
    have hn : (taken++lost).Nodup := h.nodup_iff.mp hposted
    rw [List.eq_nil_iff_forall_not_mem]
    intro p hp
    have ht : p ∈ taken := hall p (h.mem_iff.mpr (List.mem_append_right taken hp))
    exact (List.disjoint_of_nodup_append hn) ht hp
  · rintro rfl p hp
    rw [List.append_nil] at h
    exact h.mem_iff.mp hp

end Semestr4.PendingSlot
