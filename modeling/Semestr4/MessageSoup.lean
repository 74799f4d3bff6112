import Mathlib.Data.Multiset.AddSub
import Mathlib.Data.Multiset.Filter

/-!
# Messages without order

Messages under way are a multiset: they arrive in any order or not at all, but not
twice. Each of them may still yield a value. What was taken and what can still be
yielded stays within what was granted, whoever sends a message on.
-/

set_option autoImplicit false

namespace Semestr4.MessageSoup

variable {μ β : Type*} {yields : μ → Option β} {soup : Multiset μ}
variable {taken granted : Multiset β} {m m' : μ} {b : β}

def Covered (yields : μ → Option β) (soup : Multiset μ) (taken granted : Multiset β) : Prop :=
  taken+soup.filterMap yields ≤ granted

namespace Covered

theorem start (yields : μ → Option β) : Covered yields 0 0 0 := by
  rw [Covered, Multiset.filterMap_zero, Multiset.zero_add]

theorem bounded (h : Covered yields soup taken granted) : taken ≤ granted :=
  (Multiset.le_add_right _ _).trans h

theorem grant (h : Covered yields soup taken granted) (b : β) :
    Covered yields soup taken (b::ₘgranted) :=
  h.trans (Multiset.le_cons_self _ _)

theorem post (h : Covered yields soup taken granted) (hm : yields m = none) :
    Covered yields (m::ₘsoup) taken granted := by
  rwa [Covered, Multiset.filterMap_cons_none _ _ hm]

theorem send (h : Covered yields soup taken granted) (hm : yields m = some b) :
    Covered yields (m::ₘsoup) taken (b::ₘgranted) := by
  rw [Covered, Multiset.filterMap_cons_some _ _ _ hm, Multiset.add_cons]
  exact Multiset.cons_le_cons b h

variable [DecidableEq μ]

theorem lose (h : Covered yields soup taken granted) (m : μ) :
    Covered yields (soup.erase m) taken granted := by
  have hless := Multiset.filterMap_le_filterMap yields (Multiset.erase_le m soup)
  exact (Multiset.add_le_add_iff_left.mpr hless).trans h

theorem relay (h : Covered yields soup taken granted) (hmem : m ∈ soup)
    (hm : yields m' = yields m) : Covered yields (m'::ₘsoup.erase m) taken granted := by
  rw [Covered, ← Multiset.cons_erase hmem, Multiset.filterMap_cons] at h
  rwa [Covered, Multiset.filterMap_cons, hm]

theorem take (h : Covered yields soup taken granted) (hmem : m ∈ soup) (hm : yields m = some b) :
    Covered yields (soup.erase m) (b::ₘtaken) granted := by
  rw [Covered, ← Multiset.cons_erase hmem, Multiset.filterMap_cons_some _ _ _ hm,
    Multiset.add_cons] at h
  rwa [Covered, Multiset.cons_add]

end Covered

end Semestr4.MessageSoup
