import Mathlib.Logic.Basic

/-!
# Events since the last one of a kind

A trace is a list of events. What happened since the last `x` is the part of
the trace behind it, in which `x` does not occur again.
-/

set_option autoImplicit false

namespace Semestr4.SinceLast

variable {ε : Type*} {x : ε} {es fs after : List ε}

/-- This comes behind the last `x`. -/
def Behind (x : ε) (es after : List ε) : Prop :=
  ∃ before, es = before++x::after ∧ x ∉ after

/-- Something of the kind `p` happened since the last `x`. -/
def Happened (p : ε → Prop) (x : ε) (es : List ε) : Prop :=
  ∃ after, Behind x es after ∧ ∃ e ∈ after, p e

theorem behind_snoc (x : ε) (es : List ε) : Behind x (es++[x]) [] :=
  ⟨es, rfl, List.not_mem_nil⟩

theorem Behind.append (h : Behind x es after) (hx : x ∉ fs) :
    Behind x (es++fs) (after++fs) := by
  obtain ⟨before, rfl, hafter⟩ := h
  refine ⟨before, by simp, fun hmem => ?_⟩
  rcases List.mem_append.mp hmem with hmem | hmem
  · exact hafter hmem
  · exact hx hmem

theorem Behind.unique {other : List ε} (h : Behind x es after)
    (hother : Behind x es other) : after = other := by
  obtain ⟨before, rfl, hafter⟩ := h
  obtain ⟨before', heq, hother⟩ := hother
  have hcases : ∀ {c l m : List ε}, x::l = c++x::m → x ∉ l → l = m := by
    intro c l m hc hl
    cases c with
    | nil => exact (List.cons.inj hc).2
    | cons y c =>
      rw [(List.cons.inj hc).2] at hl
      exact absurd (by simp) hl
  rcases List.append_eq_append_iff.mp heq with ⟨c, -, hc⟩ | ⟨c, -, hc⟩
  · exact hcases hc hafter
  · exact (hcases hc hother).symm

variable {p : ε → Prop}

theorem Happened.append (h : Happened p x es) (hx : x ∉ fs) : Happened p x (es++fs) := by
  obtain ⟨after, hlast, e, he, hp⟩ := h
  exact ⟨after++fs, hlast.append hx, e, List.mem_append_left fs he, hp⟩

theorem Behind.happened (h : Behind x es after) (hx : x ∉ fs) {e : ε} (he : e ∈ fs)
    (hp : p e) : Happened p x (es++fs) :=
  ⟨after++fs, h.append hx, e, List.mem_append_right after he, hp⟩

end Semestr4.SinceLast
