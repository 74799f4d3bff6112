import Mathlib.Data.List.Basic
import Mathlib.Logic.Function.Basic

/-!
# Writes of several writers to one store

A store is what a list of writes makes of an initial one. A trace tells for
each write whose it is. What a cell holds in the end depends on the writes to
it alone, so it does not depend on how the writers took turns where only one
of them writes there.
-/

set_option autoImplicit false

namespace Semestr4.SharedWrites

structure Write (κ ν : Type*) where
  cell : κ
  value : ν
  deriving DecidableEq, Repr

variable {ι κ ν : Type*}

section
variable [DecidableEq κ]

def store (init : κ → ν) (ws : List (Write κ ν)) : κ → ν :=
  ws.foldl (fun s w => Function.update s w.cell w.value) init

def hits (k : κ) (ws : List (Write κ ν)) : List (Write κ ν) := ws.filter fun w => w.cell = k

theorem store_snoc (init : κ → ν) (ws : List (Write κ ν)) (w : Write κ ν) :
    store init (ws++[w]) = Function.update (store init ws) w.cell w.value := by
  simp [store, List.foldl_append]

theorem store_untouched {init : κ → ν} {ws : List (Write κ ν)} {k : κ} (h : hits k ws = []) :
    store init ws k = init k := by
  induction ws generalizing init with
  | nil => rfl
  | cons w ws ih =>
    have hw : ¬ w.cell = k := by
      intro hk
      simp [hits, hk] at h
    have hrest : hits k ws = [] := by simpa [hits, hw] using h
    change store (Function.update init w.cell w.value) ws k = init k
    rw [ih hrest, Function.update_of_ne (Ne.symm hw)]

theorem store_once {init : κ → ν} {ws : List (Write κ ν)} {k : κ} {w : Write κ ν}
    (h : hits k ws = [w]) : store init ws k = w.value := by
  induction ws generalizing init with
  | nil => cases h
  | cons x ws ih =>
    change store (Function.update init x.cell x.value) ws k = w.value
    by_cases hx : x.cell = k
    · simp only [hits, hx, List.filter_cons, decide_true, if_true, List.cons.injEq] at h
      obtain ⟨rfl, hrest⟩ := h
      rw [store_untouched hrest, hx, Function.update_self]
    · exact ih (by simpa [hits, hx] using h)

theorem hits_nil {k : κ} {ws : List (Write κ ν)} (h : ∀ w ∈ ws, w.cell ≠ k) : hits k ws = [] := by
  simpa [hits, List.filter_eq_nil_iff] using h

theorem hits_singleton {ws : List (Write κ ν)} (h : ws.Pairwise fun x y => x.cell ≠ y.cell)
    {w : Write κ ν} (hw : w ∈ ws) : hits w.cell ws = [w] := by
  induction ws with
  | nil => cases hw
  | cons x ws ih =>
    obtain ⟨hx, hws⟩ := List.pairwise_cons.mp h
    rcases List.mem_cons.mp hw with rfl | hw
    · have hrest : hits w.cell ws = [] := hits_nil fun y hy => (hx y hy).symm
      simpa [hits] using hrest
    · simpa [hits, hx w hw] using ih hws hw

end

section
variable [DecidableEq ι]

def own (i : ι) (trace : List (ι × Write κ ν)) : List (Write κ ν) :=
  (trace.filter fun e => e.1 = i).map Prod.snd

theorem own_self (i : ι) (trace : List (ι × Write κ ν)) (w : Write κ ν) :
    own i (trace++[(i, w)]) = own i trace++[w] := by
  simp [own]

theorem own_other {i j : ι} (h : j ≠ i) (trace : List (ι × Write κ ν)) (w : Write κ ν) :
    own i (trace++[(j, w)]) = own i trace := by
  simp [own, h]

theorem mem_own {i : ι} {trace : List (ι × Write κ ν)} {w : Write κ ν} :
    w ∈ own i trace ↔ (i, w) ∈ trace := by
  simp [own]

/-- Where only one writer hits a cell, the trace shows that writer's hits. -/
theorem hits_own [DecidableEq κ] {i : ι} {k : κ} {trace : List (ι × Write κ ν)}
    (h : ∀ e ∈ trace, e.2.cell = k → e.1 = i) :
    (trace.filter fun e => e.2.cell = k) = (hits k (own i trace)).map fun w => (i, w) := by
  induction trace with
  | nil => rfl
  | cons e trace ih =>
    obtain ⟨j, w⟩ := e
    have ih := ih fun x hx => h x (List.mem_cons_of_mem _ hx)
    have hj := h (j, w) (List.mem_cons_self ..)
    unfold own hits at ih ⊢
    by_cases hk : w.cell = k
    · obtain rfl : j = i := hj hk
      simp [hk, ih]
    · by_cases hi : j = i <;> simp [hk, hi, ih]

end

end Semestr4.SharedWrites
