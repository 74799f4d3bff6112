import Mathlib.Algebra.BigOperators.Group.List.Basic
import Mathlib.Algebra.Ring.Nat
import Mathlib.Data.List.Basic
import Mathlib.Order.Basic

/-!
# Events of a stream read in pieces

A stream is read in pieces, and a piece may cause one event, at its position.
The events are the expected ones exactly when every piece at an expected position
causes the event expected there, no other piece causes any, and no expected
position is inside a piece.
-/

set_option autoImplicit false

namespace Semestr4.StreamPieces

variable {α : Type*}

structure Piece (α : Type*) where
  length : ℕ
  event : Option α

def total (pieces : List (Piece α)) : ℕ := (pieces.map Piece.length).sum

/-- The events of the pieces from a position on, each with its position. -/
def events : ℕ → List (Piece α) → List (ℕ × α)
  | _, [] => []
  | p, piece::pieces =>
    (piece.event.map fun a => (p, a)).toList++events (p+piece.length) pieces

def Ordered (es : List (ℕ × α)) : Prop := es.Pairwise fun a b => a.1 < b.1

def Exact (es : List (ℕ × α)) (p : ℕ) (piece : Piece α) : Prop :=
  (∀ a, piece.event = some a ↔ (p, a) ∈ es) ∧ ∀ e ∈ es, ¬ (p < e.1 ∧ e.1 < p+piece.length)

def AllExact (es : List (ℕ × α)) : ℕ → List (Piece α) → Prop
  | _, [] => True
  | p, piece::pieces => Exact es p piece ∧ AllExact es (p+piece.length) pieces

theorem ordered_unique {es : List (ℕ × α)} (h : Ordered es) {p : ℕ} {a b : α}
    (ha : (p, a) ∈ es) (hb : (p, b) ∈ es) : a = b := by
  induction es with
  | nil => cases ha
  | cons e es ih =>
    obtain ⟨hfirst, hrest⟩ := List.pairwise_cons.mp h
    rcases List.mem_cons.mp ha with heq | hmem
    · rcases List.mem_cons.mp hb with heq' | hmem'
      · rw [← heq] at heq'
        exact ((Prod.mk.inj heq').2).symm
      · have hlt := hfirst _ hmem'
        rw [← heq] at hlt
        exact absurd hlt (Nat.lt_irrefl p)
    · rcases List.mem_cons.mp hb with heq' | hmem'
      · have hlt := hfirst _ hmem
        rw [← heq'] at hlt
        exact absurd hlt (Nat.lt_irrefl p)
      · exact ih hrest hmem hmem'

theorem events_later {p : ℕ} {pieces : List (Piece α)} {e : ℕ × α} (h : e ∈ events p pieces) :
    p ≤ e.1 := by
  induction pieces generalizing p with
  | nil => cases h
  | cons piece pieces ih =>
    rw [events, List.mem_append] at h
    rcases h with h | h
    · obtain ⟨a, -, rfl⟩ := Option.map_eq_some_iff.mp (Option.mem_toList.mp h)
      exact Nat.le_refl p
    · have := ih h
      omega

theorem filter_from {es : List (ℕ × α)} (h : Ordered es) (p n : ℕ) :
    es.filter (fun e => p ≤ e.1) =
      es.filter (fun e => p ≤ e.1 ∧ e.1 < p+n)++es.filter (fun e => p+n ≤ e.1) := by
  induction es with
  | nil => rfl
  | cons e es ih =>
    obtain ⟨hfirst, hrest⟩ := List.pairwise_cons.mp h
    rw [List.filter_cons, List.filter_cons, List.filter_cons, ih hrest]
    rcases Nat.lt_or_ge e.1 p with hbefore | hfrom
    · have hlow : ¬ p ≤ e.1 := by omega
      have hhigh : ¬ p+n ≤ e.1 := by omega
      simp [hlow, hhigh]
    · rcases Nat.lt_or_ge e.1 (p+n) with hinside | hlater
      · have hhigh : ¬ p+n ≤ e.1 := by omega
        simp [hfrom, hinside, hhigh]
      · -- nothing of the rest is inside
        have hnone : es.filter (fun e => p ≤ e.1 ∧ e.1 < p+n) = [] := by
          rw [List.filter_eq_nil_iff]
          intro b hb
          have := hfirst b hb
          simp
          omega
        have hhigh : ¬ e.1 < p+n := by omega
        rw [hnone]
        simp [hfrom, hhigh, hlater]

theorem append_cut {q : ℕ} {a b c d : List (ℕ × α)} (ha : ∀ e ∈ a, e.1 < q)
    (hb : ∀ e ∈ b, q ≤ e.1) (hc : ∀ e ∈ c, e.1 < q) (hd : ∀ e ∈ d, q ≤ e.1) :
    a++b = c++d ↔ a = c ∧ b = d := by
  have hleft : ∀ x y : List (ℕ × α), (∀ e ∈ x, e.1 < q) → (∀ e ∈ y, q ≤ e.1) →
      (x++y).filter (fun e => e.1 < q) = x := by
    intro x y hx hy
    have hnone : y.filter (fun e => decide (e.1 < q)) = [] := by
      rw [List.filter_eq_nil_iff]
      intro e he
      have := hy e he
      simp
      omega
    rw [List.filter_append, hnone, List.append_nil, List.filter_eq_self]
    exact fun e he => decide_eq_true (hx e he)
  constructor
  · intro h
    have heq : a = c := by
      rw [← hleft a b ha hb, h, hleft c d hc hd]
    rw [heq] at h
    exact ⟨heq, List.append_cancel_left h⟩
  · rintro ⟨rfl, rfl⟩
    rfl

theorem mem_caused {p : ℕ} {event : Option α} {e : ℕ × α} :
    e ∈ (event.map fun a => (p, a)).toList ↔ e.1 = p ∧ event = some e.2 := by
  obtain ⟨q, a⟩ := e
  rw [Option.mem_toList, Option.map_eq_some_iff]
  constructor
  · rintro ⟨b, hb, heq⟩
    obtain ⟨rfl, rfl⟩ := Prod.mk.inj heq
    exact ⟨rfl, hb⟩
  · rintro ⟨rfl, hb⟩
    exact ⟨a, hb, rfl⟩

theorem mem_inside {es : List (ℕ × α)} {p n : ℕ} {e : ℕ × α} :
    e ∈ es.filter (fun e => p ≤ e.1 ∧ e.1 < p+n) ↔ e ∈ es ∧ p ≤ e.1 ∧ e.1 < p+n := by
  rw [List.mem_filter, decide_eq_true_eq]

theorem ordered_singleton {l : List (ℕ × α)} (h : Ordered l) {p : ℕ} (hat : ∀ e ∈ l, e.1 = p)
    {a : α} (ha : (p, a) ∈ l) : l = [(p, a)] := by
  cases l with
  | nil => cases ha
  | cons e rest =>
    obtain ⟨hfirst, -⟩ := List.pairwise_cons.mp h
    have hrest : rest = [] := by
      refine List.eq_nil_iff_forall_not_mem.mpr fun b hb => ?_
      have hlt := hfirst b hb
      have hb := hat b (List.mem_cons_of_mem e hb)
      have he := hat e (List.mem_cons_self ..)
      omega
    rw [hrest, List.mem_singleton] at ha
    rw [hrest, ha]

theorem event_iff_exact {es : List (ℕ × α)} (h : Ordered es) {p : ℕ} {piece : Piece α}
    (hp : 0 < piece.length) :
    (piece.event.map fun a => (p, a)).toList =
      es.filter (fun e => p ≤ e.1 ∧ e.1 < p+piece.length) ↔ Exact es p piece := by
  constructor
  · intro heq
    refine ⟨fun a => ?_, fun e he hinside => ?_⟩
    · have hiff := mem_caused.symm.trans (heq ▸ mem_inside (e := (p, a)))
      constructor
      · intro ha
        exact (hiff.mp ⟨rfl, ha⟩).1
      · intro ha
        exact (hiff.mpr ⟨ha, Nat.le_refl p, by omega⟩).2
    · have hcause := mem_caused.mp (heq ▸ mem_inside.mpr ⟨he, by omega, hinside.2⟩)
      omega
  · rintro ⟨hevent, hinside⟩
    have hat : ∀ e ∈ es.filter (fun e => p ≤ e.1 ∧ e.1 < p+piece.length), e.1 = p := by
      intro e he
      obtain ⟨he, hle, hlt⟩ := mem_inside.mp he
      by_contra hne
      exact hinside e he ⟨by omega, hlt⟩
    cases hcase : piece.event with
    | none =>
      symm
      refine List.eq_nil_iff_forall_not_mem.mpr fun e he => ?_
      obtain ⟨q, a⟩ := e
      obtain rfl : q = p := hat _ he
      have hcaused := (hevent a).mpr (mem_inside.mp he).1
      rw [hcase] at hcaused
      cases hcaused
    | some a =>
      have hfound := mem_inside.mpr ⟨(hevent a).mp hcase, Nat.le_refl p, Nat.lt_add_of_pos_right hp⟩
      exact (ordered_singleton (List.Pairwise.filter _ h) hat hfound).symm

/-- The events are the expected ones exactly when every piece is exact. -/
theorem events_iff_exact {es : List (ℕ × α)} (h : Ordered es) {p : ℕ} {pieces : List (Piece α)}
    (hp : ∀ piece ∈ pieces, 0 < piece.length) (hend : ∀ e ∈ es, e.1 < p+total pieces) :
    events p pieces = es.filter (fun e => p ≤ e.1) ↔ AllExact es p pieces := by
  induction pieces generalizing p with
  | nil =>
    have hnone : es.filter (fun e => decide (p ≤ e.1)) = [] := by
      rw [List.filter_eq_nil_iff]
      intro e he
      have := hend e he
      simp [total] at this ⊢
      omega
    rw [hnone]
    exact ⟨fun _ => trivial, fun _ => rfl⟩
  | cons piece pieces ih =>
    have hpos := hp piece (List.mem_cons_self ..)
    have hlater := ih (p := p+piece.length) (fun q hq => hp q (List.mem_cons_of_mem piece hq))
      (fun e he => by
        have := hend e he
        simp only [total, List.map_cons, List.sum_cons] at this ⊢
        omega)
    rw [events, filter_from h p piece.length, append_cut (q := p+piece.length)]
    · exact and_congr (event_iff_exact h hpos) hlater
    · intro e he
      obtain ⟨a, -, rfl⟩ := Option.map_eq_some_iff.mp (Option.mem_toList.mp he)
      exact Nat.lt_add_of_pos_right hpos
    · exact fun e he => events_later he
    · intro e he
      have := List.of_mem_filter he
      simp at this
      omega
    · intro e he
      simpa using List.of_mem_filter he

end Semestr4.StreamPieces
