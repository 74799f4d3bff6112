import Mathlib.Data.Nat.Basic
import Mathlib.Tactic.Ring

/-!
# The clock dividers of the board

Each section of the prescaler counts the edges of the input clock up to its
ratio and starts again, and its output is high in the second half of the count.
Nothing resets the counters, so they may start anywhere. How long the next edge
of an output is away can be read from the count and the output alone.
-/

set_option autoImplicit false

namespace Semestr4.ClockDivider

structure Divider where
  counter : BitVec 32
  clkout : Bool
  deriving DecidableEq

def Divider.posedge (ratio : ℕ) (v : Divider) : Divider :=
  { counter := if v.counter.toNat < ratio then v.counter+1 else 0,
    clkout := if v.counter.toNat < ratio/2 then false else true }

def F_IN : ℕ := 125000000

def F_OUT_A : ℕ := 1000000

def F_OUT_B : ℕ := 115200

def F_OUT_C : ℕ := 1

structure Prescaler where
  a : Divider
  b : Divider
  c : Divider

def Prescaler.posedge (p : Prescaler) : Prescaler :=
  ⟨p.a.posedge (F_IN/F_OUT_A), p.b.posedge (F_IN/F_OUT_B), p.c.posedge (F_IN/F_OUT_C)⟩

namespace Divider

def falls (ratio : ℕ) (v : Divider) : Bool := v.clkout && !(v.posedge ratio).clkout

def rises (ratio : ℕ) (v : Divider) : Bool := !v.clkout && (v.posedge ratio).clkout

/-- After how many edges of the input clock the output falls. -/
def untilFall (ratio : ℕ) (v : Divider) : ℕ :=
  if v.clkout = true ∧ v.counter.toNat < ratio/2 then 1
  else if ratio ≤ v.counter.toNat then 2
  else ratio-v.counter.toNat+2

def untilRise (ratio : ℕ) (v : Divider) : ℕ :=
  if v.clkout = false ∧ ratio/2 ≤ v.counter.toNat then 1
  else if v.counter.toNat < ratio/2 then ratio/2-v.counter.toNat+1
  else if ratio ≤ v.counter.toNat then ratio/2+2
  else ratio-v.counter.toNat+ratio/2+2

variable {ratio : ℕ} (v : Divider)

theorem posedge_counter (hr : ratio < 2^32) : (v.posedge ratio).counter.toNat =
    if v.counter.toNat < ratio then v.counter.toNat+1 else 0 := by
  unfold posedge
  dsimp only
  split
  · rw [BitVec.toNat_add, show (1 : BitVec 32).toNat = 1 from rfl]
    omega
  · rfl

theorem untilFall_pos (ratio : ℕ) (v : Divider) : 1 ≤ untilFall ratio v := by
  unfold untilFall
  split
  · omega
  · split <;> omega

theorem untilFall_le (h2 : 2 ≤ ratio) : untilFall ratio v ≤ ratio+2 := by
  unfold untilFall
  split
  · omega
  · split <;> omega

theorem untilRise_pos (ratio : ℕ) (v : Divider) : 1 ≤ untilRise ratio v := by
  unfold untilRise
  split
  · omega
  · split
    · omega
    · split <;> omega

theorem untilRise_le (h2 : 2 ≤ ratio) : untilRise ratio v ≤ ratio+ratio/2+2 := by
  unfold untilRise
  split
  · omega
  · split
    · omega
    · split <;> omega

theorem posedge_clkout (ratio : ℕ) (v : Divider) : (v.posedge ratio).clkout =
    if v.counter.toNat < ratio/2 then false else true := rfl

theorem untilFall_posedge (hr : ratio < 2^32) (h2 : 2 ≤ ratio) (h : falls ratio v = false) :
    untilFall ratio (v.posedge ratio)+1 = untilFall ratio v := by
  simp only [untilFall, posedge_counter v hr, posedge_clkout]
  simp only [falls, posedge_clkout] at h
  generalize v.counter.toNat = c at *
  rcases Nat.lt_or_ge c (ratio/2) with hhalf | hhalf
  · -- the output stays low for the rest of the half
    have hlow : v.clkout = false := by simpa [hhalf] using h
    have hlt : c < ratio := by omega
    simp only [hlow, if_pos hhalf, if_pos hlt, Bool.false_eq_true, false_and, if_false]
    split <;> split <;> omega
  · have hn : ¬ c < ratio/2 := Nat.not_lt.mpr hhalf
    simp only [hn, if_false, and_false, true_and]
    rcases Nat.lt_or_ge c ratio with hlt | hge
    · simp only [if_pos hlt, if_neg (Nat.not_le.mpr hlt)]
      rw [if_neg (by omega)]
      split <;> omega
    · simp only [if_neg (Nat.not_lt.mpr hge), if_pos hge]
      rw [if_pos (by omega)]

theorem untilRise_posedge (hr : ratio < 2^32) (h2 : 2 ≤ ratio) (h : rises ratio v = false) :
    untilRise ratio (v.posedge ratio)+1 = untilRise ratio v := by
  simp only [untilRise, posedge_counter v hr, posedge_clkout]
  simp only [rises, posedge_clkout] at h
  generalize v.counter.toNat = c at *
  rcases Nat.lt_or_ge c (ratio/2) with hhalf | hhalf
  · have hlt : c < ratio := by omega
    simp only [if_pos hhalf, if_pos hlt, true_and]
    rw [if_neg (show ¬ (v.clkout = false ∧ ratio/2 ≤ c) by omega)]
    split
    · omega
    · rw [if_pos (by omega)]
      omega
  · -- the output is high, and the next rise is behind the end of the count
    have hn : ¬ c < ratio/2 := Nat.not_lt.mpr hhalf
    have hhigh : v.clkout = true := by simpa [hn] using h
    simp only [hhigh, hn, if_false, Bool.true_eq_false, false_and]
    rcases Nat.lt_or_ge c ratio with hlt | hge
    · simp only [if_pos hlt, if_neg (Nat.not_le.mpr hlt)]
      rw [if_neg (by omega)]
      split <;> omega
    · simp only [if_neg (Nat.not_lt.mpr hge), if_pos hge]
      rw [if_pos (by omega)]
      omega

theorem rises_iff : rises ratio v = true ↔ v.clkout = false ∧ ratio/2 ≤ v.counter.toNat := by
  simp only [rises, posedge_clkout, Bool.and_eq_true, Bool.not_eq_true']
  refine and_congr_right fun _ => ?_
  split <;> simp <;> omega

theorem untilRise_of_rises (h : rises ratio v = true) : untilRise ratio v = 1 :=
  if_pos ((rises_iff v).mp h)

theorem untilRise_after (hr : ratio < 2^32) (h2 : 2 ≤ ratio) (h : rises ratio v = true) :
    ratio/2+1 ≤ untilRise ratio (v.posedge ratio) := by
  obtain ⟨-, hhalf⟩ := (rises_iff v).mp h
  simp only [untilRise, posedge_counter v hr, posedge_clkout, if_neg (Nat.not_lt.mpr hhalf),
    Bool.true_eq_false, false_and, if_false]
  split
  · rw [if_neg (by omega)]
    split <;> omega
  · rw [if_pos (by omega)]
    omega

end Divider

end Semestr4.ClockDivider
