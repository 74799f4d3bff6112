import Semestr4.CpuClock

/-!
# The button that clocks the processor

The debouncer holds its output while its counter runs down from the last time
the button was seen pressed, and the burst generator makes a fixed number of
clock cycles after each press. A bouncing button counts as one press, and one
press is one instruction of the processor.
-/

set_option autoImplicit false

namespace Semestr4.ButtonClock
open Semestr4.CpuInstruction Semestr4.CpuClock

def HOLD : ℕ := 100000

def debounce (input : Bool) (cntr : BitVec 32) : BitVec 32 :=
  if input then BitVec.ofNat 32 HOLD else if cntr ≠ 0 then cntr-1 else cntr

def pressed (cntr : BitVec 32) : Bool := cntr ≠ 0

structure Clocknx where
  prescaler : BitVec 32
  pulses : BitVec 8
  slowclk : Bool
  out : Bool
  deriving DecidableEq

/-- The reset at its input; the prescaler and the slow clock are not part of it. -/
def Clocknx.reset (prescaler : BitVec 32) (slowclk : Bool) : Clocknx :=
  ⟨prescaler, 0, slowclk, false⟩

def Clocknx.posedge (c : Clocknx) : Clocknx :=
  { c with slowclk := c.prescaler[15], prescaler := c.prescaler+1 }

/-- The block that a rising edge of the slow clock or of the input starts. -/
def Clocknx.pulse (N : ℕ) (input : Bool) (c : Clocknx) : Clocknx :=
  if input then { c with pulses := BitVec.ofNat 8 (2*N), out := false }
  else if c.pulses ≠ 0 then { c with pulses := c.pulses-1, out := !c.out }
  else { c with out := false }

def Clocknx.slowRises (c : Clocknx) : Bool := !c.slowclk && c.prescaler[15]

/-- An edge of the main clock: whether the button is seen pressed, and, should the
slow clock rise while the debounced input falls, which of them is seen first. -/
structure Sample where
  button : Bool
  late : Bool

def clocknx (N : ℕ) (x : Sample) (cntr : BitVec 32) (c : Clocknx) : Clocknx :=
  let before := pressed cntr
  let now := pressed (debounce x.button cntr)
  if c.slowRises || !before && now then c.posedge.pulse N (now || before && x.late)
  else c.posedge

structure Console where
  cntr : BitVec 32
  pgen1 : Clocknx
  board : Board

/-- The processor on the rising edge of its clock, the memory on the falling edge. -/
def clockEdge (mode : WriteMode) (before now : Bool) (b : Board) : Board :=
  if !before && now then ⟨posedge true b.ram.mem_data_r b.cpu, b.ram⟩
  else if before && !now then ⟨b.cpu, negedge mode b.cpu b.ram⟩
  else b

def tick (mode : WriteMode) (N : ℕ) (s : Console) (x : Sample) : Console :=
  let pgen1' := clocknx N x s.cntr s.pgen1
  ⟨debounce x.button s.cntr, pgen1', clockEdge mode s.pgen1.out pgen1'.out s.board⟩

def ticks (mode : WriteMode) (N : ℕ) (s : Console) (xs : List Sample) : Console :=
  xs.foldl (tick mode N) s

def burst (N : ℕ) : ℕ := 2*N*65536+1

/-- How long the button has not been seen pressed, after the samples. -/
def since : ℕ → List Sample → ℕ
  | n, [] => n
  | n, x::xs => since (if x.button then 0 else n+1) xs

/-- How often the button was pressed, where a press within the time of the
debouncer belongs to the one before. -/
def presses : ℕ → List Sample → ℕ
  | _, [] => 0
  | n, x::xs => (if x.button ∧ HOLD ≤ n then 1 else 0)+presses (if x.button then 0 else n+1) xs

def Spaced (N : ℕ) : ℕ → List Sample → Prop
  | _, [] => True
  | n, x::xs => (x.button = true → n < HOLD ∨ HOLD+burst N ≤ n) ∧
      Spaced N (if x.button then 0 else n+1) xs

def untilSlow (c : Clocknx) : ℕ :=
  let q := c.prescaler.toNat % 65536
  if c.slowclk = false ∧ 32768 ≤ q then 1
  else if q < 32768 then 32768-q+1
  else 65536-q+32768+1

theorem prescaler_bit (c : Clocknx) :
    c.prescaler[15] = decide (32768 ≤ c.prescaler.toNat % 65536) := by
  rw [BitVec.getElem_eq_testBit_toNat, Nat.testBit_eq_decide_div_mod_eq, decide_eq_decide]
  omega

theorem prescaler_posedge (c : Clocknx) :
    c.posedge.prescaler.toNat % 65536 = (c.prescaler.toNat % 65536+1) % 65536 := by
  have hlt := c.prescaler.isLt
  simp only [Clocknx.posedge, BitVec.toNat_add, show (1 : BitVec 32).toNat = 1 from rfl]
  omega

theorem untilSlow_pos (c : Clocknx) : 1 ≤ untilSlow c := by
  unfold untilSlow
  dsimp only
  split
  · omega
  · split <;> omega

theorem untilSlow_le (c : Clocknx) : untilSlow c ≤ 65537 := by
  unfold untilSlow
  dsimp only
  split
  · omega
  · split <;> omega

theorem untilSlow_rises {c : Clocknx} (h : c.slowRises = true) : untilSlow c = 1 := by
  rw [Clocknx.slowRises, prescaler_bit] at h
  simp only [Bool.and_eq_true, Bool.not_eq_true', decide_eq_true_eq] at h
  exact if_pos h

theorem untilSlow_after {c : Clocknx} (h : c.slowRises = true) : untilSlow c.posedge ≤ 65536 := by
  have hslow : c.posedge.slowclk = decide (32768 ≤ c.prescaler.toNat % 65536) := prescaler_bit c
  rw [Clocknx.slowRises, prescaler_bit] at h
  simp only [Bool.and_eq_true, Bool.not_eq_true', decide_eq_true_eq] at h
  have hlt : c.prescaler.toNat % 65536 < 65536 := Nat.mod_lt _ (by decide)
  simp only [untilSlow, prescaler_posedge, hslow]
  generalize c.prescaler.toNat % 65536 = q at *
  rw [decide_eq_true h.2]
  simp only [Bool.true_eq_false, false_and, if_false]
  split <;> omega

theorem untilSlow_posedge {c : Clocknx} (h : c.slowRises = false) :
    untilSlow c.posedge+1 = untilSlow c := by
  have hslow : c.posedge.slowclk = decide (32768 ≤ c.prescaler.toNat % 65536) := prescaler_bit c
  rw [Clocknx.slowRises, prescaler_bit] at h
  have hlt : c.prescaler.toNat % 65536 < 65536 := Nat.mod_lt _ (by decide)
  simp only [untilSlow, prescaler_posedge, hslow]
  generalize c.prescaler.toNat % 65536 = q at *
  rcases Nat.lt_or_ge q 32768 with hq | hq
  · have hlow : decide (32768 ≤ q) = false := decide_eq_false (Nat.not_le.mpr hq)
    rw [hlow, if_neg (show ¬ (c.slowclk = false ∧ 32768 ≤ q) by omega), if_pos hq,
      Nat.mod_eq_of_lt (by omega)]
    simp only [true_and]
    split
    · omega
    · rw [if_pos (by omega)]
      omega
  · have hhigh : decide (32768 ≤ q) = true := decide_eq_true hq
    have hclk : c.slowclk = true := by simpa [hhigh] using h
    rw [hhigh, hclk]
    simp only [Bool.true_eq_false, false_and, if_false]
    rw [if_neg (show ¬ q < 32768 by omega)]
    split <;> omega

theorem pressed_iff {cntr : BitVec 32} {n : ℕ} (h : cntr.toNat = HOLD-n) :
    pressed cntr = decide (n < HOLD) := by
  rw [pressed, decide_eq_decide, ← BitVec.toNat_inj.ne, h]
  change HOLD-n ≠ 0 ↔ n < HOLD
  omega

theorem debounce_button (cntr : BitVec 32) : (debounce true cntr).toNat = HOLD-0 := rfl

theorem debounce_rest {cntr : BitVec 32} {n : ℕ} (h : cntr.toNat = HOLD-n) :
    (debounce false cntr).toNat = HOLD-(n+1) := by
  unfold debounce
  rw [if_neg Bool.false_ne_true]
  split
  · rename_i hne
    have hpos : cntr.toNat ≠ 0 := fun h0 => hne (BitVec.toNat_inj.mp h0)
    have hle : (1 : BitVec 32) ≤ cntr := BitVec.le_def.mpr (Nat.one_le_iff_ne_zero.mpr hpos)
    rw [BitVec.toNat_sub_of_le hle, h]
    exact Nat.sub_sub HOLD n 1
  · rename_i heq
    have hzero : cntr.toNat = 0 := congrArg BitVec.toNat (not_not.mp heq)
    omega

structure Counted (N n count rises : ℕ) (c : Clocknx) : Prop where
  level : c.out = decide (c.pulses.toNat % 2 = 1)
  cycles : rises+c.pulses.toNat/2 = N*count
  held : n < HOLD → c.pulses.toNat = 2*N
  timely : 1 ≤ c.pulses.toNat → HOLD ≤ n →
    (c.pulses.toNat-1)*65536+untilSlow c+(n-HOLD) ≤ burst N

theorem pulse_true {N : ℕ} (hN : N ≤ 127) (c : Clocknx) :
    (c.pulse N true).pulses.toNat = 2*N ∧ (c.pulse N true).out = false := by
  refine ⟨?_, rfl⟩
  change (BitVec.ofNat 8 (2*N)).toNat = 2*N
  rw [BitVec.toNat_ofNat]
  omega

theorem pulse_false (N : ℕ) (c : Clocknx) :
    (c.pulse N false).pulses.toNat = c.pulses.toNat-1 ∧
      (c.pulse N false).out = (decide (1 ≤ c.pulses.toNat) && !c.out) := by
  unfold Clocknx.pulse
  rw [if_neg Bool.false_ne_true]
  by_cases h : c.pulses = 0
  · simp [h]
  · have hpos : 1 ≤ c.pulses.toNat :=
      Nat.one_le_iff_ne_zero.mpr fun h0 => h (BitVec.toNat_inj.mp h0)
    rw [if_pos h]
    refine ⟨?_, by simp [hpos]⟩
    exact BitVec.toNat_sub_of_le (BitVec.le_def.mpr hpos)

theorem pulse_untilSlow (N : ℕ) (input : Bool) (c : Clocknx) :
    untilSlow (c.pulse N input) = untilSlow c := by
  unfold Clocknx.pulse
  split
  · rfl
  · split <;> rfl

def risen (c c' : Clocknx) : ℕ := if !c.out && c'.out then 1 else 0

variable {N n count rises : ℕ} {c : Clocknx}

theorem Counted.posedge_counted (h : Counted N n count rises c) (m : ℕ)
    (hheld : m < HOLD → c.pulses.toNat = 2*N)
    (htimely : 1 ≤ c.pulses.toNat → HOLD ≤ m →
      (c.pulses.toNat-1)*65536+untilSlow c.posedge+(m-HOLD) ≤ burst N) :
    Counted N m count (rises+risen c c.posedge) c.posedge := by
  have hrisen : risen c c.posedge = 0 := by
    unfold risen Clocknx.posedge
    cases c.out <;> rfl
  rw [hrisen]
  exact ⟨h.level, h.cycles, hheld, htimely⟩

theorem burst_start (hN : 1 ≤ N) (c : Clocknx) : (2*N-1)*65536+untilSlow c ≤ burst N := by
  have hslow := untilSlow_le c
  obtain ⟨j, hj⟩ : ∃ j, 2*N = j+1 := ⟨2*N-1, by omega⟩
  rw [burst, hj, Nat.add_sub_cancel j 1, Nat.succ_mul]
  omega

theorem counted_held (hN : 1 ≤ N) (hN' : N ≤ 127) (h : Counted N n count rises c)
    (hn : n < HOLD) (m : ℕ) (hm : m ≤ HOLD) (b : Bool) :
    Counted N m count (rises+risen c (if b then c.posedge.pulse N true else c.posedge))
      (if b then c.posedge.pulse N true else c.posedge) := by
  have hpulses := h.held hn
  have hstart := burst_start hN c.posedge
  rw [← Nat.sub_eq_zero_iff_le] at hm
  cases b with
  | false =>
    refine h.posedge_counted m (fun _ => hpulses) (fun _ _ => ?_)
    rwa [hm, hpulses, Nat.add_zero]
  | true =>
    obtain ⟨hcount, hout⟩ := pulse_true hN' c.posedge
    have hrisen : risen c (c.posedge.pulse N true) = 0 := by simp [risen, hout]
    rw [if_pos rfl, hrisen]
    refine ⟨?_, ?_, fun _ => hcount, fun _ _ => ?_⟩
    · rw [hout, hcount]
      simp
    · rw [hcount, Nat.add_zero, ← hpulses]
      exact h.cycles
    · rwa [hm, hcount, pulse_untilSlow, Nat.add_zero]

theorem counted_risen (hN : N ≤ 127) (h : Counted N n count rises c) (hn : HOLD+burst N ≤ n) :
    Counted N 0 (count+1) (rises+risen c (c.posedge.pulse N true)) (c.posedge.pulse N true) := by
  obtain ⟨hcount, hout⟩ := pulse_true hN c.posedge
  have hzero : c.pulses.toNat = 0 := by
    by_contra hne
    have hlate := h.timely (Nat.one_le_iff_ne_zero.mpr hne) (by omega)
    have hpos := untilSlow_pos c
    omega
  have hrisen : risen c (c.posedge.pulse N true) = 0 := by simp [risen, hout]
  have hcycles := h.cycles
  rw [hrisen]
  refine ⟨?_, ?_, fun _ => hcount, fun _ h0 => absurd h0 (by decide)⟩
  · rw [hout, hcount]
    simp
  · rw [hzero] at hcycles
    rw [hcount, Nat.mul_succ]
    omega

theorem counted_pulse (h : Counted N n count rises c) (hrise : c.slowRises = true) (m : ℕ)
    (hm : HOLD ≤ m) (htimely : 1 ≤ c.pulses.toNat →
      (c.pulses.toNat-1)*65536+1+(m-HOLD) ≤ burst N+1) :
    Counted N m count (rises+risen c (c.posedge.pulse N false)) (c.posedge.pulse N false) := by
  obtain ⟨hcount, hout⟩ := pulse_false N c.posedge
  change _ = c.pulses.toNat-1 at hcount
  change _ = (decide (1 ≤ c.pulses.toNat) && !c.out) at hout
  have hcycles := h.cycles
  rw [h.level] at hout
  have hrisen : risen c (c.posedge.pulse N false) =
      if 1 ≤ c.pulses.toNat ∧ c.pulses.toNat % 2 = 0 then 1 else 0 := by
    unfold risen
    rw [hout, h.level]
    by_cases h1 : 1 ≤ c.pulses.toNat <;> by_cases h2 : c.pulses.toNat % 2 = 1 <;> simp [h1, h2]
  refine ⟨?_, ?_, fun hm' => by omega, fun hpos _ => ?_⟩
  · rw [hout, hcount]
    by_cases h1 : 1 ≤ c.pulses.toNat <;> by_cases h2 : c.pulses.toNat % 2 = 1 <;> simp [h1, h2]
    all_goals omega
  · rw [hrisen, hcount]
    split <;> omega
  · rw [hcount] at hpos ⊢
    have hslow := untilSlow_after hrise
    have hbound := htimely (by omega)
    clear htimely
    obtain ⟨j, hj⟩ : ∃ j, c.pulses.toNat = j+2 := ⟨c.pulses.toNat-2, by omega⟩
    rw [hj, Nat.add_sub_cancel (j+1) 1, Nat.succ_mul] at hbound
    rw [pulse_untilSlow, hj, Nat.add_sub_cancel (j+1) 1, Nat.add_sub_cancel j 1]
    generalize j*65536 = z at *
    omega

theorem counted_button (hN : 1 ≤ N) (hN' : N ≤ 127) (h : Counted N n count rises c)
    {cntr : BitVec 32} (hcntr : cntr.toNat = HOLD-n) (late : Bool)
    (hx : n < HOLD ∨ HOLD+burst N ≤ n) :
    Counted N 0 (count+if HOLD ≤ n then 1 else 0)
      (rises+risen c (clocknx N ⟨true, late⟩ cntr c)) (clocknx N ⟨true, late⟩ cntr c) := by
  have hnow : pressed (debounce true cntr) = true := rfl
  rw [clocknx, pressed_iff hcntr, hnow]
  rcases hx with hn | hn
  · rw [if_neg (Nat.not_le.mpr hn), decide_eq_true hn]
    simpa using counted_held hN hN' h hn 0 (Nat.zero_le _) c.slowRises
  · have hge : HOLD ≤ n := Nat.le_trans (Nat.le_add_right _ _) hn
    rw [if_pos hge, decide_eq_false (Nat.not_lt.mpr hge)]
    simpa using counted_risen hN' h hn

theorem counted_rest (hN : 1 ≤ N) (hN' : N ≤ 127) (h : Counted N n count rises c)
    {cntr : BitVec 32} (hcntr : cntr.toNat = HOLD-n) (late : Bool) :
    Counted N (n+1) count
      (rises+risen c (clocknx N ⟨false, late⟩ cntr c)) (clocknx N ⟨false, late⟩ cntr c) := by
  rw [clocknx, pressed_iff hcntr, pressed_iff (debounce_rest hcntr)]
  rcases Nat.lt_or_ge n HOLD with hn | hn
  · rw [decide_eq_true hn]
    rcases Nat.lt_or_ge (n+1) HOLD with hlt | hge
    · rw [decide_eq_true hlt]
      simpa using counted_held hN hN' h hn (n+1) hlt.le c.slowRises
    · -- the input falls, and the slow clock may rise at the same edge
      rw [decide_eq_false (Nat.not_lt.mpr hge)]
      cases hrise : c.slowRises with
      | false => simpa using counted_held hN hN' h hn (n+1) hn false
      | true =>
        cases late with
        | true => simpa using counted_held hN hN' h hn (n+1) hn true
        | false =>
          have hstart := burst_start hN c
          rw [untilSlow_rises hrise] at hstart
          have hpulse := counted_pulse h hrise (n+1) hge fun _ => by
            rw [h.held hn, Nat.sub_eq_zero_of_le hn, Nat.add_zero]
            exact Nat.le_succ_of_le hstart
          simpa using hpulse
  · rw [decide_eq_false (Nat.not_lt.mpr hn), decide_eq_false (by omega)]
    cases hrise : c.slowRises with
    | true =>
      have hpulse := counted_pulse h hrise (n+1) (Nat.le_succ_of_le hn) fun hpos => by
        have htimely := h.timely hpos hn
        rw [untilSlow_rises hrise] at htimely
        rw [Nat.sub_add_comm hn, ← Nat.add_assoc]
        exact Nat.succ_le_succ htimely
      simpa using hpulse
    | false =>
      have hposedge := h.posedge_counted (n+1) (fun hlt => by omega) fun hpos _ => by
        have htimely := h.timely hpos hn
        rw [← untilSlow_posedge hrise] at htimely
        rw [Nat.sub_add_comm hn]
        generalize (c.pulses.toNat-1)*65536 = z at *
        omega
      simpa using hposedge

/-- A board between the rising edge of its clock and the memory edge. -/
def half (b : Board) : Board := ⟨posedge true b.ram.mem_data_r b.cpu, b.ram⟩

/-- The board has made the cycles of its clock, up to the one under way. -/
def Clocked (mode : WriteMode) (start : Board) (rises : ℕ) (out : Bool) (b : Board) : Prop :=
  if out then ∃ m, rises = m+1 ∧ b = half (run mode start m) else b = run mode start rises

theorem clocked_edge {mode : WriteMode} {start b : Board} {rises : ℕ} {c c' : Clocknx}
    (h : Clocked mode start rises c.out b) :
    Clocked mode start (rises+risen c c') c'.out (clockEdge mode c.out c'.out b) := by
  unfold Clocked at *
  cases hout : c.out <;> cases hout' : c'.out <;> simp only [hout, hout', clockEdge, risen] at h ⊢
  · exact h
  · exact ⟨rises, rfl, congrArg half h⟩
  · obtain ⟨m, rfl, rfl⟩ := h
    exact (Function.iterate_succ_apply' (cycle mode) m start).symm
  · exact h

structure Consistent (mode : WriteMode) (N n count rises : ℕ) (start : Board) (s : Console) :
    Prop where
  cntr : s.cntr.toNat = HOLD-n
  counted : Counted N n count rises s.pgen1
  clocked : Clocked mode start rises s.pgen1.out s.board

theorem Consistent.tick {mode : WriteMode} {start : Board} {s : Console} (hN : 1 ≤ N)
    (hN' : N ≤ 127) (h : Consistent mode N n count rises start s) (x : Sample)
    (hx : x.button = true → n < HOLD ∨ HOLD+burst N ≤ n) :
    ∃ rises', Consistent mode N (if x.button then 0 else n+1)
      (count+if x.button ∧ HOLD ≤ n then 1 else 0) rises' start (tick mode N s x) := by
  refine ⟨rises+risen s.pgen1 (clocknx N x s.cntr s.pgen1), ?_, ?_, clocked_edge h.clocked⟩
  · obtain ⟨button, late⟩ := x
    cases button with
    | true => exact debounce_button s.cntr
    | false => exact debounce_rest h.cntr
  · obtain ⟨button, late⟩ := x
    cases button with
    | true => simpa [ButtonClock.tick] using counted_button hN hN' h.counted h.cntr late (hx rfl)
    | false => simpa [ButtonClock.tick] using counted_rest hN hN' h.counted h.cntr late

theorem Consistent.ticks {mode : WriteMode} {start : Board} {s : Console} (hN : 1 ≤ N)
    (hN' : N ≤ 127) (xs : List Sample) (h : Consistent mode N n count rises start s)
    (hspaced : Spaced N n xs) :
    ∃ rises', Consistent mode N (since n xs) (count+presses n xs) rises' start
      (ticks mode N s xs) := by
  induction xs generalizing n count rises s with
  | nil => exact ⟨rises, h⟩
  | cons x xs ih =>
    obtain ⟨rises', hx⟩ := h.tick hN hN' x hspaced.1
    obtain ⟨rises'', hxs⟩ := ih hx hspaced.2
    rw [Nat.add_assoc] at hxs
    exact ⟨rises'', hxs⟩

def released (prescaler : BitVec 32) (slowclk : Bool) (board : Board) : Console :=
  ⟨0, Clocknx.reset prescaler slowclk, board⟩

theorem consistent_released (mode : WriteMode) (N : ℕ) (prescaler : BitVec 32) (slowclk : Bool)
    (board : Board) : Consistent mode N (HOLD+burst N) 0 0 board
      (released prescaler slowclk board) := by
  have hzero : (released prescaler slowclk board).pgen1.pulses.toNat = 0 := rfl
  refine ⟨?_, ⟨rfl, by rw [hzero, Nat.mul_zero], fun hn => ?_, fun hpos => ?_⟩, rfl⟩
  · exact (Nat.sub_eq_zero_of_le (Nat.le_add_right _ _)).symm
  · exact absurd hn (Nat.not_lt.mpr (Nat.le_add_right _ _))
  · exact absurd (show 1 ≤ 0 from hpos) (by decide)

theorem Consistent.over {mode : WriteMode} {start : Board} {s : Console}
    (h : Consistent mode N n count rises start s) (hn : HOLD+burst N ≤ n) :
    s.board = run mode start (N*count) := by
  have hzero : s.pgen1.pulses.toNat = 0 := by
    by_contra hne
    have hlate := h.counted.timely (Nat.one_le_iff_ne_zero.mpr hne) (by omega)
    have hpos := untilSlow_pos s.pgen1
    omega
  have hout := h.counted.level
  have hcycles := h.counted.cycles
  rw [hzero] at hout hcycles
  have hclocked := h.clocked
  rw [hout] at hclocked
  rw [← hcycles]
  exact hclocked

/-- One press of the button is one instruction. However the contact bounces within
the time of the debouncer and wherever the slow clock stands, the processor has
executed as many instructions as there were presses. -/
theorem press_executes (mode : WriteMode) (cpu : Cpu) (ram : Ram) (prescaler : BitVec 32)
    (slowclk : Bool) (xs : List Sample) (hspaced : Spaced 4 (HOLD+burst 4) xs)
    (hrest : HOLD+burst 4 ≤ since (HOLD+burst 4) xs) :
    view (ticks mode 4 (released prescaler slowclk (reset cpu ram)) xs).board =
      interpret ram.memory (presses (HOLD+burst 4) xs) := by
  obtain ⟨rises, h⟩ := (consistent_released mode 4 prescaler slowclk (reset cpu ram)).ticks
    (by decide) (by decide) xs hspaced
  rw [h.over hrest, Nat.zero_add, view_run mode _ rfl]
  rfl

def alone (k : ℕ) : List Sample := List.replicate k ⟨false, false⟩

theorem alone_since (n k : ℕ) : since n (alone k) = n+k := by
  induction k generalizing n with
  | zero => rfl
  | succ k ih =>
    change since (n+1) (alone k) = _
    rw [ih]
    omega

theorem alone_spaced (N n k : ℕ) : Spaced N n (alone k) := by
  induction k generalizing n with
  | zero => trivial
  | succ k ih => exact ⟨fun h => absurd h Bool.false_ne_true, ih (n+1)⟩

def bounce (k : ℕ) : List Sample := ⟨true, false⟩::⟨false, false⟩::⟨true, false⟩::alone k

theorem bounce_since (n k : ℕ) : since n (bounce k) = k := by
  change since 0 (alone k) = k
  rw [alone_since, Nat.zero_add]

theorem bounce_spaced (N n k : ℕ) (hn : HOLD+burst N ≤ n) : Spaced N n (bounce k) := by
  refine ⟨fun _ => .inr hn, fun h => absurd h Bool.false_ne_true, fun _ => .inl ?_, ?_⟩
  · change 1 < HOLD
    unfold HOLD
    omega
  · exact alone_spaced N 0 k

theorem bounce_executes :
    view (ticks .writeFirst 4 (released 0 false (reset ⟨0, 0, 0, 0, 0, 0, 0, false⟩ ⟨logged, 0⟩))
      (bounce (HOLD+burst 4))).board =
        interpret logged (presses (HOLD+burst 4) (bounce (HOLD+burst 4))) :=
  press_executes .writeFirst ⟨0, 0, 0, 0, 0, 0, 0, false⟩ ⟨logged, 0⟩ 0 false _
    (bounce_spaced 4 _ _ le_rfl) (bounce_since _ _).ge

end Semestr4.ButtonClock
