import Semestr4.ScheduledRun
import Semestr4.SerialFrame

/-!
# The serial transmitter

One rising edge of the bit clock at a time. A byte is taken when the start line
is high and the transmitter is not busy; it then needs fourteen edges, of which
the first ten put its frame on the line and the rest keep the line high.
-/

set_option autoImplicit false

namespace Semestr4.UartTransmitter
open Semestr4.ScheduledRun Semestr4.SerialFrame

abbrev Byte := BitVec 8

structure Uart where
  state : BitVec 5
  txbuf : BitVec 9
  bsy : Bool
  txline : Bool
  deriving DecidableEq

def reset : Uart := ⟨0, 0, false, true⟩

def takes (start : Bool) (u : Uart) : Bool := start && !u.bsy

def setLow (txbuf : BitVec 9) (low : Byte) : BitVec 9 := BitVec.cons txbuf[8] low

/-- A rising edge of the bit clock. All right-hand sides read the registers from
before the edge, and of two writes to a register the later one stays. -/
def posedge (start : Bool) (data : Byte) (u : Uart) : Uart :=
  let u' := if takes start u then
      { state := 1, txbuf := setLow u.txbuf data, bsy := true, txline := false : Uart }
    else u
  if 0 < u.state then
    if u.state < 9 then
      { u' with state := u.state+1, txline := u.txbuf[0],
                txbuf := setLow u'.txbuf (BitVec.cons false (u.txbuf.extractLsb' 1 7)) }
    else match u.state with
      | 9#5 => { u' with state := 10, txline := true }
      | 10#5 => { u' with state := 11 }
      | 11#5 => { u' with state := 12 }
      | 12#5 => { u' with state := 13 }
      | 13#5 => { u' with state := 0, bsy := false }
      | _ => u'
  else u'

inductive Event where
  | taken (data : Byte)
  | line (level : Bool)
  deriving DecidableEq

def step : Step Uart (Bool × Byte) Event := fun u input =>
  let u' := posedge input.1 input.2 u
  some (u', (if takes input.1 u then [.taken input.2] else [])++[.line u'.txline])

def taken (es : List Event) : List Byte :=
  es.filterMap fun e => match e with
    | .taken data => some data
    | .line _ => none

def levels (es : List Event) : List Bool :=
  es.filterMap fun e => match e with
    | .taken _ => none
    | .line level => some level

/-- What a listener has made of the line, for each place in a frame. -/
inductive Follows : Uart → Listener 8 → List Byte → Prop where
  | idle (u : Uart) (sent : List Byte) (hs : u.state = 0) (hb : u.bsy = false)
      (hl : u.txline = true) : Follows u ⟨none, sent⟩ sent
  | data (u : Uart) (sent : List Byte) (b : Byte) (k : ℕ) (hk : k ≤ 8)
      (hs : u.state = BitVec.ofNat 5 (k+1)) (hb : u.bsy = true)
      (hbuf : u.txbuf.setWidth 8 = b >>> k) :
      Follows u ⟨some ((bits b).take k), sent⟩ (sent++[b])
  | stop (u : Uart) (sent : List Byte) (hs : 9 < u.state) (hle : u.state ≤ 13)
      (hb : u.bsy = true) (hl : u.txline = true) : Follows u ⟨none, sent⟩ sent

@[simp] theorem setLow_low (txbuf : BitVec 9) (low : Byte) :
    (setLow txbuf low).setWidth 8 = low := BitVec.setWidth_cons

theorem low_shift (txbuf : BitVec 9) :
    BitVec.cons false (txbuf.extractLsb' 1 7) = txbuf.setWidth 8 >>> 1 := by
  ext i hi
  simp only [BitVec.getElem_cons, BitVec.getElem_ushiftRight, BitVec.getLsbD_setWidth,
    BitVec.getElem_extractLsb']
  grind

theorem posedge_takes (data : Byte) (u : Uart) (hs : u.state = 0) (hb : u.bsy = false) :
    posedge true data u = ⟨1, setLow u.txbuf data, true, false⟩ := by
  simp [posedge, takes, hs, hb]

theorem posedge_idle (data : Byte) (u : Uart) (hs : u.state = 0) :
    posedge false data u = u := by
  simp [posedge, takes, hs]

theorem takes_busy (start : Bool) (u : Uart) (hb : u.bsy = true) : takes start u = false := by
  simp [takes, hb]

theorem posedge_data (start : Bool) (data : Byte) (u : Uart) (hb : u.bsy = true) (k : ℕ)
    (hk : k < 8) (hs : u.state = BitVec.ofNat 5 (k+1)) :
    posedge start data u = ⟨BitVec.ofNat 5 (k+2),
      setLow u.txbuf (u.txbuf.setWidth 8 >>> 1), true, u.txbuf[0]⟩ := by
  have hpos : 0#5 < BitVec.ofNat 5 (k+1) := by
    rw [BitVec.lt_def]
    simp
    omega
  have hlt : BitVec.ofNat 5 (k+1) < 9#5 := by
    rw [BitVec.lt_def]
    simp
    omega
  have hnext : BitVec.ofNat 5 (k+1)+1#5 = BitVec.ofNat 5 (k+2) := by
    rw [← BitVec.ofNat_add]
  simp [posedge, takes_busy start u hb, hs, hpos, hlt, hnext, low_shift, hb]

theorem posedge_nine (start : Bool) (data : Byte) (u : Uart) (hb : u.bsy = true)
    (hs : u.state = 9) : posedge start data u = { u with state := 10, txline := true } := by
  simp [posedge, takes_busy start u hb, hs]

theorem stop_states : ∀ s : BitVec 5, 9 < s → s ≤ 13 → s = 10 ∨ s = 11 ∨ s = 12 ∨ s = 13 := by
  decide

theorem posedge_stop (start : Bool) (data : Byte) (u : Uart) (hb : u.bsy = true)
    (hs : 9 < u.state) (hle : u.state ≤ 13) :
    posedge start data u = if u.state = 13 then { u with state := 0, bsy := false }
      else { u with state := u.state+1 } := by
  rcases stop_states u.state hs hle with h | h | h | h <;>
    simp [posedge, takes_busy start u hb, h]

theorem follows_reset : Follows reset (Listener.quiet 8) [] := .idle reset [] rfl rfl rfl

theorem Follows.txbuf_bit {u : Uart} {b : Byte} {k : ℕ} (hk : k < 8)
    (hbuf : u.txbuf.setWidth 8 = b >>> k) : u.txbuf[0] = b[k] := by
  have h : (u.txbuf.setWidth 8)[0] = (b >>> k)[0] := by rw [hbuf]
  simpa [BitVec.getLsbD_eq_getElem hk] using h

/-- One edge of the bit clock, and the listener's sample after it. -/
theorem Follows.posedge {u : Uart} {r : Listener 8} {sent : List Byte} (h : Follows u r sent)
    (start : Bool) (data : Byte) :
    Follows (posedge start data u) (r.sample (posedge start data u).txline)
      (sent++if takes start u then [data] else []) := by
  cases h with
  | idle sent hs hb hl =>
    cases start with
    | false =>
      rw [posedge_idle data u hs, hl]
      simpa [takes, Listener.sample_idle] using Follows.idle u sent hs hb hl
    | true =>
      rw [posedge_takes data u hs hb]
      have h : Follows ⟨1, setLow u.txbuf data, true, false⟩ ⟨some ((bits data).take 0), sent⟩
          (sent++[data]) := .data _ sent data 0 (by decide) rfl rfl (by simp)
      simpa [takes, hb, Listener.sample_start] using h
  | data sent b k hk hs hb hbuf =>
    rw [takes_busy start u hb, if_neg Bool.false_ne_true, List.append_nil]
    rcases Nat.lt_or_eq_of_le hk with hk | rfl
    · rw [posedge_data start data u hb k hk hs]
      simp only [Follows.txbuf_bit hk hbuf]
      rw [Listener.sample_bit b sent k hk]
      refine .data _ sent b (k+1) hk rfl rfl ?_
      rw [setLow_low, hbuf, BitVec.shiftRight_add]
    · rw [posedge_nine start data u hb hs]
      have hall : (bits b).take 8 = bits b := List.take_of_length_le (bits_length b).le
      rw [hall, Listener.sample_stop]
      exact .stop _ _ (by simp) (by simp) hb rfl
  | stop sent hs hle hb hl =>
    rw [takes_busy start u hb, if_neg Bool.false_ne_true, List.append_nil,
      posedge_stop start data u hb hs hle]
    split
    · rw [show ({ u with state := 0, bsy := false } : Uart).txline = true from hl,
        Listener.sample_idle]
      exact .idle _ sent rfl rfl rfl
    · rw [show ({ u with state := u.state+1 } : Uart).txline = true from hl,
        Listener.sample_idle]
      refine .stop _ sent ?_ ?_ hb rfl
      · rcases stop_states u.state hs hle with h | h | h | h <;> simp_all
      · rcases stop_states u.state hs hle with h | h | h | h <;> simp_all

theorem Follows.posedge_free {u : Uart} {r : Listener 8} {sent : List Byte} (h : Follows u r sent)
    (hb : u.bsy = false) (start : Bool) (data : Byte) :
    UartTransmitter.posedge start data u =
      if start then ⟨1, setLow u.txbuf data, true, false⟩ else u := by
  cases h with
  | idle sent hs _ hl =>
    cases start with
    | false => exact posedge_idle data u hs
    | true => exact posedge_takes data u hs hb
  | data sent b k hk hs hb' hbuf => simp [hb] at hb'
  | stop sent hs hle hb' hl => simp [hb] at hb'

theorem Follows.state_pos {u : Uart} {r : Listener 8} {sent : List Byte} (h : Follows u r sent)
    (hb : u.bsy = true) : 1 ≤ u.state.toNat := by
  cases h with
  | idle sent hs hb' hl => simp [hb] at hb'
  | data sent b k hk hs _ hbuf =>
    rw [hs, BitVec.toNat_ofNat, Nat.mod_eq_of_lt (by omega)]
    omega
  | stop sent hs hle _ hl => exact Nat.le_trans (by decide) (BitVec.lt_def.mp hs)

theorem Follows.posedge_busy {u : Uart} {r : Listener 8} {sent : List Byte} (h : Follows u r sent)
    (hb : u.bsy = true) (start : Bool) (data : Byte) :
    u.state.toNat = 13 ∧ (UartTransmitter.posedge start data u).bsy = false ∨
      u.state.toNat < 13 ∧
        (UartTransmitter.posedge start data u).bsy = true ∧
        (UartTransmitter.posedge start data u).state.toNat = u.state.toNat+1 := by
  cases h with
  | idle sent hs hb' hl => simp [hb] at hb'
  | data sent b k hk hs _ hbuf =>
    have hstate : u.state.toNat = k+1 := by
      rw [hs, BitVec.toNat_ofNat, Nat.mod_eq_of_lt (by omega)]
    refine .inr ⟨by omega, ?_⟩
    rcases Nat.lt_or_eq_of_le hk with hk | rfl
    · rw [posedge_data start data u hb k hk hs, hstate]
      refine ⟨rfl, ?_⟩
      dsimp only
      rw [BitVec.toNat_ofNat, Nat.mod_eq_of_lt (by omega)]
    · rw [posedge_nine start data u hb hs, hs]
      exact ⟨hb, rfl⟩
  | stop sent hs hle _ hl =>
    rw [posedge_stop start data u hb hs hle]
    rcases stop_states u.state hs hle with h | h | h | h <;> simp [h, hb]

theorem taken_append (es fs : List Event) : taken (es++fs) = taken es++taken fs :=
  List.filterMap_append

theorem levels_append (es fs : List Event) : levels (es++fs) = levels es++levels fs :=
  List.filterMap_append

theorem run_follows (inputs : List (Bool × Byte)) (u : Uart) (es : List Event)
    (hr : run step inputs reset = some (u, es)) :
    Follows u ((Listener.quiet 8).listen (levels es)) (taken es) := by
  refine run_induction step reset
    (fun es u => Follows u ((Listener.quiet 8).listen (levels es)) (taken es)) follows_reset ?_
    inputs u es hr
  rintro es u ⟨start, data⟩ u' fs h hs
  cases hs
  have hlevels : levels ((if takes start u then [.taken data] else [])++
      [.line (posedge start data u).txline]) = [(posedge start data u).txline] := by
    split <;> rfl
  have htaken : taken ((if takes start u then [.taken data] else [])++
      [.line (posedge start data u).txline]) = if takes start u then [data] else [] := by
    split <;> rfl
  rw [levels_append, hlevels, taken_append, htaken, Listener.listen_append]
  exact h.posedge start data

/-- Whatever the start line and the data lines do, one sample of the line for
each bit time reads the bytes that were taken, in their order and each of them
once. The last of them may still be on the way, while the transmitter is busy. -/
theorem line_reads_taken (inputs : List (Bool × Byte)) (u : Uart) (es : List Event)
    (hr : run step inputs reset = some (u, es)) :
    (((Listener.quiet 8).listen (levels es)).received = taken es ∨
      u.bsy = true ∧ ∃ b, ((Listener.quiet 8).listen (levels es)).received++[b] = taken es) ∧
    (u.bsy = false → u.txline = true ∧ ((Listener.quiet 8).listen (levels es)).pending = none) := by
  have h := run_follows inputs u es hr
  generalize (Listener.quiet 8).listen (levels es) = r at h ⊢
  generalize taken es = sent at h ⊢
  cases h with
  | idle sent hs hb hl => exact ⟨.inl rfl, fun _ => ⟨hl, rfl⟩⟩
  | data sent b k hk hs hb hbuf => exact ⟨.inr ⟨hb, b, rfl⟩, by simp [hb]⟩
  | stop sent hs hle hb hl => exact ⟨.inl rfl, by simp [hb]⟩

/-- The letter A, and a second start while it is sent, which is not taken. -/
theorem line_reads_letter : ∃ u es,
    run step ((true, 0x41)::(true, 0x42)::List.replicate 13 (false, 0x42)) reset = some (u, es) ∧
      (((Listener.quiet 8).listen (levels es)).received = taken es ∨
        u.bsy = true ∧ ∃ b, ((Listener.quiet 8).listen (levels es)).received++[b] = taken es) ∧
      (u.bsy = false →
        u.txline = true ∧ ((Listener.quiet 8).listen (levels es)).pending = none) :=
  let inputs := (true, 0x41)::(true, 0x42)::List.replicate 13 (false, 0x42)
  let ⟨u, es, hr⟩ := run_total (fun _ _ => ⟨_, _, rfl⟩) inputs reset
  ⟨u, es, hr, line_reads_taken inputs u es hr⟩

end Semestr4.UartTransmitter
