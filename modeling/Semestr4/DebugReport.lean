import Mathlib.Tactic.IntervalCases
import Semestr4.DebugUnit

/-!
# The text of a report

The registers of the processor and its bus, then the sixteen bytes of the
memory, all in hexadecimal. While the wires keep what they carried when the
report was started, the unit writes this text and nothing else, and what the
processor showed can be read back from it.
-/

set_option autoImplicit false

namespace Semestr4.DebugReport
open Semestr4.ScheduledRun Semestr4.SerialFrame Semestr4.DebugUnit
open Semestr4.UartTransmitter (Byte Uart Follows)
open Semestr4.CpuInstruction (Nibble Memory)

def heading (x : Signals) : List Byte :=
  [0xd, 0xa, ascii 'c', ascii '=', digit (x.dbg_istate.setWidth 4),
    ascii ' ', ascii 'r', ascii '0', ascii '=', digit x.dbg_r0,
    ascii ' ', ascii 'r', ascii '1', ascii '=', digit x.dbg_r1,
    ascii ' ', ascii 'p', ascii 'c', ascii '=', digit x.dbg_pc,
    ascii ' ', ascii 'A', ascii '=', digit x.dbg_mem_a,
    ascii ' ', ascii 'R', ascii '=', digit (high x.dbg_mem_dr), digit (low x.dbg_mem_dr),
    ascii ' ', ascii 'W', ascii '=', digit (high x.dbg_mem_dw), digit (low x.dbg_mem_dw),
    ascii ' ', ascii 'M', ascii ':', ascii ' ']

def dump (m : Memory) : List Byte :=
  (List.finRange 16).flatMap fun a =>
    [digit (high (m (BitVec.ofFin a))), digit (low (m (BitVec.ofFin a))), ascii ' ']

def report (x : Signals) (m : Memory) : List Byte := heading x++dump m

theorem heading_length (x : Signals) : (heading x).length = 38 := rfl

theorem dump_length (m : Memory) : (dump m).length = 48 := by
  simp [dump, List.finRange]

theorem report_length (x : Signals) (m : Memory) : (report x m).length = 86 := by
  rw [report, List.length_append, heading_length, dump_length]

theorem dump_byte (m : Memory) (a : ℕ) (ha : a < 16) :
    (dump m)[3*a]? = some (digit (high (m (BitVec.ofNat 4 a)))) ∧
      (dump m)[3*a+1]? = some (digit (low (m (BitVec.ofNat 4 a)))) ∧
      (dump m)[3*a+2]? = some (ascii ' ') := by
  interval_cases a <;> exact ⟨rfl, rfl, rfl⟩

/-- The unit before the character at `k` of a report: from the first byte of the
memory on, it also counts the bytes and the characters of each. -/
structure Placed (k : ℕ) (d : Dbgu) : Prop where
  state : d.state = BitVec.ofNat 8 (k+1)
  acntr : 38 ≤ k → d.acntr = BitVec.ofNat 3 ((k-38) % 3)
  mem_a : 38 ≤ k → d.mem_a = BitVec.ofNat 4 ((k-38)/3)

theorem spell_dump (x : Signals) (mem_d : Byte) (d : Dbgu) (h : 38 < d.state.toNat) :
    d.spell x mem_d = d.dump mem_d := by
  unfold Dbgu.spell
  split
  case h_39 => rfl
  all_goals
    rename_i hs
    rw [hs] at h
    exact absurd h (by decide)

theorem spell_heading (x : Signals) (mem_d : Byte) (d : Dbgu) (k : ℕ) (hk : k < 38)
    (hs : d.state = BitVec.ofNat 8 (k+1)) :
    (heading x)[k]? = some (d.spell x mem_d).p_out := by
  interval_cases k <;> simp only [Dbgu.spell, hs] <;> rfl

theorem spell_last (x : Signals) (mem_d : Byte) (d : Dbgu) (hs : d.state = 38#8) :
    (d.spell x mem_d).acntr = 0 ∧ (d.spell x mem_d).mem_a = 0 := by
  simp [Dbgu.spell, hs]

theorem dump_zero (mem_d : Byte) (d : Dbgu) (h : d.acntr = 0#3) :
    d.dump mem_d = { d with p_out := digit (high mem_d), acntr := 1 } := by
  simp [Dbgu.dump, h]

theorem dump_one (mem_d : Byte) (d : Dbgu) (h : d.acntr = 1#3) :
    d.dump mem_d = { d with p_out := digit (low mem_d), acntr := 2 } := by
  simp [Dbgu.dump, h]

theorem dump_two (mem_d : Byte) (d : Dbgu) (h : d.acntr = 2#3) :
    d.dump mem_d = { d with p_out := ascii ' ', mem_a := d.mem_a+1, acntr := 0 } := by
  simp [Dbgu.dump, h]

theorem spell_memory (x : Signals) (m : Memory) (d : Dbgu) (k : ℕ) (hk : 38 ≤ k) (hlt : k < 86)
    (h : Placed k d) :
    (report x m)[k]? = some (d.spell x (m d.mem_a)).p_out ∧
      (d.spell x (m d.mem_a)).acntr = BitVec.ofNat 3 ((k+1-38) % 3) ∧
      (d.spell x (m d.mem_a)).mem_a = BitVec.ofNat 4 ((k+1-38)/3) := by
  have hstate : 38 < d.state.toNat := by
    rw [h.state, BitVec.toNat_ofNat, Nat.mod_eq_of_lt (by omega)]
    omega
  rw [spell_dump x (m d.mem_a) d hstate, report,
    List.getElem?_append_right (by rw [heading_length]; omega), heading_length]
  have hacntr := h.acntr hk
  have hmem := h.mem_a hk
  obtain ⟨a, j, hj, hkaj⟩ : ∃ a j, j < 3 ∧ k-38 = 3*a+j :=
    ⟨(k-38)/3, (k-38) % 3, Nat.mod_lt _ (by decide), (Nat.div_add_mod _ 3).symm⟩
  obtain ⟨hfirst, hsecond, hthird⟩ := dump_byte m a (by omega)
  rw [show k+1-38 = 3*a+j+1 by omega]
  rw [hkaj] at hacntr hmem ⊢
  have hdiv : (3*a+j)/3 = a := by omega
  rw [hdiv] at hmem
  obtain rfl | rfl | rfl : j = 0 ∨ j = 1 ∨ j = 2 := by omega
  · have hcount : d.acntr = 0#3 := by rw [hacntr]; congr 1; omega
    rw [dump_zero _ d hcount, Nat.add_zero, hfirst, hmem]
    refine ⟨rfl, ?_, ?_⟩
    · rw [show (3*a+1) % 3 = 1 by omega]
      rfl
    · rw [show (3*a+1)/3 = a by omega]
  · have hcount : d.acntr = 1#3 := by rw [hacntr]; congr 1; omega
    rw [dump_one _ d hcount, hsecond, hmem]
    refine ⟨rfl, ?_, ?_⟩
    · rw [show (3*a+1+1) % 3 = 2 by omega]
      rfl
    · rw [show (3*a+1+1)/3 = a by omega]
  · have hcount : d.acntr = 2#3 := by rw [hacntr]; congr 1; omega
    rw [dump_two _ d hcount, hthird, hmem]
    refine ⟨rfl, ?_, ?_⟩
    · rw [show (3*a+2+1) % 3 = 0 by omega]
      rfl
    · rw [show (3*a+2+1)/3 = a+1 by omega, BitVec.ofNat_add]
      rfl

theorem spell_placed (x : Signals) (m : Memory) (d : Dbgu) (k : ℕ) (hlt : k < 86)
    (h : Placed k d) :
    (report x m)[k]? = some (d.spell x (m d.mem_a)).p_out ∧
      Placed (k+1) { d.spell x (m d.mem_a) with state := d.state+1, tx_chr_start := true } := by
  have hstate : d.state+1 = BitVec.ofNat 8 (k+1+1) := by
    rw [h.state, BitVec.ofNat_add (k+1) 1]
    rfl
  rcases Nat.lt_or_ge k 38 with hk | hk
  · rw [report, List.getElem?_append_left (by rw [heading_length]; omega)]
    refine ⟨spell_heading x _ d k hk h.state, hstate, fun hk' => ?_, fun hk' => ?_⟩
    all_goals
      obtain rfl : k = 37 := by omega
      have hlast := spell_last x (m d.mem_a) d h.state
    · exact hlast.1
    · exact hlast.2
  · obtain ⟨hchar, hacntr, hmem⟩ := spell_memory x m d k hk hlt h
    exact ⟨hchar, hstate, fun _ => hacntr, fun _ => hmem⟩

def digitOf (c : Byte) : Option Nibble :=
  if ascii '0' ≤ c ∧ c ≤ ascii '9' then some ((c-ascii '0').setWidth 4)
  else if ascii 'A' ≤ c ∧ c ≤ ascii 'F' then some ((c-ascii 'A'+10).setWidth 4)
  else none

def digitAt (t : List Byte) (k : ℕ) : Option Nibble := t[k]?.bind digitOf

def byteAt (t : List Byte) (k : ℕ) : Option Byte := do
  let h ← digitAt t k
  let l ← digitAt t (k+1)
  return h++l

def readSignals (t : List Byte) : Option Signals := do
  let dbg_istate ← digitAt t 4
  let dbg_r0 ← digitAt t 9
  let dbg_r1 ← digitAt t 14
  let dbg_pc ← digitAt t 19
  let dbg_mem_a ← digitAt t 23
  let dbg_mem_dr ← byteAt t 27
  let dbg_mem_dw ← byteAt t 32
  return ⟨dbg_istate.setWidth 3, dbg_r0, dbg_r1, dbg_pc, dbg_mem_a, dbg_mem_dr, dbg_mem_dw⟩

def readMemory (t : List Byte) (a : Nibble) : Option Byte := byteAt t (38+3*a.toNat)

theorem digitOf_digit : ∀ v : Nibble, digitOf (digit v) = some v := by decide

theorem high_append_low (b : Byte) : high b++low b = b := by
  revert b
  decide +kernel

theorem byteAt_digits {t : List Byte} {k : ℕ} {b : Byte} (h : t[k]? = some (digit (high b)))
    (l : t[k+1]? = some (digit (low b))) : byteAt t k = some b := by
  simp [byteAt, digitAt, h, l, digitOf_digit, high_append_low]

theorem readMemory_report (x : Signals) (m : Memory) (a : Nibble) :
    readMemory (report x m) a = some (m a) := by
  obtain ⟨hh, hl, -⟩ := dump_byte m a.toNat a.isLt
  rw [BitVec.ofNat_toNat, BitVec.setWidth_eq] at hh hl
  have hright : ∀ k, (report x m)[38+k]? = (dump m)[k]? := fun k => by
    rw [report, List.getElem?_append_right (by rw [heading_length]; omega), heading_length,
      Nat.add_sub_cancel_left]
  exact byteAt_digits (by rw [hright, hh]) (by rw [Nat.add_assoc, hright, hl])

/-- A report can be read: it tells what the processor showed and what each byte
of the memory was. -/
theorem read_report (x : Signals) (m : Memory) :
    readSignals (report x m) = some x ∧ ∀ a, readMemory (report x m) a = some (m a) := by
  refine ⟨?_, readMemory_report x m⟩
  have hleft : ∀ k < 38, (report x m)[k]? = (heading x)[k]? := fun k hk => by
    rw [report, List.getElem?_append_left (by rw [heading_length]; omega)]
  have hdr : byteAt (report x m) 27 = some x.dbg_mem_dr :=
    byteAt_digits (hleft 27 (by decide)) (hleft 28 (by decide))
  have hdw : byteAt (report x m) 32 = some x.dbg_mem_dw :=
    byteAt_digits (hleft 32 (by decide)) (hleft 33 (by decide))
  have hdigit : ∀ k < 38, ∀ v, (heading x)[k]? = some (digit v) →
      digitAt (report x m) k = some v := fun k hk v hv => by
    rw [digitAt, hleft k hk, hv]
    exact digitOf_digit v
  rw [readSignals, hdigit 4 (by decide) _ rfl, hdigit 9 (by decide) _ rfl,
    hdigit 14 (by decide) _ rfl, hdigit 19 (by decide) _ rfl, hdigit 23 (by decide) _ rfl, hdr, hdw]
  have hstate : (x.dbg_istate.setWidth 4).setWidth 3 = x.dbg_istate := by
    rw [BitVec.setWidth_setWidth_of_le _ (by decide), BitVec.setWidth_eq]
  simp only [Option.bind_eq_bind, Option.bind_some, Option.pure_def, hstate]

def text (w : Wires) : List Byte := report w.signals w.memory

theorem text_length (w : Wires) : (text w).length = 86 := report_length w.signals w.memory

def started (es : List Event) : List Wires :=
  es.filterMap fun e => match e with
    | .started x => some x
    | _ => none

theorem started_append (es fs : List Event) : started (es++fs) = started es++started fs :=
  List.filterMap_append

/-- While a report is written, the wires carry what they carried at its start. -/
def Steady : Debugger → Wires → List Edge → Prop
  | _, _, [] => True
  | s, w, .bit::as => Steady (tick s) w as
  | s, w, .main x::as =>
    (s.dbgu.state ≠ 0 → x.signals = w.signals ∧ x.memory = w.memory) ∧
      Steady (next s (.main x)) (if s.dbgu.state = 0 then x else w) as

structure Free (s : Debugger) (es : List Event) : Prop where
  state : s.dbgu.state = 0
  start : s.dbgu.tx_chr_start = false
  complete : written es = (started es).flatMap text

structure Busy (w : Wires) (k : ℕ) (s : Debugger) (es : List Event) : Prop where
  bound : k ≤ 86
  placed : Placed k s.dbgu
  mem_d : s.clk_in = true → s.mem_d = w.memory s.dbgu.mem_a
  partly : ∃ before, started es = before++[w] ∧
    written es = before.flatMap text++(text w).take k

def Reporting (w : Wires) (s : Debugger) (es : List Event) : Prop :=
  Free s es ∨ ∃ k, Busy w k s es

theorem Busy.state_toNat {w : Wires} {k : ℕ} {s : Debugger} {es : List Event}
    (h : Busy w k s es) : s.dbgu.state.toNat = k+1 := by
  have hk := h.bound
  rw [h.placed.state, BitVec.toNat_ofNat, Nat.mod_eq_of_lt (by omega)]

theorem Busy.state_ne {w : Wires} {k : ℕ} {s : Debugger} {es : List Event} (h : Busy w k s es) :
    s.dbgu.state ≠ 0 := by
  intro h0
  have hstate := h.state_toNat
  rw [h0] at hstate
  cases hstate

theorem reporting_bit {w : Wires} {s : Debugger} {es : List Event} (h : Reporting w s es) :
    Reporting w (next s .bit) (es++events s .bit) := by
  have hquiet : started (events s .bit) = [] ∧ written (events s .bit) = [] := by
    unfold events
    dsimp only
    split <;> exact ⟨rfl, rfl⟩
  rcases h with ⟨hs, ht, hc⟩ | ⟨k, hk, hp, hm, before, hst, hw⟩
  · refine .inl ⟨hs, ht, ?_⟩
    rw [written_append, started_append, hquiet.1, hquiet.2, List.append_nil, List.append_nil, hc]
  · refine .inr ⟨k, hk, hp, hm, before, ?_, ?_⟩
    · rw [started_append, hquiet.1, List.append_nil, hst]
    · rw [written_append, hquiet.2, List.append_nil, hw]

theorem events_rise (x : Wires) (s : Debugger) (h : s.clk_in = false) :
    events s (.main x) = [] := by
  simp [events, h]

theorem started_fall (x : Wires) (s : Debugger) (h : s.clk_in = true) :
    started (events s (.main x)) = if starts s then [x] else [] := by
  simp only [events, h, Bool.true_and]
  split <;> split <;> rfl

theorem written_fall (x : Wires) (s : Debugger) (h : s.clk_in = true) :
    written (events s (.main x)) = if offers s then [(fall x s).dbgu.p_out] else [] := by
  simp only [events, h, Bool.true_and]
  split <;> split <;> rfl

theorem Busy.rise {w x : Wires} {k : ℕ} {s : Debugger} {es : List Event} (h : Busy w k s es)
    (hx : x.memory = w.memory) : Busy w k (DebugUnit.rise x s) es :=
  ⟨h.bound, h.placed, fun _ => congrFun hx s.dbgu.mem_a, h.partly⟩

theorem Free.fall {x : Wires} {s : Debugger} {es : List Event} (h : Free s es)
    (hclk : s.clk_in = true) :
    Reporting x (DebugUnit.fall x s) (es++events s (.main x)) := by
  have hstarted := started_fall x s hclk
  have hwritten := written_fall x s hclk
  have hoffers : offers s = false := by simp [offers, h.state]
  rw [hoffers, if_neg Bool.false_ne_true] at hwritten
  rcases negedge_cases x.signals s.gen1.pulse s.mem_d s.u1.bsy s.dbgu with
    ⟨hd, -⟩ | ⟨hd, -⟩ | ⟨hd, -⟩ | ⟨hd, -⟩ | ⟨hd, hp, hfall⟩ | ⟨hd, hp, hfall⟩
  · exact absurd h.state hd
  · exact absurd h.state hd
  · exact absurd h.state hd
  · exact absurd h.state hd
  · refine .inr ⟨0, Nat.zero_le _, ?_, fun hc => absurd hc Bool.false_ne_true, started es, ?_, ?_⟩
    · rw [DebugUnit.fall, hfall]
      exact ⟨rfl, fun hk => by omega, fun hk => by omega⟩
    · have hstarts : starts s = true := by simp [starts, h.state, hp]
      rw [started_append, hstarted, hstarts, if_pos rfl]
    · rw [written_append, hwritten, List.append_nil, h.complete, List.take_zero, List.append_nil]
  · have hstarts : starts s = false := by simp [starts, hp]
    refine .inl ⟨?_, ?_, ?_⟩
    · rw [DebugUnit.fall, hfall]
      exact h.state
    · rw [DebugUnit.fall, hfall]
      exact h.start
    · rw [written_append, hwritten, started_append, hstarted, hstarts, if_neg Bool.false_ne_true,
        List.append_nil, List.append_nil, h.complete]

theorem Busy.fall {w x : Wires} {k : ℕ} {s : Debugger} {es : List Event} (h : Busy w k s es)
    (hclk : s.clk_in = true) (hx : x.signals = w.signals) :
    Reporting w (DebugUnit.fall x s) (es++events s (.main x)) := by
  have hstate := h.state_toNat
  have hne : s.dbgu.state ≠ 0#8 := h.state_ne
  have hstarts : starts s = false := by simp [starts, hne]
  have hstarted := started_fall x s hclk
  rw [hstarts, if_neg Bool.false_ne_true] at hstarted
  have hwritten := written_fall x s hclk
  obtain ⟨before, hbefore, hw⟩ := h.partly
  have hstarted' : started (es++events s (.main x)) = before++[w] := by
    rw [started_append, hstarted, List.append_nil, hbefore]
  rcases negedge_cases x.signals s.gen1.pulse s.mem_d s.u1.bsy s.dbgu with
    ⟨-, hb, ht, hle, hfall⟩ | ⟨-, hb, ht, hlt, hfall⟩ | ⟨-, hb, ht, hfall⟩ | ⟨-, hb, hfall⟩ |
    ⟨hd, -⟩ | ⟨hd, -⟩
  · -- a character is written
    have hk : k < 86 := by
      rw [LAST_STATE] at hle
      omega
    obtain ⟨hchar, hplaced⟩ := spell_placed w.signals w.memory s.dbgu k hk h.placed
    rw [← h.mem_d hclk, ← hx] at hchar hplaced
    have htext : (text w)[k]? = some (s.dbgu.spell x.signals s.mem_d).p_out := by
      rw [text, ← hx, hchar]
    have hoffers : offers s = true := by simp [offers, hne, hb, ht, hle]
    have hpout : (DebugUnit.fall x s).dbgu.p_out = (s.dbgu.spell x.signals s.mem_d).p_out := by
      rw [DebugUnit.fall, hfall]
    refine .inr ⟨k+1, hk, ?_, fun hc => absurd hc Bool.false_ne_true, before, hstarted', ?_⟩
    · rw [DebugUnit.fall, hfall]
      exact hplaced
    · rw [written_append, hwritten, hoffers, if_pos rfl, hw, hpout, List.append_assoc,
        List.take_add_one, htext]
      rfl
  · -- the report is complete
    have hk : k = 86 := by
      rw [LAST_STATE] at hlt
      have := h.bound
      omega
    have hoffers : offers s = false := by simp [offers, Nat.not_le.mpr hlt]
    refine .inl ⟨?_, ?_, ?_⟩
    · rw [DebugUnit.fall, hfall]
    · rw [DebugUnit.fall, hfall]
      exact (spell_frame x.signals s.mem_d s.dbgu).2.2.trans ht
    · rw [written_append, hwritten, hoffers, if_neg Bool.false_ne_true, List.append_nil, hstarted',
        hw, hk, List.take_of_length_le (text_length w).le, List.flatMap_append]
      simp
  · have hoffers : offers s = false := by simp [offers, ht]
    refine .inr ⟨k, h.bound, ?_, fun hc => absurd hc Bool.false_ne_true, before, hstarted', ?_⟩
    · rw [DebugUnit.fall, hfall]
      exact h.placed
    · rw [written_append, hwritten, hoffers, if_neg Bool.false_ne_true, List.append_nil, hw]
  · have hoffers : offers s = false := by simp [offers, hb]
    refine .inr ⟨k, h.bound, ?_, fun hc => absurd hc Bool.false_ne_true, before, hstarted', ?_⟩
    · rw [DebugUnit.fall, hfall]
      exact ⟨h.placed.state, h.placed.acntr, h.placed.mem_a⟩
    · rw [written_append, hwritten, hoffers, if_neg Bool.false_ne_true, List.append_nil, hw]
  · exact absurd hd hne
  · exact absurd hd hne

theorem reporting_main {w x : Wires} {s : Debugger} {es : List Event} (h : Reporting w s es)
    (hx : s.dbgu.state ≠ 0 → x.signals = w.signals ∧ x.memory = w.memory) :
    Reporting (if s.dbgu.state = 0 then x else w) (next s (.main x)) (es++events s (.main x)) := by
  rcases h with h | ⟨k, h⟩
  · rw [if_pos h.state]
    cases hclk : s.clk_in with
    | false =>
      rw [events_rise x s hclk, List.append_nil]
      simp only [next, hclk]
      exact .inl ⟨h.state, h.start, h.complete⟩
    | true =>
      simp only [next, hclk]
      exact h.fall hclk
  · have hne := h.state_ne
    rw [if_neg hne]
    cases hclk : s.clk_in with
    | false =>
      rw [events_rise x s hclk, List.append_nil]
      simp only [next, hclk]
      exact .inr ⟨k, h.rise (hx hne).2⟩
    | true =>
      simp only [next, hclk]
      exact h.fall hclk (hx hne).1

theorem run_reporting (as : List Edge) {w : Wires} {s t : Debugger} {es fs : List Event}
    (h : Reporting w s es) (hsteady : Steady s w as) (hr : run step as s = some (t, fs)) :
    ∃ w', Reporting w' t (es++fs) := by
  induction as generalizing w s es fs with
  | nil =>
    cases hr
    exact ⟨w, by rwa [List.append_nil]⟩
  | cons a as ih =>
    obtain ⟨u, gs, ks, ⟨⟩, hrest, rfl⟩ := run_cons.mp hr
    rw [← List.append_assoc]
    cases a with
    | bit => exact ih (reporting_bit h) hsteady hrest
    | main x => exact ih (reporting_main h hsteady.1) hsteady.2 hrest

theorem reset_reporting (clk_in : Bool) (gen1 : PulseGen) (mem_d : Byte) (w : Wires) :
    Reporting w (reset clk_in gen1 mem_d) [] := .inl ⟨rfl, rfl, rfl⟩

/-- What is written is the beginning of the reports that were started. -/
theorem Reporting.prefix {w : Wires} {s : Debugger} {es : List Event} (h : Reporting w s es) :
    written es <+: (started es).flatMap text := by
  rcases h with h | ⟨k, h⟩
  · exact h.complete ▸ List.prefix_rfl
  · obtain ⟨before, hbefore, hw⟩ := h.partly
    rw [hw, hbefore, List.flatMap_append, List.flatMap_singleton]
    exact (List.prefix_append_right_inj _).mpr (List.take_prefix k (text w))

theorem Reporting.standing {w : Wires} {s : Debugger} {es : List Event} (h : Reporting w s es)
    (hs : s.dbgu.state = 0) : written es = (started es).flatMap text ∧ standing s = [] := by
  rcases h with h | ⟨k, h⟩
  · refine ⟨h.complete, ?_⟩
    simp [DebugUnit.standing, link, Dbgu.offered, h.start, LevelHandshake.standing]
  · exact absurd hs h.state_ne

/-- What the listener has is the beginning of what was sent, and all of it while
the transmitter is free. -/
theorem follows_received {u : Uart} {r : Listener 8} {taken : List Byte} (h : Follows u r taken) :
    r.received <+: taken ∧ (u.bsy = false → r.received = taken) := by
  cases h with
  | idle taken hs hb hl => exact ⟨List.prefix_rfl, fun _ => rfl⟩
  | data taken b k hk hs hb hbuf =>
    exact ⟨List.prefix_append _ _, fun hb' => by simp [hb] at hb'⟩
  | stop taken hs hle hb hl => exact ⟨List.prefix_rfl, fun _ => rfl⟩

theorem received_reports {clk_in : Bool} {gen1 : PulseGen} {mem_d : Byte} {w : Wires}
    {as : List Edge} (hseen : Meets step Seen (reset clk_in gen1 mem_d) as)
    (hsteady : Steady (reset clk_in gen1 mem_d) w as) {s : Debugger} {es : List Event}
    (hr : run step as (reset clk_in gen1 mem_d) = some (s, es)) :
    ((Listener.quiet 8).listen (levels es)).received <+: (started es).flatMap text ∧
      (s.dbgu.state = 0 → s.u1.bsy = false →
        ((Listener.quiet 8).listen (levels es)).received = (started es).flatMap text) := by
  obtain ⟨w', h⟩ := run_reporting as (reset_reporting clk_in gen1 mem_d w) hsteady hr
  rw [List.nil_append] at h
  have hreceived := follows_received (run_line as s es hr)
  have hexact : sent es++standing s = written es := run_exact as hseen s es hr
  refine ⟨?_, fun hs hb => ?_⟩
  · have hsent : sent es <+: written es := hexact ▸ List.prefix_append _ _
    exact (hreceived.1.trans hsent).trans h.prefix
  · obtain ⟨hcomplete, hnone⟩ := h.standing hs
    rw [hreceived.2 hb, ← hcomplete, ← hexact, hnone, List.append_nil]

theorem steady_constant (w : Wires) (as : List Edge) (h : ∀ a ∈ as, a = .main w ∨ a = .bit)
    (s : Debugger) : Steady s w as := by
  induction as generalizing s with
  | nil => trivial
  | cons a as ih =>
    have hrest := ih fun b hb => h b (List.mem_cons_of_mem a hb)
    rcases h a List.mem_cons_self with rfl | rfl
    · refine ⟨fun _ => ⟨rfl, rfl⟩, ?_⟩
      rw [ite_self]
      exact hrest _
    · exact hrest _

end Semestr4.DebugReport
