import Semestr4.ClockDivider
import Semestr4.DebugReport

/-!
# The debug unit under the clocks of the board

The main clock and the bit clock are two outputs of one prescaler. From any
contents of its counters a falling edge of the main clock comes before the next
edge of the bit clock, so that the handshake is always seen in time, and what a
report still needs comes down with every edge of the input clock.
-/

set_option autoImplicit false

namespace Semestr4.DebugTiming
open Semestr4.ScheduledRun Semestr4.SerialFrame Semestr4.ClockDivider
open Semestr4.DebugUnit Semestr4.DebugReport
open Semestr4.UartTransmitter (Byte Uart Follows)

/-- An edge of the input clock: the wires, and which of the two clocks is seen
first where both change at once. -/
structure Instant where
  wires : Wires
  mainFirst : Bool

def mainEdges (p : Prescaler) (x : Wires) : List Edge :=
  if p.a.clkout = p.posedge.a.clkout then [] else [.main x]

def bitEdges (p : Prescaler) : List Edge :=
  if Divider.rises (F_IN/F_OUT_B) p.b then [.bit] else []

def edges (p : Prescaler) (i : Instant) : List Edge :=
  if i.mainFirst then mainEdges p i.wires++bitEdges p else bitEdges p++mainEdges p i.wires

def clocked : Prescaler → List Instant → List Edge
  | _, [] => []
  | p, i::is => edges p i++clocked p.posedge is

def after (s : Debugger) (as : List Edge) : Debugger := as.foldl next s

theorem run_after (as : List Edge) (s : Debugger) :
    ∃ es, run step as s = some (after s as, es) := by
  induction as generalizing s with
  | nil => exact ⟨[], rfl⟩
  | cons a as ih =>
    obtain ⟨es, hes⟩ := ih (next s a)
    exact ⟨events s a++es, run_cons.mpr ⟨_, _, _, rfl, hes, rfl⟩⟩

theorem after_append (s : Debugger) (as bs : List Edge) :
    after s (as++bs) = after (after s as) bs := List.foldl_append

theorem meets_append {C : Debugger → Edge → Prop} {s : Debugger} {as bs : List Edge} :
    Meets step C s (as++bs) ↔ Meets step C s as ∧ Meets step C (after s as) bs := by
  have hcons : ∀ {t : Debugger} {a : Edge} {cs : List Edge},
      Meets step C t (a::cs) ↔ C t a ∧ Meets step C (next t a) cs := by
    intro t a cs
    rw [meets_cons]
    refine and_congr_right fun _ => ⟨fun h => h _ _ rfl, fun h u fs hu => ?_⟩
    cases hu
    exact h
  induction as generalizing s with
  | nil => exact (and_iff_right Meets.nil).symm
  | cons a as ih =>
    rw [List.cons_append, hcons, hcons, and_assoc]
    exact and_congr_right fun _ => ih

/-- The transmitter is busy and the unit has not seen it. -/
def Pending (s : Debugger) : Prop := s.dbgu.tx_chr_start = true ∧ s.u1.bsy = true

structure Timed (p : Prescaler) (s : Debugger) : Prop where
  level : s.clk_in = p.a.clkout
  start : s.dbgu.tx_chr_start = true → s.dbgu.state ≠ 0
  seen : Pending s → p.a.untilFall (F_IN/F_OUT_A) < p.b.untilRise (F_IN/F_OUT_B)

theorem state_succ {d : Dbgu} (h : d.state.toNat ≤ LAST_STATE) :
    (d.state+1).toNat = d.state.toNat+1 := by
  rw [LAST_STATE] at h
  rw [BitVec.toNat_add, show (1 : Byte).toNat = 1 from rfl]
  omega

theorem state_succ_ne {d : Dbgu} (h : d.state.toNat ≤ LAST_STATE) : d.state+1 ≠ 0 := by
  intro h0
  have hzero := (state_succ h).symm.trans (congrArg BitVec.toNat h0)
  cases hzero

theorem start_fall {s : Debugger} (x : Wires)
    (h : s.dbgu.tx_chr_start = true → s.dbgu.state ≠ 0) :
    (fall x s).dbgu.tx_chr_start = true → (fall x s).dbgu.state ≠ 0 := by
  rcases negedge_cases x.signals s.gen1.pulse s.mem_d s.u1.bsy s.dbgu with
    ⟨hd, hb, ht, hle, hf⟩ | ⟨hd, hb, ht, hlt, hf⟩ | ⟨hd, hb, ht, hf⟩ | ⟨hd, hb, hf⟩ |
    ⟨hd, hp, hf⟩ | ⟨hd, hp, hf⟩ <;> rw [fall, hf]
  · exact fun _ => state_succ_ne hle
  · exact fun ht' => absurd ((spell_frame x.signals s.mem_d s.dbgu).2.2.symm.trans ht') (by simp [ht])
  · exact h
  · exact fun ht' => absurd ht' Bool.false_ne_true
  · exact fun _ => (by decide : (1 : Byte) ≠ 0)
  · exact h

theorem pending_fall {s : Debugger} (x : Wires)
    (h : s.dbgu.tx_chr_start = true → s.dbgu.state ≠ 0) : ¬ Pending (fall x s) := by
  rintro ⟨ht', hb'⟩
  change s.u1.bsy = true at hb'
  rcases negedge_cases x.signals s.gen1.pulse s.mem_d s.u1.bsy s.dbgu with
    ⟨hd, hb, -⟩ | ⟨hd, hb, -⟩ | ⟨hd, hb, -⟩ | ⟨hd, hb, hf⟩ | ⟨hd, hp, hf⟩ | ⟨hd, hp, hf⟩
  · simp [hb] at hb'
  · simp [hb] at hb'
  · simp [hb] at hb'
  · rw [fall, hf] at ht'
    cases ht'
  · rw [fall, hf] at ht'
    exact h ht' hd
  · rw [fall, hf] at ht'
    exact h ht' hd

theorem start_next {s : Debugger} (a : Edge)
    (h : s.dbgu.tx_chr_start = true → s.dbgu.state ≠ 0) :
    (next s a).dbgu.tx_chr_start = true → (next s a).dbgu.state ≠ 0 := by
  cases a with
  | main x =>
    cases hclk : s.clk_in with
    | false => simpa [next, hclk, rise] using h
    | true => simpa [next, hclk] using start_fall x h
  | bit => exact h

theorem main_falls {p : Prescaler} {s : Debugger} (hlevel : s.clk_in = p.a.clkout)
    (hne : p.a.clkout ≠ p.posedge.a.clkout) :
    s.clk_in = Divider.falls (F_IN/F_OUT_A) p.a := by
  rw [hlevel, Divider.falls]
  change p.a.clkout = (p.a.clkout && !p.posedge.a.clkout)
  revert hne
  cases p.a.clkout <;> cases p.posedge.a.clkout <;> simp

theorem after_main {p : Prescaler} {s : Debugger} (x : Wires) (hlevel : s.clk_in = p.a.clkout)
    (hstart : s.dbgu.tx_chr_start = true → s.dbgu.state ≠ 0) :
    (after s (mainEdges p x)).clk_in = p.posedge.a.clkout ∧
    ((after s (mainEdges p x)).dbgu.tx_chr_start = true →
      (after s (mainEdges p x)).dbgu.state ≠ 0) ∧
    (Pending (after s (mainEdges p x)) →
      Pending s ∧ Divider.falls (F_IN/F_OUT_A) p.a = false) := by
  unfold mainEdges
  split
  · rename_i heq
    refine ⟨hlevel.trans heq, hstart, fun h => ⟨h, ?_⟩⟩
    rw [Divider.falls]
    change (p.a.clkout && !p.posedge.a.clkout) = false
    rw [← heq]
    cases p.a.clkout <;> rfl
  · rename_i hne
    have hfalls := main_falls hlevel hne
    refine ⟨?_, start_next (.main x) hstart, ?_⟩
    · cases hclk : s.clk_in with
      | false => simp_all [after, next, rise]
      | true => simp_all [after, next, fall]
    · cases hclk : s.clk_in with
      | false =>
        intro h
        rw [← hfalls, hclk]
        exact ⟨by simpa [after, next, hclk, rise, Pending] using h, rfl⟩
      | true =>
        intro h
        exact absurd h (by simpa [after, next, hclk] using pending_fall x hstart)

theorem mainEdges_seen (p : Prescaler) (x : Wires) (s : Debugger) :
    Meets step Seen s (mainEdges p x) := by
  unfold mainEdges
  split
  · exact Meets.nil
  · exact meets_cons.mpr ⟨trivial, fun _ _ _ => Meets.nil⟩

theorem bitEdges_seen {p : Prescaler} {s : Debugger}
    (h : Divider.rises (F_IN/F_OUT_B) p.b = true → ¬ Pending s) :
    Meets step Seen s (bitEdges p) := by
  unfold bitEdges
  split
  · rename_i hrise
    refine meets_cons.mpr ⟨fun hb _ => ?_, fun _ _ _ => Meets.nil⟩
    exact Bool.eq_false_of_not_eq_true fun ht => h hrise ⟨ht, hb⟩
  · exact Meets.nil

theorem after_bit (p : Prescaler) (s : Debugger) :
    (after s (bitEdges p)).clk_in = s.clk_in ∧ (after s (bitEdges p)).dbgu = s.dbgu := by
  unfold bitEdges
  split <;> exact ⟨rfl, rfl⟩

theorem Timed.quiet {p : Prescaler} {s : Debugger} (h : Timed p s)
    (hrise : Divider.rises (F_IN/F_OUT_B) p.b = true) : ¬ Pending s := by
  intro hpending
  have hlt := h.seen hpending
  rw [Divider.untilRise_of_rises p.b hrise] at hlt
  have hpos := Divider.untilFall_pos (F_IN/F_OUT_A) p.a
  omega

theorem timed_edges {p : Prescaler} {s : Debugger} (h : Timed p s) (i : Instant) :
    Meets step Seen s (edges p i) ∧ Timed p.posedge (after s (edges p i)) := by
  have hlater : Pending s → Divider.falls (F_IN/F_OUT_A) p.a = false →
      Divider.rises (F_IN/F_OUT_B) p.b = false →
      p.posedge.a.untilFall (F_IN/F_OUT_A) < p.posedge.b.untilRise (F_IN/F_OUT_B) := by
    intro hpending hfalls hrises
    have hlt := h.seen hpending
    have hlow := Divider.untilFall_posedge p.a (by decide) (by decide) hfalls
    have hhigh := Divider.untilRise_posedge p.b (by decide) (by decide) hrises
    change p.posedge.a.untilFall (F_IN/F_OUT_A)+1 = _ at hlow
    change p.posedge.b.untilRise (F_IN/F_OUT_B)+1 = _ at hhigh
    omega
  have hafter : Divider.rises (F_IN/F_OUT_B) p.b = true →
      p.posedge.a.untilFall (F_IN/F_OUT_A) < p.posedge.b.untilRise (F_IN/F_OUT_B) := by
    intro hrise
    have hlow := Divider.untilFall_le p.posedge.a (show 2 ≤ F_IN/F_OUT_A by decide)
    have hhigh := Divider.untilRise_after p.b (by decide) (by decide) hrise
    change F_IN/F_OUT_B/2+1 ≤ p.posedge.b.untilRise (F_IN/F_OUT_B) at hhigh
    have hratios : F_IN/F_OUT_A+2 < F_IN/F_OUT_B/2+1 := by decide
    omega
  unfold edges
  split
  · obtain ⟨hlevel, hstart, hkept⟩ := after_main i.wires h.level h.start
    have hbit := after_bit p (after s (mainEdges p i.wires))
    rw [after_append, meets_append]
    refine ⟨⟨mainEdges_seen p i.wires s, bitEdges_seen fun hr hp => h.quiet hr (hkept hp).1⟩, ?_⟩
    refine ⟨hbit.1.trans hlevel, hbit.2 ▸ hstart, fun hp => ?_⟩
    cases hr : Divider.rises (F_IN/F_OUT_B) p.b with
    | true => exact hafter hr
    | false =>
      rw [bitEdges, hr] at hp
      obtain ⟨hpending, hfalls⟩ := hkept hp
      exact hlater hpending hfalls hr
  · have hbit := after_bit p s
    obtain ⟨hlevel, hstart, hkept⟩ := after_main i.wires (hbit.1.trans h.level) (hbit.2 ▸ h.start)
    rw [after_append, meets_append]
    refine ⟨⟨bitEdges_seen h.quiet, mainEdges_seen p i.wires _⟩, hlevel, hstart, fun hp => ?_⟩
    cases hr : Divider.rises (F_IN/F_OUT_B) p.b with
    | true => exact hafter hr
    | false =>
      obtain ⟨hpending, hfalls⟩ := hkept hp
      rw [bitEdges, hr] at hpending
      exact hlater hpending hfalls hr

/-- Whatever the counters of the prescaler hold at first, no character is over
before the unit has seen the transmitter busy. -/
theorem clocked_seen {p : Prescaler} {s : Debugger} (h : Timed p s) (is : List Instant) :
    Meets step Seen s (clocked p is) := by
  induction is generalizing p s with
  | nil => exact Meets.nil
  | cons i is ih =>
    obtain ⟨hseen, hnext⟩ := timed_edges h i
    exact meets_append.mpr ⟨hseen, ih hnext⟩

theorem timed_reset (p : Prescaler) (gen1 : PulseGen) (mem_d : Byte) :
    Timed p (reset p.a.clkout gen1 mem_d) :=
  ⟨rfl, fun h => absurd h Bool.false_ne_true, fun h => absurd h.1 Bool.false_ne_true⟩

/-- What a report still needs: seventeen steps for each character to come, and
those of the character that is being sent. -/
def left (s : Debugger) : ℕ :=
  17*(87-s.dbgu.state.toNat)+
    match s.dbgu.tx_chr_start, s.u1.bsy with
    | false, false => 1
    | true, false => 17
    | true, true => 16
    | false, true => 15-s.u1.state.toNat

def needs (s : Debugger) : Edge → Bool
  | .main _ => s.clk_in && s.dbgu.tx_chr_start == s.u1.bsy
  | .bit => s.dbgu.tx_chr_start != s.u1.bsy

def Same (s t : Debugger) : Prop := t.dbgu = s.dbgu ∧ t.u1 = s.u1

def Done (s : Debugger) : Prop :=
  s.dbgu.state = 0 ∧ s.dbgu.tx_chr_start = false ∧ s.u1.bsy = false

theorem left_fall {s : Debugger} {r : Listener 8} {taken : List Byte} (x : Wires)
    (hu : Follows s.u1 r taken) (hs : s.dbgu.state ≠ 0) (hclk : s.clk_in = true) :
    Done (fall x s) ∨ (fall x s).dbgu.state ≠ 0 ∧
      (left (fall x s) < left s ∨ Same s (fall x s) ∧ needs s (.main x) = false) := by
  rcases negedge_cases x.signals s.gen1.pulse s.mem_d s.u1.bsy s.dbgu with
    ⟨hd, hb, ht, hle, hf⟩ | ⟨hd, hb, ht, hlt, hf⟩ | ⟨hd, hb, ht, hf⟩ | ⟨hd, hb, hf⟩ |
    ⟨hd, hp, hf⟩ | ⟨hd, hp, hf⟩
  · have hdbgu : (fall x s).dbgu = { s.dbgu.spell x.signals s.mem_d with
        state := s.dbgu.state+1, tx_chr_start := true } := hf
    refine .inr ⟨hdbgu ▸ state_succ_ne hle, .inl ?_⟩
    have hnext := state_succ hle
    have hu1 : (fall x s).u1 = s.u1 := rfl
    simp only [left, hdbgu, hu1, hb, ht, hnext]
    rw [LAST_STATE] at hle
    omega
  · refine .inl ⟨?_, ?_, hb⟩
    · rw [fall, hf]
    · rw [fall, hf]
      exact (spell_frame x.signals s.mem_d s.dbgu).2.2.trans ht
  · refine .inr ⟨by rwa [fall, hf], .inr ⟨⟨hf, rfl⟩, ?_⟩⟩
    simp [needs, hclk, hb, ht]
  · refine .inr ⟨by rwa [fall, hf], ?_⟩
    cases ht : s.dbgu.tx_chr_start with
    | true =>
      have hdbgu : (fall x s).dbgu = { s.dbgu with tx_chr_start := false } := hf
      have hu1 : (fall x s).u1 = s.u1 := rfl
      have hpos := hu.state_pos hb
      left
      simp only [left, hdbgu, hu1, hb, ht]
      omega
    | false =>
      right
      refine ⟨⟨hf.trans ?_, rfl⟩, by simp [needs, hclk, hb, ht]⟩
      rw [← ht]
  · exact absurd hd hs
  · exact absurd hd hs

theorem left_tick {s : Debugger} {r : Listener 8} {taken : List Byte}
    (hu : Follows s.u1 r taken) (hp : ¬ Pending s) :
    left (tick s) < left s ∨ Same s (tick s) ∧ needs s .bit = false := by
  have hdbgu : (tick s).dbgu = s.dbgu := rfl
  have hu1 : (tick s).u1 = UartTransmitter.posedge s.dbgu.tx_chr_start s.dbgu.p_out s.u1 := rfl
  cases hb : s.u1.bsy with
  | false =>
    have hfree := hu.posedge_free hb s.dbgu.tx_chr_start s.dbgu.p_out
    cases ht : s.dbgu.tx_chr_start with
    | false =>
      rw [ht, if_neg Bool.false_ne_true] at hfree
      exact .inr ⟨⟨rfl, hu1.trans (ht ▸ hfree)⟩, by simp [needs, hb, ht]⟩
    | true =>
      rw [if_pos ht] at hfree
      have hbusy : (tick s).u1.bsy = true := by rw [hu1, hfree]
      simp only [left, hdbgu, hbusy, hb, ht]
      omega
  | true =>
    have ht : s.dbgu.tx_chr_start = false := Bool.eq_false_of_not_eq_true fun ht => hp ⟨ht, hb⟩
    left
    rcases hu.posedge_busy hb s.dbgu.tx_chr_start s.dbgu.p_out with
      ⟨h13, hfree⟩ | ⟨hlt, hbusy, hnext⟩
    · rw [← hu1] at hfree
      simp only [left, hdbgu, hfree, hb, ht, h13]
      omega
    · rw [← hu1] at hbusy hnext
      simp only [left, hdbgu, hbusy, hb, ht, hnext]
      omega

theorem left_next {s : Debugger} {r : Listener 8} {taken : List Byte} (a : Edge)
    (hu : Follows s.u1 r taken) (hs : s.dbgu.state ≠ 0) (hp : a = .bit → ¬ Pending s) :
    Done (next s a) ∨ (next s a).dbgu.state ≠ 0 ∧
      (left (next s a) < left s ∨ Same s (next s a) ∧ needs s a = false) := by
  cases a with
  | main x =>
    cases hclk : s.clk_in with
    | false => exact .inr (by simpa [next, hclk, rise, needs, Same] using hs)
    | true => simpa [next, hclk] using left_fall x hu hs hclk
  | bit => exact .inr ⟨hs, left_tick hu (hp rfl)⟩

theorem done_bit {s : Debugger} {r : Listener 8} {taken : List Byte} (hu : Follows s.u1 r taken)
    (h : Done s) : Done (tick s) := by
  refine ⟨h.1, h.2.1, ?_⟩
  have hfree := hu.posedge_free h.2.2 s.dbgu.tx_chr_start s.dbgu.p_out
  rw [h.2.1, if_neg Bool.false_ne_true] at hfree
  rw [tick, h.2.1, hfree]
  exact h.2.2

def Forward (s t : Debugger) : Prop := Done t ∨ t.dbgu.state ≠ 0 ∧ left t < left s

theorem Same.left_eq {s t : Debugger} (h : Same s t) : left t = left s := by
  simp only [left, h.1, h.2]

theorem forward_main {p : Prescaler} {s : Debugger} {r : Listener 8} {taken : List Byte}
    (x : Wires) (hlevel : s.clk_in = p.a.clkout) (hu : Follows s.u1 r taken)
    (hs : s.dbgu.state ≠ 0) :
    Forward s (after s (mainEdges p x)) ∨ Same s (after s (mainEdges p x)) ∧
      (s.dbgu.tx_chr_start = s.u1.bsy → Divider.falls (F_IN/F_OUT_A) p.a = false) := by
  unfold mainEdges
  split
  · rename_i heq
    refine .inr ⟨⟨rfl, rfl⟩, fun _ => ?_⟩
    rw [Divider.falls]
    change (p.a.clkout && !p.posedge.a.clkout) = false
    rw [← heq]
    cases p.a.clkout <;> rfl
  · rename_i hne
    rw [← main_falls hlevel hne]
    rcases left_next (.main x) hu hs (fun h => by cases h) with h | ⟨hstate, h | ⟨h, hneeds⟩⟩
    · exact .inl (.inl h)
    · exact .inl (.inr ⟨hstate, h⟩)
    · refine .inr ⟨h, fun heq => ?_⟩
      simpa [needs, heq] using hneeds

theorem forward_bit {p : Prescaler} {s : Debugger} {r : Listener 8} {taken : List Byte}
    (hp : Divider.rises (F_IN/F_OUT_B) p.b = true → ¬ Pending s) (hu : Follows s.u1 r taken)
    (hs : s.dbgu.state ≠ 0) :
    Forward s (after s (bitEdges p)) ∨ Same s (after s (bitEdges p)) ∧
      (s.dbgu.tx_chr_start ≠ s.u1.bsy → Divider.rises (F_IN/F_OUT_B) p.b = false) := by
  unfold bitEdges
  split
  · rename_i hrise
    rcases left_next .bit hu hs (fun _ => hp hrise) with h | ⟨hstate, h | ⟨h, hneeds⟩⟩
    · exact .inl (.inl h)
    · exact .inl (.inr ⟨hstate, h⟩)
    · refine .inr ⟨h, fun hne => absurd ?_ hne⟩
      simpa [needs] using hneeds
  · rename_i hrise
    exact .inr ⟨⟨rfl, rfl⟩, fun _ => Bool.eq_false_of_not_eq_true hrise⟩

theorem follows_after {s : Debugger} {r : Listener 8} {taken : List Byte}
    (hu : Follows s.u1 r taken) (as : List Edge) :
    ∃ r' taken', Follows (after s as).u1 r' taken' := by
  induction as generalizing s r taken with
  | nil => exact ⟨r, taken, hu⟩
  | cons a as ih => exact ih (line_step hu a)

theorem Forward.bit {p : Prescaler} {s m : Debugger} {r : Listener 8} {taken : List Byte}
    (h : Forward s m) (hp : Divider.rises (F_IN/F_OUT_B) p.b = true → ¬ Pending m)
    (hu : Follows m.u1 r taken) : Forward s (after m (bitEdges p)) := by
  rcases h with h | ⟨hstate, hlt⟩
  · refine .inl ?_
    unfold bitEdges
    split
    · exact done_bit hu h
    · exact h
  · rcases forward_bit hp hu hstate with (hd | ⟨hstate', hlt'⟩) | ⟨hsame, -⟩
    · exact .inl hd
    · exact .inr ⟨hstate', hlt'.trans hlt⟩
    · exact .inr ⟨hsame.1 ▸ hstate, hsame.left_eq ▸ hlt⟩

theorem Forward.main {p : Prescaler} {s b : Debugger} {r : Listener 8} {taken : List Byte}
    (x : Wires) (h : b.dbgu.state ≠ 0 ∧ left b < left s) (hlevel : b.clk_in = p.a.clkout)
    (hu : Follows b.u1 r taken) : Forward s (after b (mainEdges p x)) := by
  obtain ⟨hstate, hlt⟩ := h
  rcases forward_main x hlevel hu hstate with (hd | ⟨hstate', hlt'⟩) | ⟨hsame, -⟩
  · exact .inl hd
  · exact .inr ⟨hstate', hlt'.trans hlt⟩
  · exact .inr ⟨hsame.1 ▸ hstate, hsame.left_eq ▸ hlt⟩

theorem forward_edges {p : Prescaler} {s : Debugger} {r : Listener 8} {taken : List Byte}
    (h : Timed p s) (hu : Follows s.u1 r taken) (hs : s.dbgu.state ≠ 0) (i : Instant) :
    Forward s (after s (edges p i)) ∨ Same s (after s (edges p i)) ∧
      (s.dbgu.tx_chr_start = s.u1.bsy → Divider.falls (F_IN/F_OUT_A) p.a = false) ∧
      (s.dbgu.tx_chr_start ≠ s.u1.bsy → Divider.rises (F_IN/F_OUT_B) p.b = false) := by
  unfold edges
  split
  · obtain ⟨hlevel, hstart, hkept⟩ := after_main i.wires h.level h.start
    obtain ⟨r', taken', hu'⟩ := follows_after hu (mainEdges p i.wires)
    have hquiet : Divider.rises (F_IN/F_OUT_B) p.b = true →
        ¬ Pending (after s (mainEdges p i.wires)) := fun hr hp => h.quiet hr (hkept hp).1
    rw [after_append]
    rcases forward_main i.wires h.level hu hs with hm | ⟨hm, hfalls⟩
    · exact .inl (hm.bit hquiet hu')
    · rcases forward_bit hquiet hu' (hm.1 ▸ hs) with (hb | ⟨hb, hlt⟩) | ⟨hb, hrises⟩
      · exact .inl (.inl hb)
      · exact .inl (.inr ⟨hb, hm.left_eq ▸ hlt⟩)
      · rw [hm.1, hm.2] at hrises
        exact .inr ⟨⟨hb.1.trans hm.1, hb.2.trans hm.2⟩, hfalls, hrises⟩
  · have hbit := after_bit p s
    obtain ⟨r', taken', hu'⟩ := follows_after hu (bitEdges p)
    rw [after_append]
    rcases forward_bit h.quiet hu hs with hb | ⟨hb, hrises⟩
    · rcases hb with hd | hb
      · exact absurd (hbit.2 ▸ hd.1) hs
      · exact .inl (Forward.main i.wires hb (hbit.1.trans h.level) hu')
    · rcases forward_main i.wires (hbit.1.trans h.level) hu' (hb.1 ▸ hs) with
        (hm | ⟨hm, hlt⟩) | ⟨hm, hfalls⟩
      · exact .inl (.inl hm)
      · exact .inl (.inr ⟨hm, hb.left_eq ▸ hlt⟩)
      · rw [hb.1, hb.2] at hfalls
        exact .inr ⟨⟨hm.1.trans hb.1, hm.2.trans hb.2⟩, hfalls, hrises⟩

/-- How many edges of the input clock the report takes at most. -/
def potential (p : Prescaler) (s : Debugger) : ℕ :=
  left s*1630+if s.dbgu.tx_chr_start = s.u1.bsy then p.a.untilFall (F_IN/F_OUT_A)
    else p.b.untilRise (F_IN/F_OUT_B)

theorem potential_le (p : Prescaler) (s : Debugger) : potential p s ≤ left s*1630+1629 := by
  have ha := Divider.untilFall_le p.a (show 2 ≤ F_IN/F_OUT_A by decide)
  have hb := Divider.untilRise_le p.b (show 2 ≤ F_IN/F_OUT_B by decide)
  have hratios : F_IN/F_OUT_A+2 ≤ 1629 ∧ F_IN/F_OUT_B+F_IN/F_OUT_B/2+2 ≤ 1629 := by decide
  unfold potential
  split <;> omega

theorem potential_edges {p : Prescaler} {s : Debugger} {r : Listener 8} {taken : List Byte}
    (h : Timed p s) (hu : Follows s.u1 r taken) (hs : s.dbgu.state ≠ 0) (i : Instant) :
    Done (after s (edges p i)) ∨ (after s (edges p i)).dbgu.state ≠ 0 ∧
      potential p.posedge (after s (edges p i)) < potential p s := by
  rcases forward_edges h hu hs i with (hd | ⟨hstate, hlt⟩) | ⟨hsame, hfalls, hrises⟩
  · exact .inl hd
  · refine .inr ⟨hstate, ?_⟩
    have hle := potential_le p.posedge (after s (edges p i))
    have hleft : left s*1630 ≤ potential p s := Nat.le_add_right _ _
    omega
  · refine .inr ⟨hsame.1 ▸ hs, ?_⟩
    rw [potential, potential, hsame.left_eq, hsame.1, hsame.2]
    split
    · rename_i heq
      have hnext := Divider.untilFall_posedge p.a (by decide) (by decide) (hfalls heq)
      change p.posedge.a.untilFall (F_IN/F_OUT_A)+1 = _ at hnext
      omega
    · rename_i hne
      have hnext := Divider.untilRise_posedge p.b (by decide) (by decide) (hrises hne)
      change p.posedge.b.untilRise (F_IN/F_OUT_B)+1 = _ at hnext
      omega

theorem clocked_append (p : Prescaler) (is js : List Instant) :
    clocked p (is++js) = clocked p is++clocked (Prescaler.posedge^[is.length] p) js := by
  induction is generalizing p with
  | nil => rfl
  | cons i is ih =>
    rw [List.cons_append, clocked, ih, clocked, List.append_assoc, List.length_cons,
      Function.iterate_succ_apply]

theorem timed_clocked {p : Prescaler} {s : Debugger} (h : Timed p s) (is : List Instant) :
    Timed (Prescaler.posedge^[is.length] p) (after s (clocked p is)) := by
  induction is generalizing p s with
  | nil => exact h
  | cons i is ih =>
    rw [clocked, after_append, List.length_cons, Function.iterate_succ_apply]
    exact ih (timed_edges h i).2

/-- A report that has been started is done before the input clock has made as
many edges as the potential says. -/
theorem done_within {p : Prescaler} {s : Debugger} {r : Listener 8} {taken : List Byte}
    (h : Timed p s) (hu : Follows s.u1 r taken) (hs : s.dbgu.state ≠ 0) (is : List Instant)
    (hlength : potential p s ≤ is.length) :
    ∃ first rest, is = first++rest ∧ Done (after s (clocked p first)) := by
  induction is generalizing p s r taken with
  | nil =>
    have ha := Divider.untilFall_pos (F_IN/F_OUT_A) p.a
    have hb := Divider.untilRise_pos (F_IN/F_OUT_B) p.b
    have hpos : 0 < potential p s := by
      unfold potential
      split <;> omega
    exact absurd hlength (Nat.not_le.mpr hpos)
  | cons i is ih =>
    rcases potential_edges h hu hs i with hd | ⟨hstate, hlt⟩
    · exact ⟨[i], is, rfl, by rwa [clocked, clocked, List.append_nil]⟩
    · obtain ⟨r', taken', hu'⟩ := follows_after hu (edges p i)
      rw [List.length_cons] at hlength
      obtain ⟨first, rest, rfl, hd⟩ := ih (timed_edges h i).2 hu' hstate (by omega)
      exact ⟨i::first, rest, rfl, by rwa [clocked, after_append]⟩

/-- On the board the line carries the reports, whatever the prescaler holds when
the unit is reset and whichever clock is seen first where both change at once. -/
theorem board_line (p : Prescaler) (gen1 : PulseGen) (mem_d : Byte) (w : Wires)
    (is : List Instant) (hsteady : Steady (reset p.a.clkout gen1 mem_d) w (clocked p is))
    (s : Debugger) (es : List Event)
    (hr : run step (clocked p is) (reset p.a.clkout gen1 mem_d) = some (s, es)) :
    ((Listener.quiet 8).listen (levels es)).received <+: (started es).flatMap text ∧
      (s.dbgu.state = 0 → s.u1.bsy = false →
        ((Listener.quiet 8).listen (levels es)).received = (started es).flatMap text) :=
  received_reports (clocked_seen (timed_reset p gen1 mem_d) is) hsteady hr

/-- Counters from which both edges of the main clock follow at once. -/
def overrun : Prescaler := ⟨⟨200, false⟩, ⟨0, false⟩, ⟨0, false⟩⟩

theorem clocked_constant (p : Prescaler) (n : ℕ) (w : Wires) (first : Bool) :
    ∀ a ∈ clocked p (List.replicate n ⟨w, first⟩), a = .main w ∨ a = .bit := by
  have hmain : ∀ (p : Prescaler) (a : Edge), a ∈ mainEdges p w → a = .main w := by
    intro p a
    unfold mainEdges
    split <;> simp
  have hbit : ∀ (p : Prescaler) (a : Edge), a ∈ bitEdges p → a = .bit := by
    intro p a
    unfold bitEdges
    split <;> simp
  induction n generalizing p with
  | zero => exact fun a ha => absurd ha List.not_mem_nil
  | succ n ih =>
    intro a ha
    rw [List.replicate_succ, clocked, List.mem_append, edges] at ha
    rcases ha with ha | ha
    · split at ha <;> rcases List.mem_append.mp ha with ha | ha
      · exact .inl (hmain p a ha)
      · exact .inr (hbit p a ha)
      · exact .inr (hbit p a ha)
      · exact .inl (hmain p a ha)
    · exact ih p.posedge a ha

/-- Five million edges of the input clock, with the trigger held. -/
theorem board_line_held : ∃ s es,
    run step (clocked overrun (List.replicate 5000000 ⟨raised, true⟩))
      (reset false ⟨0, false, false⟩ 0) = some (s, es) ∧
    ((Listener.quiet 8).listen (levels es)).received <+: (started es).flatMap text ∧
    (s.dbgu.state = 0 → s.u1.bsy = false →
      ((Listener.quiet 8).listen (levels es)).received = (started es).flatMap text) := by
  obtain ⟨es, hr⟩ := run_after (clocked overrun (List.replicate 5000000 ⟨raised, true⟩))
    (reset false ⟨0, false, false⟩ 0)
  exact ⟨_, es, hr, board_line overrun ⟨0, false, false⟩ 0 raised _
    (steady_constant raised _ (clocked_constant overrun 5000000 raised true) _) _ es hr⟩

theorem left_le {s : Debugger} (hs : s.dbgu.state ≠ 0) : left s ≤ 1479 := by
  have hpos : 1 ≤ s.dbgu.state.toNat := by
    rw [Nat.one_le_iff_ne_zero]
    exact fun h0 => hs (BitVec.toNat_inj.mp h0)
  unfold left
  split <;> omega

/-- A report that was started is complete, with its last character on the line,
within 2412399 edges of the input clock. -/
theorem report_finishes (p : Prescaler) (gen1 : PulseGen) (mem_d : Byte) (is js : List Instant)
    (hs : (after (reset p.a.clkout gen1 mem_d) (clocked p is)).dbgu.state ≠ 0)
    (hlength : 2412399 ≤ js.length) :
    ∃ first rest, js = first++rest ∧
      Done (after (reset p.a.clkout gen1 mem_d) (clocked p (is++first))) := by
  have htimed := timed_clocked (timed_reset p gen1 mem_d) is
  obtain ⟨r, taken, hu⟩ := follows_after (s := reset p.a.clkout gen1 mem_d)
    UartTransmitter.follows_reset (clocked p is)
  have hpotential := potential_le (Prescaler.posedge^[is.length] p)
    (after (reset p.a.clkout gen1 mem_d) (clocked p is))
  have hleft := left_le hs
  obtain ⟨first, rest, hjs, hd⟩ := done_within htimed hu hs js (by omega)
  exact ⟨first, rest, hjs, by rwa [clocked_append, after_append]⟩

theorem report_finishes_held : ∃ first rest,
    List.replicate 2412399 ⟨raised, true⟩ = first++rest ∧
      Done (after (reset false ⟨0, false, false⟩ 0)
        (clocked overrun (List.replicate 2 ⟨raised, true⟩++first))) :=
  report_finishes overrun ⟨0, false, false⟩ 0 (List.replicate 2 ⟨raised, true⟩)
    (List.replicate 2412399 ⟨raised, true⟩) (by decide) (List.length_replicate).ge

end Semestr4.DebugTiming
