import Semestr4.DebugReport

/-!
# One report for each trigger

The pulse lasts for a hundred and one edges of the main clock, so that the unit
still sees it long after it has begun its report. A report needs two edges for
each of its characters, and is never over before the pulse is.
-/

set_option autoImplicit false

namespace Semestr4.DebugTrigger
open Semestr4.ScheduledRun Semestr4.DebugUnit Semestr4.DebugReport
open Semestr4.UartTransmitter (Byte)

def triggers (s : Debugger) : Edge → Bool
  | .main x => !s.clk_in && !s.gen1.prevstate && x.trig
  | .bit => false

def triggered : Debugger → List Edge → ℕ
  | _, [] => 0
  | s, a::as => (if triggers s a then 1 else 0)+triggered (next s a) as

/-- The trigger rises only while the unit is free and the last pulse is over. -/
def Apart (s : Debugger) (a : Edge) : Prop :=
  triggers s a = true → s.dbgu.state = 0 ∧ s.gen1.pulse = false

instance decidableApart (s : Debugger) (a : Edge) : Decidable (Apart s a) :=
  inferInstanceAs (Decidable (_ → _))

def unanswered (s : Debugger) : ℕ := if s.dbgu.state = 0 ∧ s.gen1.pulse = true then 1 else 0

structure Within (s : Debugger) : Prop where
  cntr : s.gen1.cntr.toNat ≤ 100
  state : s.dbgu.state ≠ 0 → 2*s.dbgu.state.toNat+(if s.dbgu.tx_chr_start then 0 else 1) ≤
    s.gen1.cntr.toNat+(if s.clk_in then 2 else 3)
  waiting : s.dbgu.state = 0 → s.clk_in = true ∧ s.gen1.cntr = 0

structure Pulsed (s : Debugger) : Prop where
  start : s.dbgu.state = 0 → s.dbgu.tx_chr_start = false
  within : s.gen1.pulse = true → Within s

theorem posedge_cases (trig : Bool) (g : PulseGen) :
    (g.prevstate = false ∧ trig = true ∧ g.posedge trig = ⟨0, true, true⟩) ∨
    ((g.prevstate = true ∨ trig = false) ∧ g.cntr.toNat < 100 ∧
      g.posedge trig = ⟨g.cntr+1, g.pulse, trig⟩) ∨
    ((g.prevstate = true ∨ trig = false) ∧ 100 ≤ g.cntr.toNat ∧
      g.posedge trig = ⟨0, false, trig⟩) := by
  have hlt : g.cntr < 100 ↔ g.cntr.toNat < 100 := by
    rw [BitVec.lt_def]
    rfl
  by_cases h : (!g.prevstate && trig) = true
  · refine .inl ?_
    simp only [Bool.and_eq_true, Bool.not_eq_true'] at h
    simp [PulseGen.posedge, h]
  · have hno : g.prevstate = true ∨ trig = false := by
      cases hp : g.prevstate <;> cases trig <;> simp [hp] at h ⊢
    refine .inr ?_
    unfold PulseGen.posedge
    rw [if_neg h]
    by_cases hc : g.cntr < 100
    · exact .inl ⟨hno, hlt.mp hc, by rw [if_pos hc]⟩
    · exact .inr ⟨hno, Nat.not_lt.mp (mt hlt.mpr hc), by rw [if_neg hc]⟩

theorem unanswered_busy {s : Debugger} (h : s.dbgu.state ≠ 0) : unanswered s = 0 :=
  if_neg fun hu => h hu.1

theorem unanswered_quiet {s : Debugger} (h : s.gen1.pulse = false) : unanswered s = 0 :=
  if_neg fun hu => Bool.false_ne_true (h.symm.trans hu.2)

theorem pulsed_bit {s : Debugger} (h : Pulsed s) : Pulsed (tick s) :=
  ⟨h.start, fun hp => ⟨(h.within hp).cntr, (h.within hp).state, (h.within hp).waiting⟩⟩

theorem pulsed_rise {s : Debugger} (x : Wires) (h : Pulsed s) (hclk : s.clk_in = false)
    (ha : Apart s (.main x)) :
    Pulsed (rise x s) ∧
      unanswered (rise x s) = unanswered s+(if triggers s (.main x) then 1 else 0) := by
  have hwaiting : s.gen1.pulse = true → s.dbgu.state ≠ 0 := fun hp h0 =>
    Bool.false_ne_true (hclk.symm.trans ((h.within hp).waiting h0).1)
  rcases posedge_cases x.trig s.gen1 with ⟨hprev, htrig, hg⟩ | ⟨hno, hlt, hg⟩ | ⟨hno, hge, hg⟩
  · have htriggers : triggers s (.main x) = true := by simp [triggers, hclk, hprev, htrig]
    obtain ⟨hstate, hpulse⟩ := ha htriggers
    refine ⟨⟨h.start, fun _ => ⟨?_, ?_, ?_⟩⟩, ?_⟩
    · simp [rise, hg]
    · exact fun hne => absurd hstate hne
    · exact fun _ => ⟨rfl, by simp [rise, hg]⟩
    · simp [unanswered, rise, hg, hstate, hpulse, htriggers]
  · have htriggers : triggers s (.main x) = false := by
      rcases hno with hno | hno <;> simp [triggers, hno]
    refine ⟨⟨h.start, fun hp => ?_⟩, ?_⟩
    · have hp : s.gen1.pulse = true := by simpa [rise, hg] using hp
      have hw := h.within hp
      have hcntr : (s.gen1.cntr+1).toNat = s.gen1.cntr.toNat+1 := by
        rw [BitVec.toNat_add, show (1 : BitVec 33).toNat = 1 from rfl]
        omega
      have hstate := hw.state (hwaiting hp)
      rw [hclk, if_neg Bool.false_ne_true] at hstate
      refine ⟨?_, fun _ => ?_, fun h0 => absurd h0 (hwaiting hp)⟩
      · simp only [rise, hg, hcntr]
        omega
      · simp only [rise, hg, hcntr, if_true]
        omega
    · simp [unanswered, rise, hg, htriggers]
  · have htriggers : triggers s (.main x) = false := by
      rcases hno with hno | hno <;> simp [triggers, hno]
    refine ⟨⟨h.start, fun hp => ?_⟩, ?_⟩
    · exact absurd hp (by simp [rise, hg])
    · have hnone : unanswered s = 0 := if_neg fun hu => hwaiting hu.2 hu.1
      rw [hnone, htriggers, unanswered_quiet (by simp [rise, hg])]
      rfl

theorem pulsed_busy {s : Debugger} {x : Wires} {d : Dbgu} (h : Pulsed s) (hclk : s.clk_in = true)
    (hf : (fall x s).dbgu = d) (hs : s.dbgu.state ≠ 0) (hd : d.state ≠ 0)
    (hstate : 2*d.state.toNat+(if d.tx_chr_start then 0 else 1) ≤
      2*s.dbgu.state.toNat+(if s.dbgu.tx_chr_start then 0 else 1)+1) :
    Pulsed (fall x s) ∧
      (if starts s then 1 else 0)+unanswered (fall x s) = unanswered s := by
  have hstarts : starts s = false := by simpa [starts] using fun h0 => absurd h0 hs
  refine ⟨⟨fun h0 => absurd (hf ▸ h0) hd, fun hp => ?_⟩, ?_⟩
  · have hw := h.within hp
    have hbound := hw.state hs
    rw [hclk, if_pos rfl] at hbound
    refine ⟨hw.cntr, fun _ => ?_, fun h0 => absurd (hf ▸ h0) hd⟩
    rw [hf]
    change _ ≤ s.gen1.cntr.toNat+3
    omega
  · have hd' : (fall x s).dbgu.state ≠ 0 := hf.symm ▸ hd
    rw [hstarts, unanswered_busy hs, unanswered_busy hd']
    rfl

theorem pulsed_fall {s : Debugger} (x : Wires) (h : Pulsed s) (hclk : s.clk_in = true) :
    Pulsed (fall x s) ∧
      (if starts s then 1 else 0)+unanswered (fall x s) = unanswered s := by
  rcases negedge_cases x.signals s.gen1.pulse s.mem_d s.u1.bsy s.dbgu with
    ⟨hd, hb, ht, hle, hf⟩ | ⟨hd, hb, ht, hlt, hf⟩ | ⟨hd, hb, ht, hf⟩ | ⟨hd, hb, hf⟩ |
    ⟨hd, hp, hf⟩ | ⟨hd, hp, hf⟩
  · have hnext : (s.dbgu.state+1).toNat = s.dbgu.state.toNat+1 := by
      rw [LAST_STATE] at hle
      rw [BitVec.toNat_add, show (1 : BitVec 8).toNat = 1 from rfl]
      omega
    refine pulsed_busy h hclk hf hd (fun h0 => ?_) ?_
    · have := hnext.symm.trans (congrArg BitVec.toNat h0)
      cases this
    · simp only [hnext, ht, if_true, Bool.false_eq_true, if_false]
      omega
  · -- while the pulse lasts, the report cannot be complete
    have hpulse : s.gen1.pulse = false := by
      refine Bool.eq_false_of_not_eq_true fun hp => ?_
      have hw := h.within hp
      have hbound := hw.state hd
      have hcntr := hw.cntr
      rw [hclk, if_pos rfl] at hbound
      rw [LAST_STATE] at hlt
      omega
    refine ⟨⟨fun _ => ?_, fun hp => ?_⟩, ?_⟩
    · rw [fall, hf]
      exact (spell_frame x.signals s.mem_d s.dbgu).2.2.trans ht
    · exact absurd (hpulse.symm.trans hp) Bool.false_ne_true
    · rw [unanswered_quiet hpulse, unanswered_quiet (s := fall x s) hpulse]
      simp [starts, hpulse]
  · exact pulsed_busy h hclk hf hd hd (Nat.le_succ _)
  · refine pulsed_busy h hclk hf hd hd ?_
    simp only [Bool.false_eq_true, if_false]
    omega
  · have hw := h.within hp
    refine ⟨⟨fun h0 => ?_, fun _ => ⟨hw.cntr, fun _ => ?_, fun h0 => ?_⟩⟩, ?_⟩
    · exact absurd h0 (by simp [fall, hf])
    · have hstart := h.start hd
      simp [fall, hf, hstart]
    · exact absurd h0 (by simp [fall, hf])
    · have hstarts : starts s = true := by simp [starts, hd, hp]
      have hbusy : (fall x s).dbgu.state ≠ 0 := by simp [fall, hf]
      have hone : unanswered s = 1 := if_pos ⟨hd, hp⟩
      rw [hstarts, unanswered_busy hbusy, hone]
      rfl
  · refine ⟨⟨fun _ => ?_, fun hp' => ?_⟩, ?_⟩
    · rw [fall, hf]
      exact h.start hd
    · exact absurd (hp.symm.trans hp') Bool.false_ne_true
    · rw [unanswered_quiet hp, unanswered_quiet (s := fall x s) hp]
      simp [starts, hp]

theorem pulsed_next {s : Debugger} (a : Edge) (h : Pulsed s) (ha : Apart s a) :
    Pulsed (next s a) ∧ (started (events s a)).length+unanswered (next s a) =
      unanswered s+(if triggers s a then 1 else 0) := by
  cases a with
  | main x =>
    cases hclk : s.clk_in with
    | false =>
      rw [events_rise x s hclk]
      simpa [next, hclk, started] using pulsed_rise x h hclk ha
    | true =>
      rw [started_fall x s hclk]
      have hnone : triggers s (.main x) = false := by simp [triggers, hclk]
      have hlength : (if starts s then [x] else []).length = if starts s then 1 else 0 := by
        split <;> rfl
      rw [hnone, hlength]
      simpa [next, hclk] using pulsed_fall x h hclk
  | bit =>
    refine ⟨pulsed_bit h, ?_⟩
    have hstarted : started (events s .bit) = [] := by
      unfold events
      dsimp only
      split <;> rfl
    rw [hstarted]
    exact Nat.zero_add _

theorem pulsed_reset (clk_in : Bool) (gen1 : PulseGen) (mem_d : Byte) :
    Pulsed (reset clk_in gen1 mem_d) :=
  ⟨fun _ => rfl, fun hp => absurd hp Bool.false_ne_true⟩

theorem run_pulsed (as : List Edge) {s t : Debugger} {es : List Event} (h : Pulsed s)
    (ha : Meets step Apart s as) (hr : run step as s = some (t, es)) :
    Pulsed t ∧ (started es).length+unanswered t = unanswered s+triggered s as := by
  induction as generalizing s es with
  | nil =>
    cases hr
    exact ⟨h, Nat.zero_add _⟩
  | cons a as ih =>
    obtain ⟨u, fs, gs, ⟨⟩, hrest, rfl⟩ := run_cons.mp hr
    obtain ⟨hfirst, hlater⟩ := meets_cons.mp ha
    obtain ⟨hpulsed, hcount⟩ := pulsed_next a h hfirst
    obtain ⟨hlast, hih⟩ := ih hpulsed (hlater _ _ rfl) hrest
    refine ⟨hlast, ?_⟩
    rw [started_append, List.length_append, triggered]
    omega

/-- Every rise of the trigger that finds the unit free starts one report and no
second one, however long the pulse lasts: a report is still to be started only
between the rising edge that saw the trigger and the falling edge after it. -/
theorem one_report_each (clk_in : Bool) (gen1 : PulseGen) (mem_d : Byte) (as : List Edge)
    (hapart : Meets step Apart (reset clk_in gen1 mem_d) as) (s : Debugger) (es : List Event)
    (hr : run step as (reset clk_in gen1 mem_d) = some (s, es)) :
    (started es).length+unanswered s = triggered (reset clk_in gen1 mem_d) as ∧
      (s.clk_in = false → unanswered s = 0) := by
  obtain ⟨h, hcount⟩ := run_pulsed as (pulsed_reset clk_in gen1 mem_d) hapart hr
  refine ⟨hcount.trans (Nat.zero_add _), fun hclk => if_neg fun hu => ?_⟩
  exact Bool.false_ne_true (hclk.symm.trans ((h.within hu.2).waiting hu.1).1)

theorem opening_one_report : ∃ s es,
    run step (opening raised) (reset false ⟨0, false, false⟩ 0) = some (s, es) ∧
      (started es).length+unanswered s =
        triggered (reset false ⟨0, false, false⟩ 0) (opening raised) ∧
      (s.clk_in = false → unanswered s = 0) :=
  let ⟨s, es, hr⟩ := run_total (fun _ _ => ⟨_, _, rfl⟩) (opening raised) _
  ⟨s, es, hr, one_report_each false ⟨0, false, false⟩ 0 (opening raised)
    (by unfold opening; decide) s es hr⟩

end Semestr4.DebugTrigger
