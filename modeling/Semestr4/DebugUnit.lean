import Semestr4.CpuInstruction
import Semestr4.LevelHandshake
import Semestr4.UartTransmitter

/-!
# The debug unit and its transmitter

The unit spells out a report, one character after the other, on the falling
edges of the main clock, and the transmitter takes the characters on the rising
edges of the bit clock. The two clocks are not related: a run is any sequence of
their edges.
-/

set_option autoImplicit false

namespace Semestr4.DebugUnit
open Semestr4.ScheduledRun Semestr4.SerialFrame Semestr4.UartTransmitter
open Semestr4.CpuInstruction (Nibble Memory)

def ascii (c : Char) : Byte := BitVec.ofNat 8 c.toNat

def digit (v : Nibble) : Byte :=
  if v < 10 then v.setWidth 8+ascii '0' else v.setWidth 8-10+ascii 'A'

def high (b : Byte) : Nibble := b.extractLsb' 4 4

def low (b : Byte) : Nibble := b.extractLsb' 0 4

structure Signals where
  dbg_istate : BitVec 3
  dbg_r0 : Nibble
  dbg_r1 : Nibble
  dbg_pc : Nibble
  dbg_mem_a : Nibble
  dbg_mem_dr : Byte
  dbg_mem_dw : Byte
  deriving DecidableEq

structure PulseGen where
  cntr : BitVec 33
  pulse : Bool
  prevstate : Bool
  deriving DecidableEq

/-- The last state of the trigger is not reset. -/
def PulseGen.reset (g : PulseGen) : PulseGen := { g with cntr := 0, pulse := false }

def PulseGen.posedge (trig : Bool) (g : PulseGen) : PulseGen :=
  let g' := { g with prevstate := trig }
  if !g.prevstate && trig then { g' with pulse := true, cntr := 0 }
  else if g.cntr < 100 then { g' with cntr := g.cntr+1 }
  else { g' with cntr := 0, pulse := false }

structure Dbgu where
  bsy : Bool
  p_out : Byte
  state : Byte
  tx_chr_start : Bool
  mem_a : Nibble
  acntr : BitVec 3
  deriving DecidableEq

def Dbgu.reset : Dbgu := ⟨false, 0, 0, false, 0, 0⟩

def LAST_STATE : ℕ := 38+16*3

/-- The default branch: two digits of a byte of the memory, then a space. -/
def Dbgu.dump (mem_d : Byte) (d : Dbgu) : Dbgu :=
  let d' := match d.acntr with
    | 0#3 => { d with p_out := digit (high mem_d) }
    | 1#3 => { d with p_out := digit (low mem_d) }
    | 2#3 => { d with p_out := ascii ' ', mem_a := d.mem_a+1 }
    | _ => d
  if d.acntr < 2 then { d' with acntr := d.acntr+1 } else { d' with acntr := 0 }

def Dbgu.spell (x : Signals) (mem_d : Byte) (d : Dbgu) : Dbgu :=
  match d.state with
  | 1#8 => { d with p_out := 0xd }
  | 2#8 => { d with p_out := 0xa }
  | 3#8 => { d with p_out := ascii 'c' }
  | 4#8 => { d with p_out := ascii '=' }
  | 5#8 => { d with p_out := digit (x.dbg_istate.setWidth 4) }
  | 6#8 => { d with p_out := ascii ' ' }
  | 7#8 => { d with p_out := ascii 'r' }
  | 8#8 => { d with p_out := ascii '0' }
  | 9#8 => { d with p_out := ascii '=' }
  | 10#8 => { d with p_out := digit x.dbg_r0 }
  | 11#8 => { d with p_out := ascii ' ' }
  | 12#8 => { d with p_out := ascii 'r' }
  | 13#8 => { d with p_out := ascii '1' }
  | 14#8 => { d with p_out := ascii '=' }
  | 15#8 => { d with p_out := digit x.dbg_r1 }
  | 16#8 => { d with p_out := ascii ' ' }
  | 17#8 => { d with p_out := ascii 'p' }
  | 18#8 => { d with p_out := ascii 'c' }
  | 19#8 => { d with p_out := ascii '=' }
  | 20#8 => { d with p_out := digit x.dbg_pc }
  | 21#8 => { d with p_out := ascii ' ' }
  | 22#8 => { d with p_out := ascii 'A' }
  | 23#8 => { d with p_out := ascii '=' }
  | 24#8 => { d with p_out := digit x.dbg_mem_a }
  | 25#8 => { d with p_out := ascii ' ' }
  | 26#8 => { d with p_out := ascii 'R' }
  | 27#8 => { d with p_out := ascii '=' }
  | 28#8 => { d with p_out := digit (high x.dbg_mem_dr) }
  | 29#8 => { d with p_out := digit (low x.dbg_mem_dr) }
  | 30#8 => { d with p_out := ascii ' ' }
  | 31#8 => { d with p_out := ascii 'W' }
  | 32#8 => { d with p_out := ascii '=' }
  | 33#8 => { d with p_out := digit (high x.dbg_mem_dw) }
  | 34#8 => { d with p_out := digit (low x.dbg_mem_dw) }
  | 35#8 => { d with p_out := ascii ' ' }
  | 36#8 => { d with p_out := ascii 'M' }
  | 37#8 => { d with p_out := ascii ':' }
  | 38#8 => { d with p_out := ascii ' ', mem_a := 0, acntr := 0 }
  | _ => d.dump mem_d

def Dbgu.negedge (x : Signals) (startpulse : Bool) (mem_d : Byte) (tx_chr_bsy : Bool)
    (d : Dbgu) : Dbgu :=
  if d.state ≠ 0 then
    if tx_chr_bsy = false then
      if d.tx_chr_start = false then
        let d' := d.spell x mem_d
        if d.state.toNat ≤ LAST_STATE then
          { d' with state := d.state+1, tx_chr_start := true }
        else { d' with state := 0, bsy := false, p_out := 0 }
      else d
    else { d with tx_chr_start := false }
  else if startpulse then { d with state := 1, bsy := true }
  else d

/-- The unit, its pulse generator and transmitter, the byte at the second port of
the memory, and the level of the main clock. -/
structure Debugger where
  clk_in : Bool
  gen1 : PulseGen
  mem_d : Byte
  dbgu : Dbgu
  u1 : Uart

structure Wires where
  trig : Bool
  signals : Signals
  memory : Memory

/-- The main clock changes its level, or the bit clock rises. -/
inductive Edge where
  | main (x : Wires)
  | bit

inductive Event where
  | started (x : Wires)
  | link (e : LevelHandshake.Event Byte)
  | line (level : Bool)

/-- After the reset the clock may be at either level. -/
def reset (clk_in : Bool) (gen1 : PulseGen) (mem_d : Byte) : Debugger :=
  ⟨clk_in, gen1.reset, mem_d, Dbgu.reset, UartTransmitter.reset⟩

/-- The rising edge of the main clock: the pulse generator, and the memory reads
at the address of the unit. -/
def rise (x : Wires) (s : Debugger) : Debugger :=
  { s with clk_in := true, gen1 := s.gen1.posedge x.trig, mem_d := x.memory s.dbgu.mem_a }

def fall (x : Wires) (s : Debugger) : Debugger :=
  { s with clk_in := false,
           dbgu := s.dbgu.negedge x.signals s.gen1.pulse s.mem_d s.u1.bsy }

def tick (s : Debugger) : Debugger :=
  { s with u1 := posedge s.dbgu.tx_chr_start s.dbgu.p_out s.u1 }

def offers (s : Debugger) : Bool :=
  s.dbgu.state ≠ 0 && !s.u1.bsy && !s.dbgu.tx_chr_start && s.dbgu.state.toNat ≤ LAST_STATE

def starts (s : Debugger) : Bool := s.dbgu.state = 0 && s.gen1.pulse

def next (s : Debugger) : Edge → Debugger
  | .main x => if s.clk_in then fall x s else rise x s
  | .bit => tick s

def events (s : Debugger) : Edge → List Event
  | .main x =>
    (if s.clk_in && starts s then [.started x] else [])++
      (if s.clk_in && offers s then [.link (.offered (fall x s).dbgu.p_out)] else [])
  | .bit =>
    (if takes s.dbgu.tx_chr_start s.u1 then [.link (.taken s.dbgu.p_out)] else [])++
      [.line (tick s).u1.txline]

def step : Step Debugger Edge Event := fun s a => some (next s a, events s a)

theorem dump_frame (mem_d : Byte) (d : Dbgu) :
    (d.dump mem_d).bsy = d.bsy ∧ (d.dump mem_d).state = d.state ∧
      (d.dump mem_d).tx_chr_start = d.tx_chr_start := by
  unfold Dbgu.dump
  split <;> split <;> exact ⟨rfl, rfl, rfl⟩

theorem spell_frame (x : Signals) (mem_d : Byte) (d : Dbgu) :
    (d.spell x mem_d).bsy = d.bsy ∧ (d.spell x mem_d).state = d.state ∧
      (d.spell x mem_d).tx_chr_start = d.tx_chr_start := by
  unfold Dbgu.spell
  split
  case h_39 => exact dump_frame mem_d d
  all_goals exact ⟨rfl, rfl, rfl⟩

theorem negedge_cases (x : Signals) (pulse : Bool) (mem_d : Byte) (busy : Bool) (d : Dbgu) :
    (d.state ≠ 0#8 ∧ busy = false ∧ d.tx_chr_start = false ∧ d.state.toNat ≤ LAST_STATE ∧
      d.negedge x pulse mem_d busy =
        { d.spell x mem_d with state := d.state+1, tx_chr_start := true }) ∨
    (d.state ≠ 0#8 ∧ busy = false ∧ d.tx_chr_start = false ∧ LAST_STATE < d.state.toNat ∧
      d.negedge x pulse mem_d busy =
        { d.spell x mem_d with state := 0, bsy := false, p_out := 0 }) ∨
    (d.state ≠ 0#8 ∧ busy = false ∧ d.tx_chr_start = true ∧ d.negedge x pulse mem_d busy = d) ∨
    (d.state ≠ 0#8 ∧ busy = true ∧
      d.negedge x pulse mem_d busy = { d with tx_chr_start := false }) ∨
    (d.state = 0#8 ∧ pulse = true ∧
      d.negedge x pulse mem_d busy = { d with state := 1, bsy := true }) ∨
    (d.state = 0#8 ∧ pulse = false ∧ d.negedge x pulse mem_d busy = d) := by
  unfold Dbgu.negedge
  split
  case isFalse hs =>
    have hs : d.state = 0#8 := not_not.mp hs
    split
    case isTrue hp => exact .inr (.inr (.inr (.inr (.inl ⟨hs, hp, rfl⟩))))
    case isFalse hp => exact .inr (.inr (.inr (.inr (.inr ⟨hs, Bool.eq_false_of_not_eq_true hp, rfl⟩))))
  case isTrue hs =>
    split
    case isFalse hb => exact .inr (.inr (.inr (.inl ⟨hs, Bool.eq_true_of_not_eq_false hb, rfl⟩)))
    case isTrue hb =>
      split
      case isFalse ht => exact .inr (.inr (.inl ⟨hs, hb, Bool.eq_true_of_not_eq_false ht, rfl⟩))
      case isTrue ht =>
        dsimp only
        split
        case isTrue hle => exact .inl ⟨hs, hb, ht, hle, rfl⟩
        case isFalse hle => exact .inr (.inl ⟨hs, hb, ht, Nat.lt_of_not_le hle, rfl⟩)

def Dbgu.offered (d : Dbgu) : Option Byte := if d.tx_chr_start then some d.p_out else none

def link (s : Debugger) : LevelHandshake.Link Byte := ⟨s.dbgu.offered, s.u1.bsy⟩

def links (es : List Event) : List (LevelHandshake.Event Byte) :=
  es.filterMap fun e => match e with
    | .link e => some e
    | _ => none

def written (es : List Event) : List Byte := LevelHandshake.offers (links es)

def sent (es : List Event) : List Byte := LevelHandshake.takes (links es)

def levels (es : List Event) : List Bool :=
  es.filterMap fun e => match e with
    | .line level => some level
    | _ => none

theorem links_append (es fs : List Event) : links (es++fs) = links es++links fs :=
  List.filterMap_append

theorem written_append (es fs : List Event) : written (es++fs) = written es++written fs := by
  rw [written, links_append, LevelHandshake.offers_append, written, written]

theorem sent_append (es fs : List Event) : sent (es++fs) = sent es++sent fs := by
  rw [sent, links_append, LevelHandshake.takes_append, sent, sent]

theorem levels_append (es fs : List Event) : levels (es++fs) = levels es++levels fs :=
  List.filterMap_append

/-- The edge of the bit clock that ends a character finds the start line low. -/
def Seen (s : Debugger) : Edge → Prop
  | .main _ => True
  | .bit => s.u1.bsy = true → (tick s).u1.bsy = false → s.dbgu.tx_chr_start = false

def move (s : Debugger) : Edge → Option (LevelHandshake.Move Byte)
  | .main x =>
    if s.clk_in && s.dbgu.state ≠ 0 && s.u1.bsy then some .lower
    else if s.clk_in && offers s then some (.offer (fall x s).dbgu.p_out)
    else none
  | .bit =>
    if takes s.dbgu.tx_chr_start s.u1 then some .take
    else if s.u1.bsy && !(tick s).u1.bsy then some .finish
    else none

def Moved (s : Debugger) (a : Edge) : Option (LevelHandshake.Move Byte) → Prop
  | none => link (next s a) = link s ∧ links (events s a) = []
  | some m => LevelHandshake.step (link s) m = some (link (next s a), links (events s a))

theorem moved_fall (x : Wires) (s : Debugger) (h : s.clk_in = true) :
    Moved s (.main x) (move s (.main x)) := by
  obtain ⟨clk_in, gen1, mem_d, d, u⟩ := s
  cases h
  rcases negedge_cases x.signals gen1.pulse mem_d u.bsy d with
    ⟨hd, hb, ht, hle, h⟩ | ⟨hd, hb, ht, hlt, h⟩ | ⟨hd, hb, ht, h⟩ | ⟨hd, hb, h⟩ |
    ⟨hd, hp, h⟩ | ⟨hd, hp, h⟩
  · rw [hb] at h
    simp [move, Moved, next, events, offers, starts, link, links, Dbgu.offered, fall, h, hd, hb, ht,
      hle, LevelHandshake.step]
  · rw [hb] at h
    simp [move, Moved, next, events, offers, starts, link, links, Dbgu.offered, fall, h, hd, hb, ht,
      Nat.not_le.mpr hlt, spell_frame]
  · rw [hb] at h
    simp [move, Moved, next, events, offers, starts, link, links, Dbgu.offered, fall, h, hd, hb, ht]
  · rw [hb] at h
    simp [move, Moved, next, events, offers, starts, link, links, Dbgu.offered, fall, h, hd, hb,
      LevelHandshake.step]
  · rw [hp] at h
    simp [move, Moved, next, events, offers, starts, link, links, Dbgu.offered, fall, h, hd, hp]
  · rw [hp] at h
    simp [move, Moved, next, events, offers, starts, link, links, Dbgu.offered, fall, h, hd, hp]

theorem moved_bit {s : Debugger} {r : Listener 8} {taken : List Byte}
    (hf : Follows s.u1 r taken) : Moved s .bit (move s .bit) := by
  obtain ⟨clk_in, gen1, mem_d, d, u⟩ := s
  cases hb : u.bsy with
  | false =>
    have h := hf.posedge_free hb d.tx_chr_start d.p_out
    cases ht : d.tx_chr_start with
    | false => simp_all [move, Moved, next, events, takes, link, links, Dbgu.offered, tick]
    | true =>
      simp_all [move, Moved, next, events, takes, link, links, Dbgu.offered, tick,
        LevelHandshake.step]
  | true =>
    cases hb' : (posedge d.tx_chr_start d.p_out u).bsy with
    | false =>
      simp [move, Moved, next, events, takes, link, links, tick, hb, hb', LevelHandshake.step]
    | true => simp [move, Moved, next, events, takes, link, links, tick, hb, hb']

theorem moved {s : Debugger} {r : Listener 8} {taken : List Byte} (hf : Follows s.u1 r taken)
    (a : Edge) : Moved s a (move s a) := by
  cases a with
  | main x =>
    cases h : s.clk_in with
    | false => simp [move, Moved, next, events, link, links, rise, h]
    | true => exact moved_fall x s h
  | bit => exact moved_bit hf

theorem line_step {s : Debugger} {r : Listener 8} {taken : List Byte} (hf : Follows s.u1 r taken)
    (a : Edge) : Follows (next s a).u1 (r.listen (levels (events s a)))
      (taken++sent (events s a)) := by
  cases a with
  | main x =>
    have hu : (next s (.main x)).u1 = s.u1 := by
      unfold next
      dsimp only
      split <;> rfl
    have hevents : levels (events s (.main x)) = [] ∧ sent (events s (.main x)) = [] := by
      unfold events
      dsimp only
      split <;> split <;> exact ⟨rfl, rfl⟩
    rw [hu, hevents.1, hevents.2, List.append_nil]
    exact hf
  | bit =>
    have hlevels : levels (events s .bit) = [(tick s).u1.txline] := by
      unfold events
      dsimp only
      split <;> rfl
    have hsent : sent (events s .bit) =
        if takes s.dbgu.tx_chr_start s.u1 then [s.dbgu.p_out] else [] := by
      unfold events
      dsimp only
      split <;> rfl
    rw [hlevels, hsent]
    exact hf.posedge s.dbgu.tx_chr_start s.dbgu.p_out

variable {clk_in : Bool} {gen1 : PulseGen} {mem_d : Byte}

theorem run_line (as : List Edge) (s : Debugger) (es : List Event)
    (hr : run step as (reset clk_in gen1 mem_d) = some (s, es)) :
    Follows s.u1 ((Listener.quiet 8).listen (levels es)) (sent es) := by
  refine run_induction step (reset clk_in gen1 mem_d)
    (fun es s => Follows s.u1 ((Listener.quiet 8).listen (levels es)) (sent es))
    follows_reset ?_ as s es hr
  rintro es s a _ _ hf ⟨⟩
  rw [levels_append, Listener.listen_append, sent_append]
  exact line_step hf a

/-- A run of the two clocks is a run of the handshake. -/
theorem run_link (as : List Edge) (s : Debugger) (es : List Event)
    (hr : run step as (reset clk_in gen1 mem_d) = some (s, es)) :
    ∃ ms, run LevelHandshake.step ms LevelHandshake.free = some (link s, links es) := by
  induction as using List.reverseRecOn generalizing s es with
  | nil =>
    cases hr
    exact ⟨[], rfl⟩
  | append_singleton as a ih =>
    obtain ⟨t, fs, gs, ht, hs, rfl⟩ := run_snoc.mp hr
    cases hs
    obtain ⟨ms, hms⟩ := ih t fs ht
    have hmoved := moved (run_line as t fs ht) a
    rw [links_append]
    cases hm : move t a with
    | none =>
      rw [hm] at hmoved
      exact ⟨ms, by rw [hmoved.1, hmoved.2, List.append_nil, hms]⟩
    | some m =>
      rw [hm] at hmoved
      exact ⟨ms++[m], run_snoc.mpr ⟨link t, links fs, _, hms, hmoved, rfl⟩⟩

def standing (s : Debugger) : List Byte := LevelHandshake.standing (link s)

/-- What was sent, with the character that stands before the transmitter, is
what the unit wrote. -/
def Exact (es : List Event) (s : Debugger) : Prop := sent es++standing s = written es

/-- However the edges of the two clocks follow each other, the transmitter loses
none of the characters of the unit and keeps them in their places, though it may
take one of them more than once. -/
theorem characters_kept (clk_in : Bool) (gen1 : PulseGen) (mem_d : Byte) (as : List Edge)
    (s : Debugger) (es : List Event) (hr : run step as (reset clk_in gen1 mem_d) = some (s, es)) :
    LevelHandshake.Repeats (written es) (sent es) ∨
      LevelHandshake.Repeats (written es) (sent es++standing s) := by
  obtain ⟨ms, hms⟩ := run_link as s es hr
  exact LevelHandshake.run_repeats ms (link s) (links es) hms

def opening (x : Wires) : List Edge := [.main x, .main x, .main x, .main x, .bit, .bit, .main x]

def raised : Wires := ⟨true, ⟨0, 0, 0, 0, 0, 0, 0⟩, fun _ => 0⟩

theorem opening_kept : ∃ s es,
    run step (opening raised) (reset false ⟨0, false, false⟩ 0) = some (s, es) ∧
      (LevelHandshake.Repeats (written es) (sent es) ∨
        LevelHandshake.Repeats (written es) (sent es++standing s)) :=
  let ⟨s, es, hr⟩ := run_total (fun _ _ => ⟨_, _, rfl⟩) (opening raised) _
  ⟨s, es, hr, characters_kept false ⟨0, false, false⟩ 0 (opening raised) s es hr⟩

theorem seen_iff (s : Debugger) (a : Edge) :
    Seen s a ↔ ∀ m, move s a = some m → LevelHandshake.Seen (link s) m := by
  cases a with
  | main x =>
    refine iff_of_true trivial fun m hm => ?_
    unfold move at hm
    dsimp only at hm
    split at hm
    · cases hm
      trivial
    · split at hm <;> cases hm
      trivial
  | bit =>
    cases hb : s.u1.bsy with
    | false =>
      refine iff_of_true (fun h => absurd (hb.symm.trans h) Bool.false_ne_true) fun m hm => ?_
      unfold move at hm
      simp only [hb, Bool.false_and, Bool.false_eq_true, if_false] at hm
      split at hm <;> cases hm
      trivial
    | true =>
      cases hb' : (tick s).u1.bsy with
      | true => simp [Seen, move, hb, hb', takes]
      | false => simp [Seen, move, hb, hb', takes, LevelHandshake.Seen, link, Dbgu.offered]

theorem exact_next {s : Debugger} {a : Edge} {r : Listener 8} {taken : List Byte}
    {es : List Event} (hf : Follows s.u1 r taken) (h : Exact es s) (hseen : Seen s a) :
    Exact (es++events s a) (next s a) := by
  have hmoved := moved hf a
  change LevelHandshake.Exact (links (es++events s a)) (link (next s a))
  rw [links_append]
  cases hm : move s a with
  | none =>
    rw [hm] at hmoved
    rw [hmoved.1, hmoved.2, List.append_nil]
    exact h
  | some m =>
    rw [hm] at hmoved
    exact LevelHandshake.exact_step h ((seen_iff s a).mp hseen m hm) hmoved

theorem run_exact (as : List Edge) (hm : Meets step Seen (reset clk_in gen1 mem_d) as)
    (s : Debugger) (es : List Event) (hr : run step as (reset clk_in gen1 mem_d) = some (s, es)) :
    Exact es s := by
  have h := run_induction_meets step Seen (reset clk_in gen1 mem_d)
    (fun es s => Follows s.u1 ((Listener.quiet 8).listen (levels es)) (sent es) ∧ Exact es s)
    ⟨follows_reset, rfl⟩ ?_ as hm s es hr
  · exact h.2
  · rintro es s a _ _ ⟨hf, h⟩ hseen ⟨⟩
    rw [levels_append, Listener.listen_append, sent_append]
    exact ⟨line_step hf a, exact_next hf h hseen⟩

/-- The characters are sent exactly as they are written, at each moment of a run,
if and only if no character is over before the unit has seen the transmitter busy. -/
theorem characters_exact_iff (clk_in : Bool) (gen1 : PulseGen) (mem_d : Byte) (as : List Edge)
    (u : Debugger) (es : List Event) (hr : run step as (reset clk_in gen1 mem_d) = some (u, es)) :
    (∀ before after s fs, as = before++after →
      run step before (reset clk_in gen1 mem_d) = some (s, fs) → Exact fs s) ↔
        Meets step Seen (reset clk_in gen1 mem_d) as := by
  refine history_iff_meets run_line rfl ?_ ?_ hr
  · rintro es s a _ _ hf h hseen ⟨⟩
    exact exact_next hf h hseen
  · rintro es s a _ _ hf h ⟨⟩ hnext
    rw [seen_iff]
    intro m hm
    have hmoved := moved hf a
    rw [hm] at hmoved
    exact LevelHandshake.finish_unseen h hmoved (by rwa [← links_append])

theorem opening_exact : ∃ u es,
    run step (opening raised) (reset false ⟨0, false, false⟩ 0) = some (u, es) ∧
      ((∀ before after s fs, opening raised = before++after →
        run step before (reset false ⟨0, false, false⟩ 0) = some (s, fs) → Exact fs s) ↔
          Meets step Seen (reset false ⟨0, false, false⟩ 0) (opening raised)) :=
  let ⟨s, es, hr⟩ := run_total (fun _ _ => ⟨_, _, rfl⟩) (opening raised) _
  ⟨s, es, hr, characters_exact_iff false ⟨0, false, false⟩ 0 (opening raised) s es hr⟩

end Semestr4.DebugUnit
