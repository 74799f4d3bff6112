import Mathlib.Data.Fintype.Basic
import Semestr4.CpuInstruction

/-!
# The clocked processor and its memory

The registers of the processor change on a rising edge of the clock and the
memory answers on the falling edge after it. An instruction takes four cycles
over one address bus, and a store reaches the memory only in the cycle in which
the processor is already back at its first state.
-/

set_option autoImplicit false

namespace Semestr4.CpuClock
open Semestr4.CpuInstruction

structure Cpu where
  state : BitVec 2
  pc : Nibble
  opcode : Byte
  r0 : Nibble
  r1 : Nibble
  mem_address : Nibble
  mem_data_w : Byte
  mem_we : Bool

/-- State 2 for an opcode whose bit 7 is clear. -/
def arithmetic (c : Cpu) : Cpu :=
  match c.opcode.extractLsb 6 4 with
  | 0b000#3 => { c with pc := c.opcode.extractLsb 3 0 }
  | 0b010#3 => { c with r0 := c.r0+c.r1 }
  | 0b011#3 => { c with r1 := c.r0+c.r1 }
  | 0b110#3 =>
    -- the concatenation on the left makes the product eight bits wide
    let product : Byte := c.r0.zeroExtend 8*c.r1.zeroExtend 8
    { c with r0 := product.extractLsb 7 4, r1 := product.extractLsb 3 0 }
  | _ => c

/-- State 2 for loads and stores. -/
def address (c : Cpu) : Cpu :=
  let c' := { c with mem_address := c.opcode.extractLsb 3 0 }
  if c.opcode[5] then
    if c.opcode[4] then { c' with mem_data_w := c.r1.zeroExtend 8 }
    else { c' with mem_data_w := c.r0.zeroExtend 8 }
  else c'

/-- State 2 for immediates and moves. -/
def transfer (c : Cpu) : Cpu :=
  match c.opcode.extractLsb 5 4 with
  | 0b00#2 => { c with r0 := c.opcode.extractLsb 3 0 }
  | 0b01#2 => { c with r1 := c.opcode.extractLsb 3 0 }
  | 0b10#2 => { c with r0 := c.r1 }
  | 0b11#2 => { c with r1 := c.r0 }

/-- What the rising edge writes in states 2 and 3, the state itself apart. -/
def execute (c : Cpu) : Cpu :=
  if c.opcode[7] = false then arithmetic c
  else if c.opcode[6] then address c
  else transfer c

def complete (c : Cpu) (mem_data_r : Byte) : Cpu :=
  let c' := if c.opcode.extractLsb 7 5 = 0b111#3 then { c with mem_we := true } else c
  if c.opcode.extractLsb 7 5 = 0b110#3 then
    if c.opcode[4] = false then { c' with r0 := mem_data_r.extractLsb 3 0 }
    else { c' with r1 := mem_data_r.extractLsb 3 0 }
  else c'

/-- The `always` block: a rising edge of the clock, or the reset. -/
def posedge (reset_n : Bool) (mem_data_r : Byte) (c : Cpu) : Cpu :=
  if reset_n = false then { c with state := 0, pc := 0, r0 := 0, r1 := 0, mem_we := false }
  else match c.state with
    | 0#2 => { c with state := 1, mem_we := false, mem_address := c.pc }
    | 1#2 => { c with state := 2, opcode := mem_data_r, pc := c.pc+1 }
    | 2#2 => { execute c with state := 3 }
    | 3#2 => { complete c mem_data_r with state := 0 }

/-- What the memory shows of a byte that it is writing. -/
inductive WriteMode where
  | readFirst
  | writeFirst
  deriving DecidableEq, Repr

structure Ram where
  memory : Memory
  mem_data_r : Byte

def negedge (mode : WriteMode) (c : Cpu) (ram : Ram) : Ram :=
  let memory' := if c.mem_we then ram.memory.write c.mem_address c.mem_data_w else ram.memory
  match mode with
  | .readFirst => ⟨memory', ram.memory c.mem_address⟩
  | .writeFirst => ⟨memory', memory' c.mem_address⟩

structure Board where
  cpu : Cpu
  ram : Ram

/-- A rising edge of the clock and the memory edge after it. -/
def cycle (mode : WriteMode) (b : Board) : Board :=
  let cpu' := posedge true b.ram.mem_data_r b.cpu
  ⟨cpu', negedge mode cpu' b.ram⟩

def reset (cpu : Cpu) (ram : Ram) : Board := ⟨posedge false ram.mem_data_r cpu, ram⟩

def run (mode : WriteMode) (b : Board) (n : ℕ) : Board := (cycle mode)^[n] b

def passes (mode : WriteMode) (b : Board) : ℕ → ℕ
  | 0 => 0
  | n+1 => passes mode b n+if (run mode b n).cpu.state = 3 then 1 else 0

def AfterPass (mode : WriteMode) (b : Board) (k n : ℕ) : Prop :=
  passes mode b n = k ∧ ∀ i < n, passes mode b i < k

def view (b : Board) : Machine := ⟨b.cpu.pc, b.cpu.r0, b.cpu.r1, b.ram.memory⟩

theorem negedge_memory (mode : WriteMode) (c : Cpu) (ram : Ram) :
    (negedge mode c ram).memory =
      if c.mem_we then ram.memory.write c.mem_address c.mem_data_w else ram.memory := by
  cases mode <;> rfl

theorem cycle_read {mode : WriteMode} {b : Board} {c : Cpu}
    (hc : posedge true b.ram.mem_data_r b.cpu = c) (hw : c.mem_we = false) :
    cycle mode b = ⟨c, b.ram.memory, b.ram.memory c.mem_address⟩ := by
  subst hc
  cases mode <;> simp [cycle, negedge, hw]

theorem cycle_fetch (mode : WriteMode) (b : Board) (h : b.cpu.state = 0) :
    cycle mode b = ⟨{ b.cpu with state := 1, mem_we := false, mem_address := b.cpu.pc },
      b.ram.memory, b.ram.memory b.cpu.pc⟩ :=
  cycle_read (by simp [posedge, h]) rfl

theorem cycle_opcode (mode : WriteMode) (b : Board) (h : b.cpu.state = 1)
    (hw : b.cpu.mem_we = false) :
    cycle mode b = ⟨{ b.cpu with state := 2, opcode := b.ram.mem_data_r, pc := b.cpu.pc+1 },
      b.ram.memory, b.ram.memory b.cpu.mem_address⟩ :=
  cycle_read (by simp [posedge, h]) hw

theorem execute_mem_we (c : Cpu) : (execute c).mem_we = c.mem_we := by
  unfold execute arithmetic address transfer
  split
  · split <;> rfl
  · split
    · grind
    · split <;> rfl

theorem cycle_execute (mode : WriteMode) (b : Board) (h : b.cpu.state = 2)
    (hw : b.cpu.mem_we = false) :
    cycle mode b = ⟨{ execute b.cpu with state := 3 },
      b.ram.memory, b.ram.memory (execute b.cpu).mem_address⟩ :=
  cycle_read (by simp [posedge, h]) ((execute_mem_we b.cpu).trans hw)

theorem bit_seven : ∀ opcode : Byte,
    opcode[7] = (opcode.extractLsb 7 4)[3] := by decide +kernel

theorem bit_four : ∀ opcode : Byte,
    opcode[4] = (opcode.extractLsb 7 4)[0] := by decide +kernel

theorem bits_six_four : ∀ opcode : Byte,
    opcode.extractLsb 6 4 = (opcode.extractLsb 7 4).extractLsb 2 0 := by decide +kernel

theorem bits_five_four : ∀ opcode : Byte,
    opcode.extractLsb 5 4 = (opcode.extractLsb 7 4).extractLsb 1 0 := by decide +kernel

theorem bits_seven_five : ∀ opcode : Byte,
    opcode.extractLsb 7 5 = (opcode.extractLsb 7 4).extractLsb 3 1 := by decide +kernel

def fetched (b : Board) : Cpu :=
  { b.cpu with state := 2, pc := b.cpu.pc+1, opcode := b.ram.memory b.cpu.pc,
               mem_we := false, mem_address := b.cpu.pc }

def effect (memory : Memory) (c : Cpu) : Machine :=
  let c' := execute c
  let c'' := complete c' (memory c'.mem_address)
  ⟨c''.pc, c''.r0, c''.r1,
    if c''.mem_we then memory.write c''.mem_address c''.mem_data_w else memory⟩

theorem complete_none (c : Cpu) (d : Byte) (hl : c.opcode.extractLsb 7 5 ≠ 0b110#3)
    (hs : c.opcode.extractLsb 7 5 ≠ 0b111#3) : complete c d = c := by
  simp only [complete, if_neg hl, if_neg hs]

theorem arithmetic_opcode (c : Cpu) : (arithmetic c).opcode = c.opcode := by
  unfold arithmetic
  split <;> rfl

theorem transfer_opcode (c : Cpu) : (transfer c).opcode = c.opcode := by
  unfold transfer
  split <;> rfl

theorem effect_quiet (memory : Memory) (c c' : Cpu) (hw : c.mem_we = false)
    (hc : execute c = c') (ho : c'.opcode = c.opcode)
    (hl : c.opcode.extractLsb 7 5 ≠ 0b110#3) (hs : c.opcode.extractLsb 7 5 ≠ 0b111#3) :
    effect memory c = ⟨c'.pc, c'.r0, c'.r1, memory⟩ := by
  have hw' : c'.mem_we = false := by rw [← hc, execute_mem_we, hw]
  simp only [effect, hc, complete_none c' _ (ho ▸ hl) (ho ▸ hs), hw']
  rfl

theorem effect_arithmetic (memory : Memory) (c : Cpu) (hw : c.mem_we = false)
    (h : (c.opcode.extractLsb 7 4)[3] = false) :
    effect memory c = ⟨(arithmetic c).pc, (arithmetic c).r0, (arithmetic c).r1, memory⟩ := by
  rw [← bit_seven] at h
  have hb : c.opcode.extractLsb 7 5 ≠ 0b110#3 ∧ c.opcode.extractLsb 7 5 ≠ 0b111#3 := by
    generalize c.opcode = opcode at h
    revert opcode
    decide +kernel
  exact effect_quiet memory c _ hw (if_pos h) (arithmetic_opcode c) hb.1 hb.2

theorem effect_transfer (memory : Memory) (c : Cpu) (hw : c.mem_we = false)
    (h : (c.opcode.extractLsb 7 4).extractLsb 3 2 = 0b10#2) :
    effect memory c = ⟨(transfer c).pc, (transfer c).r0, (transfer c).r1, memory⟩ := by
  have hb : c.opcode[7] = true ∧ c.opcode[6] = false ∧
      c.opcode.extractLsb 7 5 ≠ 0b110#3 ∧ c.opcode.extractLsb 7 5 ≠ 0b111#3 := by
    generalize c.opcode = opcode at h
    revert opcode
    decide +kernel
  have he : execute c = transfer c := by simp only [execute, hb.1, hb.2.1]; rfl
  exact effect_quiet memory c _ hw he (transfer_opcode c) hb.2.2.1 hb.2.2.2

theorem effect_load (memory : Memory) (c : Cpu) (hw : c.mem_we = false)
    (h : (c.opcode.extractLsb 7 4).extractLsb 3 1 = 0b110#3) :
    effect memory c =
      let value := (memory (c.opcode.extractLsb 3 0)).extractLsb 3 0
      if c.opcode[4] = false then ⟨c.pc, value, c.r1, memory⟩
      else ⟨c.pc, c.r0, value, memory⟩ := by
  have hb : c.opcode[7] = true ∧ c.opcode[6] = true ∧ c.opcode[5] = false := by
    generalize c.opcode = opcode at h
    revert opcode
    decide +kernel
  rw [← bits_seven_five] at h
  have he : execute c = { c with mem_address := c.opcode.extractLsb 3 0 } := by
    simp [execute, address, hb]
  by_cases h4 : c.opcode[4] = false
  · simp [effect, he, complete, h, h4, hw]
  · simp [effect, he, complete, h, h4, hw]

theorem effect_store (memory : Memory) (c : Cpu)
    (h : (c.opcode.extractLsb 7 4).extractLsb 3 1 = 0b111#3) :
    effect memory c = ⟨c.pc, c.r0, c.r1, memory.write (c.opcode.extractLsb 3 0)
      ((if c.opcode[4] then c.r1 else c.r0).zeroExtend 8)⟩ := by
  have hb : c.opcode[7] = true ∧ c.opcode[6] = true ∧ c.opcode[5] = true := by
    generalize c.opcode = opcode at h
    revert opcode
    decide +kernel
  rw [← bits_seven_five] at h
  by_cases h4 : c.opcode[4] = true
  · have he : execute c =
        { c with mem_address := c.opcode.extractLsb 3 0, mem_data_w := c.r1.zeroExtend 8 } := by
      simp [execute, address, hb, h4]
    simp [effect, he, complete, h, h4]
  · have he : execute c =
        { c with mem_address := c.opcode.extractLsb 3 0, mem_data_w := c.r0.zeroExtend 8 } := by
      simp [execute, address, hb, h4]
    simp [effect, he, complete, h, h4]

theorem classes : ∀ high : Nibble, high[3] = false ∨ high.extractLsb 3 2 = 0b10#2 ∨
    high.extractLsb 3 1 = 0b110#3 ∨ high.extractLsb 3 1 = 0b111#3 := by decide

theorem arithmetic_high : ∀ high : Nibble, high[3] = false →
    high = 0x0#4 ∨ high = 0x1#4 ∨ high = 0x2#4 ∨ high = 0x3#4 ∨
      high = 0x4#4 ∨ high = 0x5#4 ∨ high = 0x6#4 ∨ high = 0x7#4 := by decide

theorem transfer_high : ∀ high : Nibble, high.extractLsb 3 2 = 0b10#2 →
    high = 0x8#4 ∨ high = 0x9#4 ∨ high = 0xa#4 ∨ high = 0xb#4 := by decide

theorem load_high : ∀ high : Nibble, high.extractLsb 3 1 = 0b110#3 →
    high = 0xc#4 ∨ high = 0xd#4 := by decide

theorem store_high : ∀ high : Nibble, high.extractLsb 3 1 = 0b111#3 →
    high = 0xe#4 ∨ high = 0xf#4 := by decide

theorem effect_eq (memory : Memory) (c : Cpu) (hw : c.mem_we = false) :
    effect memory c =
      CpuInstruction.execute ⟨c.pc, c.r0, c.r1, memory⟩ (decode c.opcode) := by
  rcases classes (c.opcode.extractLsb 7 4) with h | h | h | h
  · rw [effect_arithmetic memory c hw h, decode, arithmetic, bits_six_four]
    rcases arithmetic_high _ h with h | h | h | h | h | h | h | h <;> rw [h] <;> rfl
  · rw [effect_transfer memory c hw h, decode, transfer, bits_five_four]
    rcases transfer_high _ h with h | h | h | h <;> rw [h] <;> rfl
  · rw [effect_load memory c hw h, decode, bit_four]
    rcases load_high _ h with h | h <;> rw [h] <;> rfl
  · rw [effect_store memory c h, decode, bit_four]
    rcases store_high _ h with h | h <;> rw [h] <;> rfl

theorem complete_state (c : Cpu) (d : Byte) (s : BitVec 2) :
    complete { c with state := s } d = { complete c d with state := s } := by
  simp only [complete]
  grind

theorem cycle_effect (mode : WriteMode) (memory : Memory) (c : Cpu) :
    view (cycle mode ⟨{ execute c with state := 3 }, memory, memory (execute c).mem_address⟩) =
      effect memory c := by
  simp only [view, cycle, posedge, complete_state, negedge_memory]
  rfl

theorem run_four (mode : WriteMode) (b : Board) (h : b.cpu.state = 0) :
    view (run mode b 4) = effect b.ram.memory (fetched b) := by
  have h2 : run mode b 2 = ⟨fetched b, b.ram.memory, b.ram.memory b.cpu.pc⟩ := by
    change cycle mode (cycle mode b) = _
    rw [cycle_fetch mode b h, cycle_opcode mode _ rfl rfl]
    rfl
  have h3 : run mode b 3 = ⟨{ execute (fetched b) with state := 3 },
      b.ram.memory, b.ram.memory (execute (fetched b)).mem_address⟩ := by
    rw [run, Function.iterate_succ_apply', ← run, h2, cycle_execute mode _ rfl rfl]
  have h4 : run mode b 4 = cycle mode (run mode b 3) := Function.iterate_succ_apply' _ 3 b
  rw [h4, h3]
  exact cycle_effect mode b.ram.memory (fetched b)

theorem cycle_state (mode : WriteMode) (b : Board) :
    (cycle mode b).cpu.state = b.cpu.state+1 := by
  obtain ⟨⟨state, pc, opcode, r0, r1, a, w, we⟩, ram⟩ := b
  match state with
  | 0#2 | 1#2 | 2#2 => rfl
  | 3#2 => exact (by decide : (0#2 : BitVec 2) = 3#2+1)

theorem run_state (mode : WriteMode) (b : Board) (h : b.cpu.state = 0) (n : ℕ) :
    (run mode b n).cpu.state = BitVec.ofNat 2 n := by
  induction n with
  | zero => exact h
  | succ n ih => rw [run, Function.iterate_succ_apply', ← run, cycle_state, ih, BitVec.ofNat_add]; rfl

theorem passes_eq (mode : WriteMode) (b : Board) (h : b.cpu.state = 0) (n : ℕ) :
    passes mode b n = n/4 := by
  induction n with
  | zero => rfl
  | succ n ih =>
    have hs : (run mode b n).cpu.state = 3 ↔ n % 4 = 3 := by
      rw [run_state mode b h n, ← BitVec.toNat_inj]
      simp
    rw [passes, ih]
    by_cases hn : n % 4 = 3
    · rw [if_pos (hs.mpr hn)]
      omega
    · rw [if_neg (mt hs.mp hn)]
      omega

theorem afterPass_iff (mode : WriteMode) (b : Board) (h : b.cpu.state = 0) (k n : ℕ) :
    AfterPass mode b k n ↔ n = 4*k := by
  simp only [AfterPass, passes_eq mode b h]
  constructor
  · rintro ⟨hk, hi⟩
    have := hi (4*k)
    omega
  · rintro rfl
    exact ⟨by omega, fun i hi => by omega⟩

theorem view_four (mode : WriteMode) (b : Board) (h : b.cpu.state = 0) :
    view (run mode b 4) = instructionStep (view b) := by
  rw [run_four mode b h, effect_eq _ _ rfl]
  rfl

theorem run_add (mode : WriteMode) (b : Board) (m n : ℕ) :
    run mode b (m+n) = run mode (run mode b n) m :=
  Function.iterate_add_apply (cycle mode) m n b

theorem view_run (mode : WriteMode) (b : Board) (h : b.cpu.state = 0) (k : ℕ) :
    view (run mode b (4*k)) = instructionStep^[k] (view b) := by
  induction k with
  | zero => rfl
  | succ k ih =>
    have hk : (run mode b (4*k)).cpu.state = 0 := by
      rw [run_state mode b h, ← BitVec.toNat_inj]
      simp
    rw [show 4*(k+1) = 4+4*k by omega, run_add, view_four mode _ hk, ih,
      Function.iterate_succ_apply']

/-- The program of the log, which adds 6 and the byte at 13 into the byte at 14. -/
def logged : Memory := fun a =>
  [0x80, 0x90, 0xee, 0x86, 0xdd, 0x20, 0xee, 0, 0, 0, 0, 0, 0, 5, 0, 0].getD a.toNat 0

example (cpu : Cpu) : (view (run .writeFirst (reset cpu ⟨logged, 0⟩) 28)).memory 14 = 0x0b := by
  rw [view_run .writeFirst (reset cpu ⟨logged, 0⟩) rfl 7]
  have hstart : view (reset cpu ⟨logged, 0⟩) = start logged := rfl
  rw [hstart]
  decide +kernel

/-- After each pass through state 3 the memory edge has completed one more
instruction, whatever the registers held before the reset. -/
theorem instructions_refined (mode : WriteMode) (cpu : Cpu) (ram : Ram) (k : ℕ) :
    (∃ n, AfterPass mode (reset cpu ram) k n) ∧
      ∀ n, AfterPass mode (reset cpu ram) k n →
        view (run mode (reset cpu ram) n) = interpret ram.memory k := by
  have h : (reset cpu ram).cpu.state = 0 := rfl
  constructor
  · exact ⟨4*k, (afterPass_iff mode _ h k _).mpr rfl⟩
  · intro n hn
    rw [(afterPass_iff mode _ h k n).mp hn, view_run mode _ h]
    rfl

end Semestr4.CpuClock
