import Mathlib.Logic.Function.Iterate

/-!
# The instructions of the small processor

What each of the sixteen kinds of byte does, one instruction at a time: two
registers and a program counter of four bits, and sixteen bytes of memory that
hold the program and its data.
-/

set_option autoImplicit false

namespace Semestr4.CpuInstruction

abbrev Nibble := BitVec 4
abbrev Byte := BitVec 8
abbrev Memory := Nibble → Byte

def Memory.write (m : Memory) (a : Nibble) (v : Byte) : Memory :=
  fun b => if b = a then v else m b

inductive Register where
  | r0
  | r1
  deriving DecidableEq, Repr

inductive Instruction where
  | jump (target : Nibble)
  | add (target : Register)
  | multiply
  | immediate (target : Register) (value : Nibble)
  | move (target : Register)
  | load (target : Register) (address : Nibble)
  | store (source : Register) (address : Nibble)
  | none
  deriving DecidableEq, Repr

/-- The high half of a byte names the instruction and the low half is its operand. -/
def instruction (high low : Nibble) : Instruction :=
  match high with
  | 0x0#4 => .jump low
  | 0x2#4 => .add .r0
  | 0x3#4 => .add .r1
  | 0x6#4 => .multiply
  | 0x8#4 => .immediate .r0 low
  | 0x9#4 => .immediate .r1 low
  | 0xa#4 => .move .r0
  | 0xb#4 => .move .r1
  | 0xc#4 => .load .r0 low
  | 0xd#4 => .load .r1 low
  | 0xe#4 => .store .r0 low
  | 0xf#4 => .store .r1 low
  | _ => .none

def decode (byte : Byte) : Instruction :=
  instruction (byte.extractLsb 7 4) (byte.extractLsb 3 0)

structure Machine where
  pc : Nibble
  r0 : Nibble
  r1 : Nibble
  memory : Memory

def Machine.get (m : Machine) : Register → Nibble
  | .r0 => m.r0
  | .r1 => m.r1

def Machine.set (m : Machine) (v : Nibble) : Register → Machine
  | .r0 => { m with r0 := v }
  | .r1 => { m with r1 := v }

def Register.other : Register → Register
  | .r0 => .r1
  | .r1 => .r0

def execute (m : Machine) : Instruction → Machine
  | .jump target => { m with pc := target }
  | .add target => m.set (m.r0+m.r1) target
  | .multiply =>
    let product : Byte := m.r0.zeroExtend 8*m.r1.zeroExtend 8
    { m with r0 := product.extractLsb 7 4, r1 := product.extractLsb 3 0 }
  | .immediate target value => m.set value target
  | .move target => m.set (m.get target.other) target
  | .load target address => m.set ((m.memory address).extractLsb 3 0) target
  | .store source address =>
    { m with memory := m.memory.write address ((m.get source).zeroExtend 8) }
  | .none => m

/-- The counter moves on before the instruction is executed. -/
def instructionStep (m : Machine) : Machine :=
  execute { m with pc := m.pc+1 } (decode (m.memory m.pc))

def start (memory : Memory) : Machine := ⟨0, 0, 0, memory⟩

def interpret (memory : Memory) (k : ℕ) : Machine := instructionStep^[k] (start memory)

end Semestr4.CpuInstruction
