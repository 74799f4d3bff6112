import Semestr4.CpuClock

/-!
# The programs that come with the processor

Two of the memory images that were loaded into the processor: one adds six to
the byte in cell 13, the other multiplies that byte by eight. Both end with a
jump to their beginning, so that they do the same again for ever.
-/

set_option autoImplicit false

namespace Semestr4.CpuPrograms
open Semestr4.CpuInstruction Semestr4.CpuClock

/-- The image for adding, up to the jump: the sum goes to the other register. -/
def addition : List Byte := [0x80, 0x90, 0xee, 0x86, 0xdd, 0x30, 0xfe, 0x00]

/-- The image for multiplying, up to the jump. -/
def multiplication : List Byte := [0x80, 0x90, 0xee, 0x88, 0xdd, 0x60, 0xee, 0xff, 0x00]

def Loaded (code : List Byte) (m : Memory) : Prop :=
  ∀ i (hi : i < code.length), m (BitVec.ofNat 4 i) = code[i]

instance (code : List Byte) (m : Memory) : Decidable (Loaded code m) :=
  inferInstanceAs (Decidable (∀ i (hi : i < code.length), m (BitVec.ofNat 4 i) = code[i]))

theorem Loaded.write {code : List Byte} {m : Memory} (h : Loaded code m) {a : Nibble}
    (ha : code.length ≤ a.toNat) (v : Byte) : Loaded code (m.write a v) := by
  intro i hi
  have hne : BitVec.ofNat 4 i ≠ a := by
    rintro rfl
    rw [BitVec.toNat_ofNat] at ha
    omega
  rw [Memory.write, if_neg hne]
  exact h i hi

theorem instructionStep_loaded {code : List Byte} {m : Memory} (h : Loaded code m) (i : ℕ)
    (hi : i < code.length) (x : Instruction) (hx : decode code[i] = x) (r0 r1 : Nibble) :
    instructionStep ⟨BitVec.ofNat 4 i, r0, r1, m⟩ =
      CpuInstruction.execute ⟨BitVec.ofNat 4 i+1, r0, r1, m⟩ x := by
  rw [← hx, ← h i hi]
  rfl

def sum (m : Memory) : Nibble := 6+(m 13).extractLsb 3 0

theorem addition_round {m : Memory} (h : Loaded addition m) (r0 r1 : Nibble) :
    instructionStep^[8] ⟨0, r0, r1, m⟩ =
      ⟨0, 6, sum m, (m.write 14 0).write 14 ((sum m).setWidth 8)⟩ := by
  have h1 : Loaded addition (m.write 14 0) := h.write (by decide) 0
  have h2 := h1.write (a := 14) (by decide) ((sum m).setWidth 8)
  have step0 : instructionStep ⟨0, r0, r1, m⟩ = ⟨1, 0, r1, m⟩ :=
    instructionStep_loaded h 0 (by decide) (.immediate .r0 0) (by decide) r0 r1
  have step1 : instructionStep ⟨1, 0, r1, m⟩ = ⟨2, 0, 0, m⟩ :=
    instructionStep_loaded h 1 (by decide) (.immediate .r1 0) (by decide) 0 r1
  have step2 : instructionStep ⟨2, 0, 0, m⟩ = ⟨3, 0, 0, m.write 14 0⟩ :=
    instructionStep_loaded h 2 (by decide) (.store .r0 14) (by decide) 0 0
  have step3 : instructionStep ⟨3, 0, 0, m.write 14 0⟩ = ⟨4, 6, 0, m.write 14 0⟩ :=
    instructionStep_loaded h1 3 (by decide) (.immediate .r0 6) (by decide) 0 0
  have step4 : instructionStep ⟨4, 6, 0, m.write 14 0⟩ =
      ⟨5, 6, (m 13).extractLsb 3 0, m.write 14 0⟩ :=
    instructionStep_loaded h1 4 (by decide) (.load .r1 13) (by decide) 6 0
  have step5 : instructionStep ⟨5, 6, (m 13).extractLsb 3 0, m.write 14 0⟩ =
      ⟨6, 6, sum m, m.write 14 0⟩ :=
    instructionStep_loaded h1 5 (by decide) (.add .r1) (by decide) 6 _
  have step6 : instructionStep ⟨6, 6, sum m, m.write 14 0⟩ =
      ⟨7, 6, sum m, (m.write 14 0).write 14 ((sum m).setWidth 8)⟩ :=
    instructionStep_loaded h1 6 (by decide) (.store .r1 14) (by decide) 6 _
  have step7 : instructionStep ⟨7, 6, sum m, (m.write 14 0).write 14 ((sum m).setWidth 8)⟩ =
      ⟨0, 6, sum m, (m.write 14 0).write 14 ((sum m).setWidth 8)⟩ :=
    instructionStep_loaded h2 7 (by decide) (.jump 0) (by decide) 6 _
  simp only [Function.iterate_succ_apply, Function.iterate_zero_apply, step0, step1, step2, step3,
    step4, step5, step6, step7]

def product (m : Memory) : Byte := 8*((m 13).extractLsb 3 0).zeroExtend 8

def upper (m : Memory) : Nibble := (product m).extractLsb 7 4

def lower (m : Memory) : Nibble := (product m).extractLsb 3 0

theorem multiplication_round {m : Memory} (h : Loaded multiplication m) (r0 r1 : Nibble) :
    instructionStep^[9] ⟨0, r0, r1, m⟩ = ⟨0, upper m, lower m,
      ((m.write 14 0).write 14 ((upper m).setWidth 8)).write 15 ((lower m).setWidth 8)⟩ := by
  let m1 := m.write 14 0
  let m2 := m1.write 14 ((upper m).setWidth 8)
  let m3 := m2.write 15 ((lower m).setWidth 8)
  have h1 : Loaded multiplication m1 := h.write (by decide) 0
  have h2 : Loaded multiplication m2 := h1.write (by decide) _
  have h3 : Loaded multiplication m3 := h2.write (by decide) _
  have step0 : instructionStep ⟨0, r0, r1, m⟩ = ⟨1, 0, r1, m⟩ :=
    instructionStep_loaded h 0 (by decide) (.immediate .r0 0) (by decide) r0 r1
  have step1 : instructionStep ⟨1, 0, r1, m⟩ = ⟨2, 0, 0, m⟩ :=
    instructionStep_loaded h 1 (by decide) (.immediate .r1 0) (by decide) 0 r1
  have step2 : instructionStep ⟨2, 0, 0, m⟩ = ⟨3, 0, 0, m1⟩ :=
    instructionStep_loaded h 2 (by decide) (.store .r0 14) (by decide) 0 0
  have step3 : instructionStep ⟨3, 0, 0, m1⟩ = ⟨4, 8, 0, m1⟩ :=
    instructionStep_loaded h1 3 (by decide) (.immediate .r0 8) (by decide) 0 0
  have step4 : instructionStep ⟨4, 8, 0, m1⟩ = ⟨5, 8, (m 13).extractLsb 3 0, m1⟩ :=
    instructionStep_loaded h1 4 (by decide) (.load .r1 13) (by decide) 8 0
  have step5 : instructionStep ⟨5, 8, (m 13).extractLsb 3 0, m1⟩ = ⟨6, upper m, lower m, m1⟩ :=
    instructionStep_loaded h1 5 (by decide) .multiply (by decide) 8 _
  have step6 : instructionStep ⟨6, upper m, lower m, m1⟩ = ⟨7, upper m, lower m, m2⟩ :=
    instructionStep_loaded h1 6 (by decide) (.store .r0 14) (by decide) _ _
  have step7 : instructionStep ⟨7, upper m, lower m, m2⟩ = ⟨8, upper m, lower m, m3⟩ :=
    instructionStep_loaded h2 7 (by decide) (.store .r1 15) (by decide) _ _
  have step8 : instructionStep ⟨8, upper m, lower m, m3⟩ = ⟨0, upper m, lower m, m3⟩ :=
    instructionStep_loaded h3 8 (by decide) (.jump 0) (by decide) _ _
  simp only [Function.iterate_succ_apply, Function.iterate_zero_apply, step0, step1, step2, step3,
    step4, step5, step6, step7, step8]
  rfl

/-- A program that comes back to its beginning, and whose second round changes nothing more. -/
structure Round (code : List Byte) (n : ℕ) (f : Memory → Memory) : Prop where
  once : ∀ m, Loaded code m → ∀ r0 r1, ∃ r0' r1',
    instructionStep^[n] ⟨0, r0, r1, m⟩ = ⟨0, r0', r1', f m⟩
  kept : ∀ m, Loaded code m → Loaded code (f m)
  again : ∀ m, f (f m) = f m

theorem Round.run {code : List Byte} {n : ℕ} {f : Memory → Memory} (h : Round code n f)
    {m : Memory} (hm : Loaded code m) (r0 r1 : Nibble) (k : ℕ) : ∃ r0' r1',
      instructionStep^[n*(k+1)] ⟨0, r0, r1, m⟩ = ⟨0, r0', r1', f m⟩ := by
  induction k with
  | zero =>
    rw [Nat.mul_one]
    exact h.once m hm r0 r1
  | succ k ih =>
    obtain ⟨a, b, hk⟩ := ih
    obtain ⟨a', b', hnext⟩ := h.once (f m) (h.kept m hm) a b
    refine ⟨a', b', ?_⟩
    rw [Nat.mul_succ, Nat.add_comm, Function.iterate_add_apply, hk, hnext, h.again]

/-- The rounds on the clocked processor, after the reset. -/
theorem Round.cycles {code : List Byte} {n : ℕ} {f : Memory → Memory} (h : Round code n f)
    (mode : WriteMode) (cpu : Cpu) {ram : Ram} (hm : Loaded code ram.memory) (k : ℕ) :
    (view (CpuClock.run mode (reset cpu ram) (4*(n*(k+1))))).pc = 0 ∧
      (view (CpuClock.run mode (reset cpu ram) (4*(n*(k+1))))).memory = f ram.memory := by
  obtain ⟨r0, r1, hk⟩ := h.run hm 0 0 k
  have hstart : view (reset cpu ram) = ⟨0, 0, 0, ram.memory⟩ := rfl
  rw [view_run mode _ rfl, hstart, hk]
  exact ⟨rfl, rfl⟩

theorem write_same (m : Memory) (a : Nibble) (v : Byte) : m.write a v a = v := if_pos rfl

theorem write_other (m : Memory) {a b : Nibble} (v : Byte) (h : b ≠ a) : m.write a v b = m b :=
  if_neg h

theorem write_again (m : Memory) (a : Nibble) (v v' : Byte) :
    (m.write a v).write a v' = m.write a v' := by
  funext b
  by_cases hb : b = a
  · rw [hb, write_same, write_same]
  · rw [write_other _ _ hb, write_other _ _ hb, write_other _ _ hb]

def added (m : Memory) : Memory := m.write 14 ((sum m).setWidth 8)

def multiplied (m : Memory) : Memory :=
  (m.write 14 ((upper m).setWidth 8)).write 15 ((lower m).setWidth 8)

theorem addition_rounds : Round addition 8 added where
  once m hm r0 r1 := ⟨6, sum m, by rw [addition_round hm, write_again]; rfl⟩
  kept m hm := hm.write (by decide) _
  again m := by
    have hsum : sum (added m) = sum m := by
      rw [sum, sum, added, write_other _ _ (by decide)]
    rw [added, hsum, added, write_again]

theorem multiplied_other (m : Memory) {a : Nibble} (h14 : a ≠ 14) (h15 : a ≠ 15) :
    multiplied m a = m a := by
  rw [multiplied, write_other _ _ h15, write_other _ _ h14]

theorem multiplication_rounds : Round multiplication 9 multiplied where
  once m hm r0 r1 :=
    ⟨upper m, lower m, by rw [multiplication_round hm, write_again]; rfl⟩
  kept m hm := (hm.write (a := 14) (by decide) _).write (by decide) _
  again m := by
    have hproduct : product (multiplied m) = product m := by
      rw [product, product, multiplied_other m (by decide) (by decide)]
    have hupper : upper (multiplied m) = upper m := congrArg (BitVec.extractLsb 7 4) hproduct
    have hlower : lower (multiplied m) = lower m := congrArg (BitVec.extractLsb 3 0) hproduct
    funext a
    rw [multiplied, hupper, hlower]
    by_cases h15 : a = 15
    · rw [h15, multiplied, write_same, write_same]
    · rw [write_other _ _ h15]
      by_cases h14 : a = 14
      · rw [h14, multiplied, write_same, write_other _ _ (by decide), write_same]
      · rw [write_other _ _ h14]

theorem sum_toNat (m : Memory) : (sum m).toNat = (6+(m 13).toNat) % 16 := by
  rw [sum, BitVec.toNat_add, BitVec.extractLsb_toNat]
  simp

theorem halves : ∀ x : Nibble,
    16*((8*x.zeroExtend 8 : Byte).extractLsb 7 4).toNat+
      ((8*x.zeroExtend 8 : Byte).extractLsb 3 0).toNat = 8*x.toNat := by decide

/-- With the first image in the memory and any bytes behind it, after each round
cell 14 is the sum of six and cell 13 on four bits, and no other cell has changed. -/
theorem addition_computes (mode : WriteMode) (cpu : Cpu) (ram : Ram)
    (hm : Loaded addition ram.memory) (k : ℕ) :
    (view (CpuClock.run mode (reset cpu ram) (4*(8*(k+1))))).pc = 0 ∧
      ((view (CpuClock.run mode (reset cpu ram) (4*(8*(k+1))))).memory 14).toNat =
        (6+(ram.memory 13).toNat) % 16 ∧
      ∀ a, a ≠ 14 →
        (view (CpuClock.run mode (reset cpu ram) (4*(8*(k+1))))).memory a = ram.memory a := by
  obtain ⟨hpc, hmemory⟩ := addition_rounds.cycles mode cpu hm k
  rw [hmemory]
  refine ⟨hpc, ?_, fun a ha => write_other _ _ ha⟩
  rw [added, write_same, BitVec.toNat_setWidth, sum_toNat]
  omega

def additionImage : Memory := fun a =>
  (addition++[0, 0, 0, 0, 0, 5, 0, 0]).getD a.toNat 0

theorem five_added :
    (view (CpuClock.run .writeFirst (reset ⟨0, 0, 0, 0, 0, 0, 0, false⟩ ⟨additionImage, 0⟩)
      (4*(8*(0+1))))).pc = 0 ∧
    ((view (CpuClock.run .writeFirst (reset ⟨0, 0, 0, 0, 0, 0, 0, false⟩ ⟨additionImage, 0⟩)
      (4*(8*(0+1))))).memory 14).toNat = (6+(additionImage 13).toNat) % 16 ∧
    ∀ a, a ≠ 14 →
      (view (CpuClock.run .writeFirst (reset ⟨0, 0, 0, 0, 0, 0, 0, false⟩ ⟨additionImage, 0⟩)
        (4*(8*(0+1))))).memory a = additionImage a :=
  addition_computes .writeFirst ⟨0, 0, 0, 0, 0, 0, 0, false⟩ ⟨additionImage, 0⟩
    (show Loaded addition additionImage by decide) 0

/-- With the second image in the memory, after each round cells 14 and 15 are the
upper and the lower digit of eight times the low half of cell 13: nothing is lost. -/
theorem multiplication_computes (mode : WriteMode) (cpu : Cpu) (ram : Ram)
    (hm : Loaded multiplication ram.memory) (k : ℕ) :
    (view (CpuClock.run mode (reset cpu ram) (4*(9*(k+1))))).pc = 0 ∧
      16*((view (CpuClock.run mode (reset cpu ram) (4*(9*(k+1))))).memory 14).toNat+
        ((view (CpuClock.run mode (reset cpu ram) (4*(9*(k+1))))).memory 15).toNat =
          8*((ram.memory 13).toNat % 16) ∧
      ((view (CpuClock.run mode (reset cpu ram) (4*(9*(k+1))))).memory 15).toNat < 16 ∧
      ∀ a, a ≠ 14 → a ≠ 15 →
        (view (CpuClock.run mode (reset cpu ram) (4*(9*(k+1))))).memory a = ram.memory a := by
  obtain ⟨hpc, hmemory⟩ := multiplication_rounds.cycles mode cpu hm k
  rw [hmemory]
  have hdigit : ∀ d : BitVec 4, (d.setWidth 8).toNat = d.toNat := fun d => by
    rw [BitVec.toNat_setWidth, Nat.mod_eq_of_lt (by omega)]
  have hvalue := halves ((ram.memory 13).extractLsb 3 0)
  rw [BitVec.extractLsb_toNat] at hvalue
  rw [multiplied, write_same, write_other _ _ (by decide), write_same, hdigit, hdigit]
  refine ⟨hpc, ?_, BitVec.isLt _, fun a h14 h15 => multiplied_other _ h14 h15⟩
  simpa [upper, lower, product] using hvalue

def multiplicationImage : Memory := fun a =>
  (multiplication++[0, 0, 0, 0, 9, 0, 0]).getD a.toNat 0

theorem nine_multiplied :
    (view (CpuClock.run .writeFirst
      (reset ⟨0, 0, 0, 0, 0, 0, 0, false⟩ ⟨multiplicationImage, 0⟩) (4*(9*(0+1))))).pc = 0 ∧
    16*((view (CpuClock.run .writeFirst (reset ⟨0, 0, 0, 0, 0, 0, 0, false⟩
        ⟨multiplicationImage, 0⟩) (4*(9*(0+1))))).memory 14).toNat+
      ((view (CpuClock.run .writeFirst (reset ⟨0, 0, 0, 0, 0, 0, 0, false⟩
        ⟨multiplicationImage, 0⟩) (4*(9*(0+1))))).memory 15).toNat =
          8*((multiplicationImage 13).toNat % 16) ∧
    ((view (CpuClock.run .writeFirst (reset ⟨0, 0, 0, 0, 0, 0, 0, false⟩
      ⟨multiplicationImage, 0⟩) (4*(9*(0+1))))).memory 15).toNat < 16 ∧
    ∀ a, a ≠ 14 → a ≠ 15 →
      (view (CpuClock.run .writeFirst (reset ⟨0, 0, 0, 0, 0, 0, 0, false⟩
        ⟨multiplicationImage, 0⟩) (4*(9*(0+1))))).memory a = multiplicationImage a :=
  multiplication_computes .writeFirst ⟨0, 0, 0, 0, 0, 0, 0, false⟩ ⟨multiplicationImage, 0⟩
    (show Loaded multiplication multiplicationImage by decide) 0

end Semestr4.CpuPrograms
