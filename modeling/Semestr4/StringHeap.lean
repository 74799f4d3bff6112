import Semestr4.CharArray
import Semestr4.StrtokMemory

/-!
# Strings in blocks

Memory grows at its end by the blocks that are allocated. Strings that end in
memory and stand apart can be cut one after the other, and copied into blocks of
their own.
-/

set_option autoImplicit false

namespace Semestr4.StringHeap
open Semestr4.ByteText Semestr4.DecimalText Semestr4.StrtokMemory

def grow (block : Text) (m : Memory) : Memory := ⟨m.bytes++block, m.saved⟩

def write (p : ℕ) (s : Text) (m : Memory) : Memory :=
  ⟨m.bytes.take p++CharArray.store s (m.bytes.drop p), m.saved⟩

def Terminated (m : Memory) (p : ℕ) : Prop := p+(m.string p).length < m.bytes.length

def Apart (m : Memory) (p q : ℕ) : Prop := p+(m.string p).length < q ∨ q+(m.string q).length < p

variable {m m' : Memory}

theorem Apart.symm {p q : ℕ} (h : Apart m p q) : Apart m q p := Or.symm h

theorem Apart.kept {p q : ℕ} (h : Apart m p q) (hp : m'.string p = m.string p)
    (hq : m'.string q = m.string q) : Apart m' p q := by
  rw [Apart, hp, hq]
  exact h

theorem Terminated.kept {p : ℕ} (h : Terminated m p) (hp : m'.string p = m.string p)
    (hsize : m.bytes.length ≤ m'.bytes.length) : Terminated m' p := by
  rw [Terminated, hp]
  exact h.trans_le hsize

theorem grow_size (block : Text) (m : Memory) :
    (grow block m).bytes.length = m.bytes.length+block.length := List.length_append

theorem string_grow {p : ℕ} (h : Terminated m p) (block : Text) :
    (grow block m).string p = m.string p := by
  have hshort : (m.string p).length < (m.bytes.drop p).length := by
    rw [List.length_drop]
    exact Nat.lt_sub_of_add_lt (Nat.add_comm .. ▸ h)
  have hp : p ≤ m.bytes.length := (Nat.le_add_right ..).trans h.le
  change cstring ((m.bytes++block).drop p) = cstring (m.bytes.drop p)
  rw [List.drop_append_of_le_length hp, cstring, List.takeWhile_append]
  exact if_neg hshort.ne

/-- Memory does not shrink, and its strings stay. -/
structure Keeps (m m' : Memory) : Prop where
  size : m.bytes.length ≤ m'.bytes.length
  strings : ∀ p, Terminated m p → m'.string p = m.string p

theorem Keeps.refl (m : Memory) : Keeps m m := ⟨le_refl _, fun _ _ => rfl⟩

theorem Keeps.terminated {p : ℕ} (h : Keeps m m') (hp : Terminated m p) : Terminated m' p :=
  hp.kept (h.strings p hp) h.size

theorem Keeps.trans {m₁ : Memory} (h : Keeps m m₁) (h' : Keeps m₁ m') : Keeps m m' :=
  ⟨h.size.trans h'.size, fun p hp => by rw [h'.strings p (h.terminated hp), h.strings p hp]⟩

theorem grow_keeps (block : Text) (m : Memory) : Keeps m (grow block m) :=
  ⟨by rw [grow_size]; exact Nat.le_add_right .., fun _ hp => string_grow hp block⟩

theorem string_block (s rest : Text) (m : Memory) :
    (grow (s++0::rest) m).string m.bytes.length = cstring s := by
  rw [Memory.string, grow, List.drop_left, cstring_ended]

theorem block_terminated (s rest : Text) (m : Memory) :
    Terminated (grow (s++0::rest) m) m.bytes.length := by
  have hle := cstring_length_le s
  rw [Terminated, string_block, grow_size, List.length_append, List.length_cons]
  omega

theorem write_size {p : ℕ} {s : Text} (h : p+s.length < m.bytes.length) :
    (write p s m).bytes.length = m.bytes.length := by
  have hroom : s.length < (m.bytes.drop p).length := by
    rw [List.length_drop]
    omega
  rw [write, List.length_append, CharArray.store_length hroom, List.length_take, List.length_drop]
  omega

theorem string_write {p : ℕ} (h : p ≤ m.bytes.length) (s : Text) :
    (write p s m).string p = cstring s := by
  have htake : (m.bytes.take p).length = p := List.length_take_of_le h
  rw [Memory.string, write, List.drop_append_of_le_length htake.ge, List.drop_of_length_le htake.le,
    List.nil_append, CharArray.store, cstring_ended]

theorem write_terminated {p : ℕ} {s : Text} (h : p+s.length < m.bytes.length) :
    Terminated (write p s m) p := by
  have hle := cstring_length_le s
  rw [Terminated, string_write (by omega), write_size h]
  omega

structure Separate (m : Memory) (ps : List ℕ) : Prop where
  terminated : ∀ p ∈ ps, Terminated m p
  apart : ps.Pairwise (Apart m)

theorem Separate.perm {ps qs : List ℕ} (h : Separate m ps) (hperm : ps.Perm qs) : Separate m qs :=
  ⟨fun p hp => h.terminated p (hperm.mem_iff.mpr hp),
    (hperm.pairwise_iff Apart.symm).mp h.apart⟩

theorem Separate.tail {p : ℕ} {ps : List ℕ} (h : Separate m (p::ps)) : Separate m ps :=
  ⟨fun q hq => h.terminated q (List.mem_cons_of_mem _ hq), (List.pairwise_cons.mp h.apart).2⟩

theorem Separate.kept {ps : List ℕ} (h : Separate m ps)
    (hstrings : ∀ p ∈ ps, m'.string p = m.string p) (hsize : m.bytes.length ≤ m'.bytes.length) :
    Separate m' ps :=
  ⟨fun p hp => (h.terminated p hp).kept (hstrings p hp) hsize,
    h.apart.imp_of_mem fun hp hq hapart => hapart.kept (hstrings _ hp) (hstrings _ hq)⟩

theorem Separate.block {ps : List ℕ} (h : Separate m ps) (s rest : Text) :
    Separate (grow (s++0::rest) m) (m.bytes.length::ps) := by
  have hkept : ∀ p ∈ ps, (grow (s++0::rest) m).string p = m.string p :=
    fun p hp => string_grow (h.terminated p hp) _
  obtain ⟨hterminated, hapart⟩ := h.kept hkept (grow_keeps _ m).size
  refine ⟨List.forall_mem_cons.mpr ⟨block_terminated s rest m, hterminated⟩,
    List.pairwise_cons.mpr ⟨fun p hp => Or.inr ?_, hapart⟩⟩
  rw [hkept p hp]
  exact h.terminated p hp

/-- Memory does not shrink, and strings apart from the one at `start` stay. -/
structure Frame (m m' : Memory) (start : ℕ) : Prop where
  size : m.bytes.length ≤ m'.bytes.length
  strings : ∀ q, Terminated m q → Apart m start q → m'.string q = m.string q

theorem Separate.frame {p : ℕ} {ps : List ℕ} (h : Separate m (p::ps)) (hframe : Frame m m' p) :
    Separate m' ps ∧ ∀ q ∈ ps, m'.string q = m.string q := by
  have hkept : ∀ q ∈ ps, m'.string q = m.string q := fun q hq =>
    hframe.strings q (h.tail.terminated q hq) ((List.pairwise_cons.mp h.apart).1 q hq)
  exact ⟨h.tail.kept hkept hframe.size, hkept⟩

theorem Frame.keeps {p : ℕ} {m₁ : Memory} (h : Frame m m₁ p) (hkeeps : Keeps m₁ m') :
    Frame m m' p := by
  refine ⟨h.size.trans hkeeps.size, fun q hq hapart => ?_⟩
  have hstring := h.strings q hq hapart
  rw [hkeeps.strings q (hq.kept hstring h.size), hstring]

/-- The tokens of a string are cut out of it apart from each other. -/
theorem pointers_separate (delim : Text) {start : ℕ} (h : Terminated m start) :
    ∃ ps m', pointers delim m.bytes.length start m = some (ps, m') ∧
      ps.map m'.string = words delim (m.string start) ∧ Separate m' ps ∧ Frame m m' start := by
  have hfuel : (m.string start).length ≤ m.bytes.length := (Nat.le_add_left ..).trans h.le
  obtain ⟨ps, m', hpointers, hcuts⟩ := pointers_cuts delim m.bytes.length start m hfuel
  have hinside := pointers_inside hpointers
  refine ⟨ps, m', hpointers, hcuts.strings, ⟨fun p hp => ?_, hcuts.apart.imp Or.inl⟩,
    hinside.size.ge, ?_⟩
  · rw [Terminated, hinside.size]
    exact (hinside.within p hp).trans_lt h
  · rintro q - (hbehind | hbefore)
    · exact hinside.behind q hbehind
    · exact hcuts.frame q hbefore.le

end Semestr4.StringHeap
