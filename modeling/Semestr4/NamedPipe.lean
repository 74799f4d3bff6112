import Semestr4.ByteText

/-!
# Named pipes

A named pipe holds the bytes that were written and not read, as long as some
process has an end of it open. A process that waits in its open counts as
having the end. A read takes what there is, reports the end of the file where
nothing is left and no writer either, and waits otherwise.
-/

set_option autoImplicit false

namespace Semestr4.NamedPipe
open Semestr4.ByteText

structure Pipe where
  content : Text
  readers : ℕ
  writers : ℕ
  deriving DecidableEq, Repr

def Pipe.unused : Pipe := ⟨[], 0, 0⟩

/-- Once the last end is closed the content is discarded. -/
def Pipe.settle (p : Pipe) : Pipe :=
  if p.readers = 0 ∧ p.writers = 0 then { p with content := [] } else p

def Pipe.openRead (p : Pipe) : Pipe := { p with readers := p.readers+1 }

def Pipe.openWrite (p : Pipe) : Pipe := { p with writers := p.writers+1 }

def Pipe.closeRead (p : Pipe) : Pipe := Pipe.settle { p with readers := p.readers-1 }

def Pipe.closeWrite (p : Pipe) : Pipe := Pipe.settle { p with writers := p.writers-1 }

/-- A read that waits gives nothing. -/
def Pipe.read (p : Pipe) (count : ℕ) : Option (Text × Pipe) :=
  if p.content = [] then if p.writers = 0 then some ([], p) else none
  else some (p.content.take count, { p with content := p.content.drop count })

def Pipe.write (p : Pipe) (data : Text) : Pipe := { p with content := p.content++data }

def Pipe.KeepsOnCloseRead (p : Pipe) : Prop := p.readers ≤ 1 → p.writers = 0 → p.content = []

def Pipe.KeepsOnCloseWrite (p : Pipe) : Prop := p.writers ≤ 1 → p.readers = 0 → p.content = []

instance (p : Pipe) : Decidable p.KeepsOnCloseRead :=
  inferInstanceAs (Decidable (_ → _ → _))

instance (p : Pipe) : Decidable p.KeepsOnCloseWrite :=
  inferInstanceAs (Decidable (_ → _ → _))

variable {p : Pipe}

@[simp] theorem write_content (p : Pipe) (data : Text) :
    (p.write data).content = p.content++data := rfl

theorem settle_content : p.settle.content = p.content ∨ p.settle.content = [] := by
  unfold Pipe.settle
  split
  · exact Or.inr rfl
  · exact Or.inl rfl

theorem settle_keeps :
    p.settle.content = p.content ↔ (p.readers = 0 → p.writers = 0 → p.content = []) := by
  unfold Pipe.settle
  split
  · rename_i h
    exact ⟨fun hc _ _ => hc.symm, fun hk => (hk h.1 h.2).symm⟩
  · rename_i h
    exact iff_of_true rfl fun hr hw => absurd ⟨hr, hw⟩ h

theorem settle_whole (h : p.settle.content.length = p.content.length) :
    p.settle.content = p.content := by
  rcases settle_content (p := p) with hc | hc
  · exact hc
  · rw [hc] at h ⊢
    exact (List.length_eq_zero_iff.mp h.symm).symm

theorem closeRead_keeps : p.closeRead.content = p.content ↔ p.KeepsOnCloseRead := by
  have h := settle_keeps (p := { p with readers := p.readers-1 })
  rw [Nat.sub_eq_zero_iff_le] at h
  exact h

theorem closeWrite_keeps : p.closeWrite.content = p.content ↔ p.KeepsOnCloseWrite := by
  have h := settle_keeps (p := { p with writers := p.writers-1 })
  rw [Nat.sub_eq_zero_iff_le, forall_comm] at h
  exact h

end Semestr4.NamedPipe
