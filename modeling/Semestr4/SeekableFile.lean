import Semestr4.ByteText

/-!
# Files with a position

An open file is its content with the position of the next transfer. Reading
stops at the end of the file, and what a short read does not deliver stays in
the buffer as it was. Writing beyond the end leaves zeros in between. All
transfers are complete.
-/

set_option autoImplicit false

namespace Semestr4.SeekableFile
open Semestr4.ByteText

structure Handle where
  content : Text
  position : ℕ
  deriving DecidableEq, Repr

def seek (h : Handle) (offset : ℕ) : Handle := { h with position := offset }

def available (h : Handle) (count : ℕ) : Text := (h.content.drop h.position).take count

def read (h : Handle) (count : ℕ) : Text × Handle :=
  (available h count, { h with position := h.position+(available h count).length })

def fill (buffer data : Text) : Text := data++buffer.drop data.length

def overwrite (content : Text) (offset : ℕ) (data : Text) : Text :=
  if data = [] then content
  else (content++List.replicate (offset-content.length) 0).take offset++data++
    content.drop (offset+data.length)

def write (h : Handle) (data : Text) : Handle :=
  { content := overwrite h.content h.position data, position := h.position+data.length }

@[simp] theorem write_content (h : Handle) (data : Text) :
    (write h data).content = overwrite h.content h.position data := rfl

theorem available_length (h : Handle) (count : ℕ) : (available h count).length ≤ count :=
  List.length_take_le _ _

theorem fill_length {buffer data : Text} (h : data.length ≤ buffer.length) :
    (fill buffer data).length = buffer.length := by
  rw [fill, List.length_append, List.length_drop]
  omega

theorem fill_whole {buffer data : Text} (h : data.length = buffer.length) :
    fill buffer data = data := by
  rw [fill, h, List.drop_length, List.append_nil]

theorem available_part (before part after : Text) :
    available ⟨before++(part++after), before.length⟩ part.length = part := by
  simp [available]

theorem overwrite_part {part data : Text} (h : data.length = part.length) (before after : Text) :
    overwrite (before++(part++after)) before.length data = before++(data++after) := by
  cases data with
  | nil =>
    have hp : part = [] := List.length_eq_zero_iff.mp h.symm
    rw [overwrite, if_pos rfl, hp]
  | cons b data =>
    have hfill : before.length-(before++(part++after)).length = 0 := by
      rw [List.length_append]
      omega
    rw [overwrite, if_neg (List.cons_ne_nil b data), hfill, h]
    simp

theorem overwrite_length {data : Text} (h : data ≠ []) (content : Text) (offset : ℕ) :
    (overwrite content offset data).length = max content.length (offset+data.length) := by
  rw [overwrite, if_neg h]
  simp only [List.length_append, List.length_take, List.length_replicate, List.length_drop]
  omega

theorem overwrite_end (content data : Text) :
    overwrite content content.length data = content++data := by
  unfold overwrite
  split
  · rename_i h
    rw [h, List.append_nil]
  · simp

end Semestr4.SeekableFile
