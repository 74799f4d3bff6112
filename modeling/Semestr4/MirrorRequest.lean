import Semestr4.MessageServer

/-!
# A text through the message queue and back

A text of less than 120 characters reaches the server with its end, and its
mirror image the client. Of a longer one the last characters stay behind, on
both ways, and what the buffers held before takes their place.
-/

set_option autoImplicit false

namespace Semestr4.MirrorRequest
open Semestr4.ByteText Semestr4.DecimalText Semestr4.CharArray Semestr4.RequestText
open Semestr4.MessageServer

variable {printed : Value → Text} {s : Server} {opened queue : ℤ} {date : Text} {msg : Msgbuf}
variable {text : Text}

structure Sendable (text : Text) : Prop where
  nonempty : text ≠ []
  line : newline ∉ text
  string : 0 ∉ text
  short : text.length < maxMsgLength

def Mirrors (printed : Value → Text) (s : Server) (opened : ℤ) (date : Text) (queue : ℤ)
    (msg : Msgbuf) (text : Text) : Prop :=
  ∃ t reply, exchange printed s opened date queue msg (mirrorLine text) = some (t, reply) ∧
    reply.mtext.string = some text.reverse

/-- What is behind the transferred characters on the server completes the last
ones of the text, and those that stay behind on the client are its first ones. -/
def Completed (text : Text) (mtext : Chars maxMsgLength) : Prop :=
  ∃ rest, terminated (mtext.bytes.drop transferred) = some rest ∧
    (text.take transferred++rest).drop rest.length = text.drop (text.length-transferred) ∧
    text.drop transferred = (text.take (text.length-transferred)).reverse

theorem command_mirror (ht : Sendable text) (msg : Msgbuf) :
    ∃ mtext : Chars maxMsgLength, mtext.bytes = store text msg.mtext.bytes ∧
      command msg (mirrorLine text) =
        .send { msg with mtype := MsgType.mirror.code, mtext := mtext } := by
  obtain ⟨mtext, hcopy, hbytes⟩ := strcpy_bytes (a := msg.mtext) ht.short
  refine ⟨mtext, hbytes, ?_⟩
  simp only [command, arguments_mirror ht.nonempty ht.line, withText, Option.bind_some, hcopy]
  rfl

theorem mirrors_iff_found {mtext : Chars maxMsgLength}
    (hcommand : command msg (mirrorLine text) =
      .send { msg with mtype := MsgType.mirror.code, mtext := mtext })
    (hqueue : getQueue msg.pid s.clients = queue) :
    Mirrors printed s opened date queue msg text ↔
      ∃ found, (s.msg.mtext.overlay mtext transferred).string = some found ∧
        (mtext.overlay ((s.msg.mtext.overlay mtext transferred).snprintf found.reverse)
          transferred).string = some text.reverse := by
  have htype : msgType MsgType.mirror.code = some .mirror := msgType_code .mirror
  simp only [Mirrors, exchange, hcommand, receive, received, htype, answer, mirror_eq, hqueue]
  cases (s.msg.mtext.overlay mtext transferred).string with
  | none => simp
  | some found => simp

theorem Sendable.reverse_string (ht : Sendable text) : 0 ∉ text.reverse :=
  fun hmem => ht.string (List.mem_reverse.mp hmem)

theorem mirrors_short (ht : Sendable text) (hqueue : getQueue msg.pid s.clients = queue)
    (h : text.length < transferred) : Mirrors printed s opened date queue msg text := by
  obtain ⟨mtext, hbytes, hcommand⟩ := command_mirror ht msg
  rw [mirrors_iff_found hcommand hqueue]
  refine ⟨text, overlay_longer hbytes ht.string h, ?_⟩
  have hreply := snprintf_bytes (a := s.msg.mtext.overlay mtext transferred)
    (text.length_reverse ▸ ht.short)
  exact overlay_longer hreply ht.reverse_string (text.length_reverse ▸ h)

theorem mirrors_long (ht : Sendable text) (hqueue : getQueue msg.pid s.clients = queue)
    (h : transferred ≤ text.length) : Mirrors printed s opened date queue msg text ↔
      ∃ rest, terminated (s.msg.mtext.bytes.drop transferred) = some rest ∧
        (text.take transferred++rest).reverse.take transferred++text.drop transferred =
          text.reverse := by
  obtain ⟨mtext, hbytes, hcommand⟩ := command_mirror ht msg
  rw [mirrors_iff_found hcommand hqueue, overlay_shorter hbytes ht.string h]
  cases hrest : terminated (s.msg.mtext.bytes.drop transferred) with
  | none => simp
  | some rest =>
    obtain ⟨hzero, -, -⟩ := terminated_iff.mp hrest
    have hlength : rest.length < maxMsgLength-transferred := by
      have := terminated_length hrest
      rwa [List.length_drop, s.msg.mtext.size] at this
    have hfound : 0 ∉ (text.take transferred++rest).reverse := by
      rw [List.mem_reverse, List.mem_append]
      rintro (hmem | hmem)
      · exact ht.string (List.mem_of_mem_take hmem)
      · exact hzero hmem
    have hsize : (text.take transferred++rest).reverse.length = transferred+rest.length := by
      rw [List.length_reverse, List.length_append, List.length_take, Nat.min_eq_left h]
    have hfits : (text.take transferred++rest).reverse.length < maxMsgLength := by
      rw [hsize]
      have : transferred ≤ maxMsgLength := by decide
      omega
    have hreply := snprintf_bytes (a := s.msg.mtext.overlay mtext transferred) hfits
    have hback := overlay_both hbytes ht.string hreply hfound h (by rw [hsize]; omega)
    simp only [Option.map_some, Option.some.injEq, exists_eq_left', hback]

/-- The reverse of a text, cut where the transferred characters end. -/
theorem completed_iff {rest : Text} (h : transferred ≤ text.length) :
    (text.take transferred++rest).reverse.take transferred++text.drop transferred = text.reverse ↔
      (text.take transferred++rest).drop rest.length = text.drop (text.length-transferred) ∧
        text.drop transferred = (text.take (text.length-transferred)).reverse := by
  have hlength : (text.take transferred++rest).length-transferred = rest.length := by
    rw [List.length_append, List.length_take]
    omega
  have hsplit : text.reverse = (text.drop (text.length-transferred)).reverse++
      (text.take (text.length-transferred)).reverse := by
    rw [← List.reverse_append, List.take_append_drop]
  rw [hsplit, List.take_reverse, hlength]
  constructor
  · intro heq
    obtain ⟨h1, h2⟩ := List.append_inj heq (by simp; omega)
    exact ⟨List.reverse_injective h1, h2⟩
  · rintro ⟨h1, h2⟩
    rw [h1, h2]

theorem mirrors_iff_completed (ht : Sendable text) (hqueue : getQueue msg.pid s.clients = queue) :
    Mirrors printed s opened date queue msg text ↔
      text.length < transferred ∨ Completed text s.msg.mtext := by
  by_cases h : text.length < transferred
  · exact iff_of_true (mirrors_short ht hqueue h) (Or.inl h)
  · rw [or_iff_right h, mirrors_long ht hqueue (Nat.le_of_not_lt h), Completed]
    simp only [completed_iff (Nat.le_of_not_lt h)]

def leftover (b : UInt8) : Chars maxMsgLength := (zeros maxMsgLength).set transferred b

def registered (mtext : Chars maxMsgLength) : Server where
  msg := ⟨0, 0, 0, mtext⟩
  clients := [⟨7, 1, 1⟩]
  closeFlag := false

theorem leftover_last {b : UInt8} (hb : b ≠ 0) (h : transferred ≤ text.length)
    (hcompleted : Completed text (leftover b)) : text.getLast? = some b := by
  obtain ⟨rest, hrest, hlast, -⟩ := hcompleted
  have hbytes : (leftover b).bytes.drop transferred = [b]++0::List.replicate 6 0 := rfl
  have hzero : 0 ∉ [b] := fun hmem => hb (List.mem_singleton.mp hmem).symm
  rw [hbytes, terminated_ended hzero, Option.some.injEq] at hrest
  subst hrest
  have htake : (text.take transferred).length = transferred := by
    rw [List.length_take, Nat.min_eq_left h]
  have hpos : 0 < transferred := by decide
  have hleft := congrArg List.getLast? hlast
  rw [List.length_singleton, List.drop_append_of_le_length (by omega), List.getLast?_append,
    List.getLast?_singleton, Option.some_or, List.getLast?_drop, if_neg (by omega)] at hleft
  exact hleft.symm

/-- With the buffers as they are a text comes back reversed if it is shorter than
what is transferred, or what the server's buffer held completes it by chance. With
every content of the buffers it does so only if it is shorter. -/
theorem mirrors_iff (printed : Value → Text) (text : Text) (ht : Sendable text) :
    (∀ (s : Server) (opened : ℤ) (date : Text) (queue : ℤ) (msg : Msgbuf),
      getQueue msg.pid s.clients = queue → (Mirrors printed s opened date queue msg text ↔
        text.length < transferred ∨ Completed text s.msg.mtext)) ∧
    ((∀ (s : Server) (opened : ℤ) (date : Text) (queue : ℤ) (msg : Msgbuf),
      getQueue msg.pid s.clients = queue → Mirrors printed s opened date queue msg text) ↔
        text.length < transferred) := by
  refine ⟨fun s opened date queue msg hqueue => mirrors_iff_completed ht hqueue, ?_⟩
  constructor
  · intro hall
    by_contra h
    have hlast : ∀ b : UInt8, b ≠ 0 → text.getLast? = some b := by
      intro b hb
      have hmirrors := hall (registered (leftover b)) 0 [] 1 ⟨0, 7, 0, leftover 0⟩ rfl
      have hcompleted := ((mirrors_iff_completed ht rfl).mp hmirrors).resolve_left h
      exact leftover_last hb (Nat.le_of_not_lt h) hcompleted
    have hone := (hlast 1 (by decide)).symm.trans (hlast 2 (by decide))
    exact absurd hone (by decide)
  · exact fun h s opened date queue msg hqueue => mirrors_short ht hqueue h

theorem mirrors_ab : Mirrors (fun _ => []) (registered (leftover 9)) 0 [] 1 ⟨0, 7, 0, leftover 9⟩
    [97, 98] :=
  ((mirrors_iff (fun _ => []) [97, 98] ⟨by decide, by decide, by decide, by decide⟩).1
    (registered (leftover 9)) 0 [] 1 ⟨0, 7, 0, leftover 9⟩ rfl).mpr (Or.inl (by decide))

/-- The last of 121 characters stays where it was. -/
theorem last_character_stays : ¬ ∀ (printed : Value → Text) (text : Text), Sendable text →
    ∀ (s : Server) (opened : ℤ) (date : Text) (queue : ℤ) (msg : Msgbuf),
      getQueue msg.pid s.clients = queue → Mirrors printed s opened date queue msg text := by
  intro h
  have ht : Sendable (List.replicate 120 97++[98]) :=
    ⟨by simp, by simp [newline], by simp, by simp [maxMsgLength]⟩
  have hqueue : getQueue 7 (registered (leftover 0)).clients = 1 := by decide
  have hmirrors := h (fun _ => []) _ ht (registered (leftover 0)) 0 [] 1 ⟨0, 7, 0, leftover 0⟩ hqueue
  have hlong : ¬ (List.replicate 120 97++[(98 : UInt8)]).length < transferred := by
    simp [transferred, maxMsgLength, headerLength]
  obtain ⟨rest, -, -, hstays⟩ := ((mirrors_iff_completed ht hqueue).mp hmirrors).resolve_left hlong
  exact absurd hstays (by decide +kernel)

end Semestr4.MirrorRequest
