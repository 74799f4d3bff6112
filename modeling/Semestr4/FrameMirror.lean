import Semestr4.FrameService

/-!
# A text in the frames of the POSIX queue and back

Both sides take a frame apart as it was put together, also where the text has
separators of its own. The server's name is longer than the shortest names of
clients, so that the reply to the longest requests does not fit its block.
-/

set_option autoImplicit false

namespace Semestr4.FrameMirror
open Semestr4.ByteText Semestr4.DecimalText Semestr4.CharArray Semestr4.RequestText
open Semestr4.FrameService

variable {printed : Value → Text} {mode : MsgType} {queueName arg name text : Text}

def IsRandomName (name : Text) : Prop :=
  ∃ word, name = 47::word ∧ 4 ≤ word.length ∧ word.length ≤ 13 ∧ ∀ b ∈ word, 97 ≤ b ∧ b ≤ 122

structure IsLine (text : Text) : Prop where
  nonempty : text ≠ []
  line : newline ∉ text
  string : 0 ∉ text

/-- The server takes mode, name and text from the request as they were, its reply
fits, and the client takes the reverse of the text from it. -/
def Mirrors (printed : Value → Text) (name text : Text) : Prop :=
  ∃ request reply, command name (mirrorLine text) = .send request ∧
    request.string.bind fields = some (modeString .mirror, name, some text) ∧
    (∀ s date, s.running = true →
      receive printed s ⟨request, date⟩ = some (s, [(name, reply)])) ∧
    shown reply = some text.reverse

theorem modeString_digit (mode : MsgType) : ∃ d, modeString mode = [d] ∧ d ≠ 0 ∧ d ≠ bar := by
  cases mode
  · exact ⟨49, by decide +kernel, by decide, by decide⟩
  · exact ⟨50, by decide +kernel, by decide, by decide⟩
  · exact ⟨51, by decide +kernel, by decide, by decide⟩
  · exact ⟨52, by decide +kernel, by decide, by decide⟩
  · exact ⟨53, by decide +kernel, by decide, by decide⟩

theorem frameText_length : (frameText mode queueName arg).length =
    queueName.length+arg.length+3 := by
  obtain ⟨d, hd, -, -⟩ := modeString_digit mode
  simp only [frameText, hd, List.length_append, List.length_cons, List.length_nil]
  omega

theorem frameText_string (hqueue : 0 ∉ queueName) (harg : 0 ∉ arg) :
    0 ∉ frameText mode queueName arg := by
  obtain ⟨d, hd, hzero, -⟩ := modeString_digit mode
  have hbar : (0 : UInt8) ≠ bar := by decide
  simp only [frameText, hd, List.mem_append, List.mem_cons, List.not_mem_nil, or_false]
  rintro (h | h | h | h | h)
  · exact hzero h.symm
  · exact hbar h
  · exact hqueue h
  · exact hbar h
  · exact harg h

theorem fields_frameText (hne : queueName ≠ []) (hbar : bar ∉ queueName) (harg : IsLine arg) :
    fields (frameText mode queueName arg) = some (modeString mode, queueName, some arg) := by
  obtain ⟨d, hd, -, hdbar⟩ := modeString_digit mode
  have htoken : ∀ {s : Text}, bar ∉ s → ∀ b ∈ s, b ∉ [bar] := fun h b hb hmem =>
    h (List.mem_singleton.mp hmem ▸ hb)
  have hmode : strtok [bar] (frameText mode queueName arg) =
      some (modeString mode, queueName++bar::arg) := by
    apply strtok_token (by simp [hd]) (htoken _) (List.mem_singleton_self _)
    rw [hd]
    exact fun hmem => hdbar (List.mem_singleton.mp hmem).symm
  have hname : strtok [bar] (queueName++bar::arg) = some (queueName, arg) :=
    strtok_token hne (htoken hbar) (List.mem_singleton_self _) arg
  have htext : strtok [newline] arg = some (arg, []) := by
    apply strtok_last harg.nonempty
    exact fun b hb hmem => harg.line (List.mem_singleton.mp hmem ▸ hb)
  simp only [fields, hmode, hname, htext, Option.map_some]

theorem frame_fits (h : (frameText mode queueName arg).length < maxMsgLength) :
    ∃ block, frame mode queueName arg = some block ∧
      block.bytes = store (frameText mode queueName arg) (zeros maxMsgLength).bytes :=
  strcpy_bytes h

theorem frame_none (h : maxMsgLength ≤ (frameText mode queueName arg).length) :
    frame mode queueName arg = none := dif_neg (Nat.not_lt.mpr h)

theorem block_string {block : Block} {s bytes : Text} (hblock : block.bytes = store s bytes)
    (hs : 0 ∉ s) : block.string = some s := by
  rw [Chars.string, hblock]
  exact terminated_ended hs _

theorem IsRandomName.characters (h : IsRandomName name) :
    name ≠ [] ∧ bar ∉ name ∧ 0 ∉ name ∧ 5 ≤ name.length := by
  obtain ⟨word, rfl, hshort, -, hletters⟩ := h
  have hword : ∀ b, (b < 97 ∨ 122 < b) → b ∉ word := by
    intro b hb hmem
    obtain ⟨h1, h2⟩ := hletters b hmem
    rcases hb with hb | hb
    · exact absurd h1 (UInt8.not_le.mpr hb)
    · exact absurd h2 (UInt8.not_le.mpr hb)
  refine ⟨List.cons_ne_nil _ _, ?_, ?_, by rw [List.length_cons]; omega⟩
  · rw [List.mem_cons, not_or]
    exact ⟨by decide, hword bar (by decide)⟩
  · rw [List.mem_cons, not_or]
    exact ⟨by decide, hword 0 (by decide)⟩

theorem IsLine.reverse (h : IsLine text) : IsLine text.reverse where
  nonempty := fun heq => h.nonempty (List.reverse_eq_nil_iff.mp heq)
  line := fun hmem => h.line (List.mem_reverse.mp hmem)
  string := fun hmem => h.string (List.mem_reverse.mp hmem)

theorem command_mirror (hname : IsRandomName name) (htext : IsLine text)
    (hfits : (frameText .mirror name text).length < maxMsgLength) :
    ∃ request, command name (mirrorLine text) = .send request ∧
      request.bytes = store (frameText .mirror name text) (zeros maxMsgLength).bytes := by
  obtain ⟨request, hframe, hbytes⟩ := frame_fits hfits
  have hline : (mirrorLine text).length < maxMsgLength := by
    obtain ⟨-, -, -, hlength⟩ := hname.characters
    rw [frameText_length] at hfits
    simp only [mirrorLine, mirrorWord, List.length_append, List.length_cons, List.length_nil]
    omega
  refine ⟨request, ?_, hbytes⟩
  rw [command, if_pos hline, arguments_mirror htext.nonempty htext.line]
  change Command.ofFrame (frame .mirror name text) = _
  rw [hframe]
  rfl

theorem request_fields (hname : IsRandomName name) (htext : IsLine text) {request : Block}
    (hbytes : request.bytes = store (frameText .mirror name text) (zeros maxMsgLength).bytes) :
    request.string.bind fields = some (modeString .mirror, name, some text) := by
  obtain ⟨hne, hbar, hzero, -⟩ := hname.characters
  rw [block_string hbytes (frameText_string hzero htext.string), Option.bind_some]
  exact fields_frameText hne hbar htext

theorem receive_mirror (hname : IsRandomName name) (htext : IsLine text) {request : Block}
    (hbytes : request.bytes = store (frameText .mirror name text) (zeros maxMsgLength).bytes) (s : Server)
    (date : Text) (hs : s.running = true) :
    receive printed s ⟨request, date⟩ =
      (frame .mirror serverName text.reverse).map fun block => (s, [(name, block)]) := by
  have hmode : (request.bytes.headD 0).toNat-48 = MsgType.mirror.code := by
    have hdigit : modeString .mirror = [50] := by decide +kernel
    rw [hbytes, store, frameText, hdigit]
    rfl
  rw [receive, if_pos hs, request_fields hname htext hbytes, Option.bind_some]
  simp only [hmode, msgType_code, Option.map_some, Option.bind_some, mirror_eq]
  rfl

theorem reply_shown (htext : IsLine text) {reply : Block}
    (hbytes : reply.bytes = store (frameText .mirror serverName text.reverse) (zeros maxMsgLength).bytes) :
    shown reply = some text.reverse := by
  have hzero : 0 ∉ serverName := by decide
  rw [shown, block_string hbytes (frameText_string hzero htext.reverse.string), Option.bind_some,
    fields_frameText (by decide) (by decide) htext.reverse]
  rfl

theorem replyText_length : (frameText .mirror serverName text.reverse).length = text.length+10 := by
  rw [frameText_length, List.length_reverse]
  simp only [serverName, List.length_cons, List.length_nil]
  omega

theorem mirrors_short (hname : IsRandomName name) (htext : IsLine text)
    (hfits : (frameText .mirror name text).length < maxMsgLength) (h : text.length ≤ 117) :
    Mirrors printed name text := by
  obtain ⟨request, hcommand, hrequest⟩ := command_mirror hname htext hfits
  have hshort : (frameText .mirror serverName text.reverse).length < maxMsgLength := by
    rw [replyText_length, maxMsgLength]
    omega
  obtain ⟨reply, hframe, hreply⟩ := frame_fits hshort
  refine ⟨request, reply, hcommand, request_fields hname htext hrequest, ?_,
    reply_shown htext hreply⟩
  intro s date hs
  rw [receive_mirror hname htext hrequest s date hs, hframe, Option.map_some]

theorem long_not_mirrored (hname : IsRandomName name) (htext : IsLine text)
    (hfits : (frameText .mirror name text).length < maxMsgLength) (h : 117 < text.length) :
    ¬ Mirrors printed name text := by
  obtain ⟨request, hcommand, hrequest⟩ := command_mirror hname htext hfits
  have hlong : maxMsgLength ≤ (frameText .mirror serverName text.reverse).length := by
    rw [replyText_length, maxMsgLength]
    omega
  rintro ⟨request', reply, hcommand', -, hreceive, -⟩
  rw [hcommand] at hcommand'
  cases hcommand'
  have hreply := hreceive ⟨[], true⟩ [] rfl
  rw [receive_mirror hname htext hrequest _ _ rfl, frame_none hlong] at hreply
  cases hreply

/-- A request that fits is mirrored if and only if its text has at most 117
characters: the name of the server takes the place of the client's. -/
theorem mirrors_iff_reply (printed : Value → Text) (name text : Text) (hname : IsRandomName name)
    (htext : IsLine text) (hfits : (frameText .mirror name text).length < maxMsgLength) :
    Mirrors printed name text ↔ text.length ≤ 117 := by
  constructor
  · intro hmirrors
    by_contra hlong
    exact long_not_mirrored hname htext hfits (Nat.not_le.mp hlong) hmirrors
  · exact mirrors_short hname htext hfits

def abcd : Text := [47, 97, 98, 99, 100]

theorem abcd_random : IsRandomName abcd :=
  ⟨[97, 98, 99, 100], rfl, by decide, by decide, by simp⟩

/-- A text with a separator in front. -/
theorem mirrors_separator : Mirrors (fun _ => []) abcd [124, 97] :=
  (mirrors_iff_reply (fun _ => []) abcd [124, 97] abcd_random ⟨by decide, by decide, by decide⟩
    (by decide +kernel)).mpr (by decide)

/-- The reply to a text of 118 characters does not fit, though the request does. -/
theorem reply_too_long : ¬ ∀ (printed : Value → Text) (name text : Text), IsRandomName name →
    IsLine text → (frameText .mirror name text).length < maxMsgLength →
    Mirrors printed name text := by
  intro h
  have htext : IsLine (List.replicate 118 97) := ⟨by simp, by simp [newline], by simp⟩
  have hfits : (frameText .mirror abcd (List.replicate 118 97)).length < maxMsgLength := by
    rw [frameText_length, List.length_replicate]
    decide
  have hlong : 117 < (List.replicate 118 (97 : UInt8)).length := by
    rw [List.length_replicate]
    decide
  exact long_not_mirrored abcd_random htext hfits hlong
    (h (fun _ => []) abcd (List.replicate 118 97) abcd_random htext hfits)

end Semestr4.FrameMirror
