import Semestr4.FrameProtocol

/-!
# The reply to a line of input

A line that asks for something is sent as a frame of its kind. The server replies to
the queue the frame names, and to no other, with the answer to the line.
-/

set_option autoImplicit false

namespace Semestr4.FrameReplies
open Semestr4.ByteText Semestr4.DecimalText Semestr4.CharArray Semestr4.RequestText
open Semestr4.FrameService Semestr4.FrameMirror Semestr4.FrameProtocol Semestr4.ScheduledRun

variable {printed : Value → Text} {name line : Text} {request : Block}

inductive Requested (name line : Text) (request : Block) : Prop where
  | time (argument : Option Text) (command : arguments (cstring line) = some (timeWord, argument))
      (framed : frame .time name [] = some request)
  | stop (stops : isEnd line = true) (framed : frame .stop name [] = some request)
  | calculate (text : Text) (command : arguments (cstring line) = some (calcWord, some text))
      (framed : frame .calculate name text = some request)
  | mirror (text : Text) (command : arguments (cstring line) = some (mirrorWord, some text))
      (framed : frame .mirror name text = some request)

theorem ofFrame_send {framed : Option Block} (h : Command.ofFrame framed = .send request) :
    framed = some request := by
  cases framed with
  | none => cases h
  | some block =>
    cases h
    rfl

theorem firstWord_arguments {word : Text} {argument : Option Text}
    (h : arguments (cstring line) = some (word, argument)) : firstWord line = some word := by
  rw [firstWord, h, Option.map_some]

theorem command_send (h : command name (cstring line) = .send request) :
    Requested name line request := by
  rw [command] at h
  split at h
  · split at h
    · cases h
    · rename_i word argument harguments
      by_cases htime : word = timeWord
      · rw [if_pos htime] at h
        exact .time argument (htime ▸ harguments) (ofFrame_send h)
      rw [if_neg htime] at h
      by_cases hend : word = endWord
      · rw [if_pos hend] at h
        refine .stop ?_ (ofFrame_send h)
        rw [isEnd, firstWord_arguments harguments, hend, decide_eq_true_eq]
      rw [if_neg hend] at h
      by_cases hcalc : word = calcWord
      · rw [if_pos hcalc] at h
        obtain ⟨text, rfl, hframe⟩ := Option.bind_eq_some_iff.mp (ofFrame_send h)
        exact .calculate text (hcalc ▸ harguments) hframe
      rw [if_neg hcalc] at h
      by_cases hmirror : word = mirrorWord
      · rw [if_pos hmirror] at h
        obtain ⟨text, rfl, hframe⟩ := Option.bind_eq_some_iff.mp (ofFrame_send h)
        exact .mirror text (hmirror ▸ harguments) hframe
      rw [if_neg hmirror] at h
      cases h
  · cases h

theorem command_skip (h : command name (cstring line) = .skip) :
    isEnd line = false ∧ isRequest line = false := by
  rw [isEnd, isRequest, decide_eq_false_iff_not, decide_eq_false_iff_not]
  rw [command] at h
  split at h
  · split at h
    · rename_i hnone
      simp [firstWord, hnone]
    · rename_i word argument harguments
      rw [firstWord_arguments harguments]
      have hframe : ∀ framed, Command.ofFrame framed ≠ .skip := fun framed => by
        cases framed <;> exact Command.noConfusion
      by_cases htime : word = timeWord
      · rw [if_pos htime] at h
        exact absurd h (hframe _)
      rw [if_neg htime] at h
      by_cases hend : word = endWord
      · rw [if_pos hend] at h
        exact absurd h (hframe _)
      rw [if_neg hend] at h
      by_cases hcalc : word = calcWord
      · rw [if_pos hcalc] at h
        exact absurd h (hframe _)
      rw [if_neg hcalc] at h
      by_cases hmirror : word = mirrorWord
      · rw [if_pos hmirror] at h
        exact absurd h (hframe _)
      simp [htime, hend, hcalc, hmirror]
  · cases h

namespace Requested

theorem framed (h : Requested name line request) :
    ∃ mode arg, frame mode name arg = some request := by
  cases h with
  | time _ _ framed => exact ⟨_, _, framed⟩
  | stop _ framed => exact ⟨_, _, framed⟩
  | calculate _ _ framed => exact ⟨_, _, framed⟩
  | mirror _ _ framed => exact ⟨_, _, framed⟩

theorem sender_name (hname : IsName name) (h : Requested name line request) :
    sender request = some name := by
  obtain ⟨mode, arg, hframe⟩ := h.framed
  exact frame_sender hname hframe

theorem isRequest_of_goes (h : Requested name line request) (hgoes : isEnd line = false) :
    isRequest line = true := by
  rw [isRequest, decide_eq_true_eq]
  cases h with
  | time _ command _ => rw [firstWord_arguments command]; decide
  | stop stops _ => rw [hgoes] at stops; cases stops
  | calculate _ command _ => rw [firstWord_arguments command]; decide
  | mirror _ command _ => rw [firstWord_arguments command]; decide

theorem kind_stop (h : Requested name line request) (hstops : isEnd line = true) :
    kind request = MsgType.stop.code := by
  have hother : ∀ {word argument}, arguments (cstring line) = some (word, argument) →
      word ≠ endWord → False := by
    intro word argument harguments hword
    rw [isEnd, firstWord_arguments harguments, decide_eq_true_eq] at hstops
    exact hword (Option.some.inj hstops)
  cases h with
  | time _ command _ => exact (hother command (by decide)).elim
  | stop _ framed => exact frame_kind framed
  | calculate _ command _ => exact (hother command (by decide)).elim
  | mirror _ command _ => exact (hother command (by decide)).elim

end Requested

variable {s s' : Server} {block : Block} {date : Text} {replies : List (Text × Block)}

theorem receive_sender (h : receive printed s ⟨block, date⟩ = some (s', replies)) :
    replies = [] ∨ ∃ q reply, sender block = some q ∧ replies = [(q, reply)] := by
  rw [receive] at h
  split at h
  · obtain ⟨⟨mode, q, text⟩, hfields, hbranch⟩ := Option.bind_eq_some_iff.mp h
    have hsender : sender block = some q := by
      rw [sender, hfields, Option.map_some]
    have hanswer : ∀ {u : Server} {type : MsgType} {arg : Text},
        u.answer type q arg = some (s', replies) →
        replies = [] ∨ ∃ q reply, sender block = some q ∧ replies = [(q, reply)] := by
      intro u type arg hanswer
      obtain ⟨reply, -, heq⟩ := Option.map_eq_some_iff.mp hanswer
      cases heq
      exact Or.inr ⟨q, reply, hsender, rfl⟩
    dsimp only at hbranch
    split at hbranch
    · exact hanswer hbranch
    · obtain ⟨result, -, hresult⟩ := Option.bind_eq_some_iff.mp hbranch
      obtain ⟨arg, -, hreply⟩ := Option.bind_eq_some_iff.mp hresult
      exact hanswer hreply
    · obtain ⟨arg, -, hreply⟩ := Option.bind_eq_some_iff.mp hbranch
      exact hanswer hreply
    · cases hbranch
      exact Or.inl rfl
    · obtain ⟨arg, -, hreply⟩ := Option.bind_eq_some_iff.mp hbranch
      exact hanswer hreply
    · cases hbranch
  · cases h

theorem receive_frame (hname : IsName name) {mode : MsgType} {arg : Text}
    (hframe : frame mode name arg = some block)
    (h : receive printed s ⟨block, date⟩ = some (s', replies)) :
    match mode with
    | .init => ∃ reply, replies = [(name, reply)]
    | .stop => replies = []
    | .time => ∃ reply, frame .time serverName date = some reply ∧ replies = [(name, reply)]
    | .calculate => ∃ result reply, (firstLine arg).bind calculate = some result ∧
        frame .calculate serverName (printed result) = some reply ∧ replies = [(name, reply)]
    | .mirror => ∃ text reply, firstLine arg = some text ∧
        frame .mirror serverName text.reverse = some reply ∧ replies = [(name, reply)] := by
  have hkind : msgType ((block.bytes.headD 0).toNat-48) = some mode := by
    rw [← msgType_code mode, ← frame_kind hframe]
    rfl
  have hfitted : ∀ {size : ℕ} {text out : Text}, fitted size text = some out → out = text := by
    intro size text out hfits
    rw [fitted, Option.ite_none_right_eq_some] at hfits
    exact (Option.some.inj hfits.2).symm
  rw [receive, Option.ite_none_right_eq_some, frame_fields hname hframe, Option.bind_some] at h
  obtain ⟨-, h⟩ := h
  simp only [hkind] at h
  cases mode with
  | init =>
    obtain ⟨reply, -, heq⟩ := Option.map_eq_some_iff.mp h
    cases heq
    exact ⟨reply, rfl⟩
  | stop =>
    cases h
    rfl
  | time =>
    obtain ⟨out, hout, hanswer⟩ := Option.bind_eq_some_iff.mp h
    obtain ⟨reply, hreply, heq⟩ := Option.map_eq_some_iff.mp hanswer
    cases heq
    exact ⟨reply, hfitted hout ▸ hreply, rfl⟩
  | calculate =>
    obtain ⟨result, hresult, hrest⟩ := Option.bind_eq_some_iff.mp h
    obtain ⟨out, hout, hanswer⟩ := Option.bind_eq_some_iff.mp hrest
    obtain ⟨reply, hreply, heq⟩ := Option.map_eq_some_iff.mp hanswer
    cases heq
    exact ⟨result, reply, hresult, hfitted hout ▸ hreply, rfl⟩
  | mirror =>
    obtain ⟨out, hout, hanswer⟩ := Option.bind_eq_some_iff.mp h
    obtain ⟨text, htext, rfl⟩ := Option.map_eq_some_iff.mp hout
    obtain ⟨reply, hreply, heq⟩ := Option.map_eq_some_iff.mp hanswer
    cases heq
    exact ⟨text, reply, htext, mirror_eq text ▸ hreply, rfl⟩

theorem answer_time {argument : Option Text}
    (h : arguments (cstring line) = some (timeWord, argument)) :
    answer printed date line = some date := by
  simp only [answer, h, Option.bind_some, if_true]

theorem answer_calculate {text : Text} (h : arguments (cstring line) = some (calcWord, some text)) :
    answer printed date line = (calculate text).map printed := by
  have htime : calcWord ≠ timeWord := by decide
  simp only [answer, h, Option.bind_some, if_neg htime, if_true]

theorem answer_mirror {text : Text} (h : arguments (cstring line) = some (mirrorWord, some text)) :
    answer printed date line = some text.reverse := by
  have htime : mirrorWord ≠ timeWord := by decide
  have hcalc : mirrorWord ≠ calcWord := by decide
  simp only [answer, h, Option.bind_some, if_neg htime, if_neg hcalc, if_true, Option.map_some]

/-- The reply to a request is an answer to its line. -/
theorem receive_request (hname : IsName name) (hrequest : Requested name line request)
    (hgoes : isEnd line = false)
    (h : receive printed s ⟨request, date⟩ = some (s', replies)) :
    ∃ reply, replies = [(name, reply)] ∧
      ∀ out, shown reply = some out → Outcome printed line out := by
  cases hrequest with
  | time argument command framed =>
    obtain ⟨reply, hreply, hsent⟩ := receive_frame hname framed h
    refine ⟨reply, hsent, fun out hout => ⟨date, ?_⟩⟩
    rw [answer_time command, Option.bind_some, ← frame_shown isName_server hreply, hout]
  | stop stops =>
    rw [hgoes] at stops
    cases stops
  | calculate text command framed =>
    obtain ⟨result, reply, hresult, hreply, hsent⟩ := receive_frame hname framed h
    rw [firstLine_isLine (arguments_isLine command), Option.bind_some] at hresult
    refine ⟨reply, hsent, fun out hout => ⟨date, ?_⟩⟩
    rw [answer_calculate command, hresult, Option.map_some, Option.bind_some,
      ← frame_shown isName_server hreply, hout]
  | mirror text command framed =>
    obtain ⟨text', reply, htext, hreply, hsent⟩ := receive_frame hname framed h
    rw [firstLine_isLine (arguments_isLine command), Option.some.injEq] at htext
    subst htext
    refine ⟨reply, hsent, fun out hout => ⟨date, ?_⟩⟩
    rw [answer_mirror command, Option.bind_some, ← frame_shown isName_server hreply, hout]

end Semestr4.FrameReplies
