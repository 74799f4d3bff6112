import Semestr4.MessageServer
import Semestr4.StrtokMemory
import Semestr4.TextLines

/-!
# The loop of the queue client

The client reads a line in every round, whether or not there is one, and leaves the
loop only at END. At the end of the file it goes on with what the tokens left of the
last line.
-/

set_option autoImplicit false

namespace Semestr4.QueueClient
open Semestr4.ByteText Semestr4.CharArray Semestr4.RequestText Semestr4.MessageServer
open Semestr4.StrtokMemory

structure Client where
  file : Text
  count : ℕ
  buffer : Memory
  msg : Msgbuf

def initial (file : Text) (msg : Msgbuf) : Client where
  file := file
  count := 0
  buffer := ⟨List.replicate maxMsgLength 0, 0⟩
  msg := msg

/-- At the end of the file the buffer is left as it is. -/
def getline (c : Client) : Client :=
  match TextLines.getline c.file with
  | none => c
  | some (line, rest) =>
    { c with file := rest, count := c.count+1, buffer := ⟨store line c.buffer.bytes, c.buffer.saved⟩ }

def first (m : Memory) : Option ℕ × Memory := StrtokMemory.strtok [32, newline] (some 0) m

def second (m : Memory) : Option ℕ × Memory := StrtokMemory.strtok [newline] none (first m).2

inductive Loop where
  | running (c : Client)
  | returned
  /-- A null pointer was read or `mtext` is too short. -/
  | undefined

def parsed (c : Client) (msg : Msgbuf) : Client :=
  { c with buffer := (second c.buffer).2, msg := msg }

/-- A round, with the reply if a request is sent, and the number of the line if it is
sent. -/
def round (reply : Msgbuf) (c : Client) : Loop × List ℕ :=
  let read := getline c
  match command read.msg (read.buffer.string 0) with
  | .skip => (.running (parsed read read.msg), [])
  | .undefined => (.undefined, [])
  | .send message =>
    if message.mtype = MsgType.stop.code then (.returned, [read.count])
    else (.running (parsed read (received message reply)), [read.count])

/-- At most so many rounds, and the lines sent. -/
def sendMessages : ℕ → (ℕ → Msgbuf) → Client → Loop × List ℕ
  | 0, _, c => (.running c, [])
  | n+1, replies, c => match round (replies 0) c with
    | (.running next, sent) =>
      let later := sendMessages n (fun k => replies (k+1)) next
      (later.1, sent++later.2)
    | stopped => stopped

theorem arguments_memory (m : Memory) :
    match arguments (m.string 0) with
    | none => (first m).1 = none
    | some (word, argument) => (first m).1.map (second m).2.string = some word ∧
        (second m).1.map (second m).2.string = argument := by
  have hfirst := strtok_string [32, newline] (some 0) m
  rw [Option.getD_some] at hfirst
  rw [arguments]
  cases hword : DecimalText.strtok [32, newline] (m.string 0) with
  | none =>
    rw [hword] at hfirst
    exact hfirst
  | some found =>
    obtain ⟨word, rest⟩ := found
    rw [hword] at hfirst
    obtain ⟨p, m', hcall, htoken, hrest, hbefore⟩ := hfirst
    have hsecond := strtok_string [newline] none m'
    have hframe := strtok_frame [newline] none m' (q := p) (by rw [htoken]; exact hbefore)
    have hm' : first m = (some p, m') := hcall
    rw [Option.getD_none, hrest] at hsecond
    simp only [second, hm']
    refine ⟨?_, ?_⟩
    · rw [Option.map_some, hframe, htoken]
    · cases hargument : DecimalText.strtok [newline] rest with
      | none =>
        rw [hargument] at hsecond
        rw [hsecond]
        rfl
      | some found =>
        rw [hargument] at hsecond
        obtain ⟨q, m'', hcall', htoken', -⟩ := hsecond
        rw [hcall', Option.map_some, htoken']
        rfl

def firstWord (s : Text) : Option Text := (arguments s).map Prod.fst

theorem firstWord_eq (s : Text) :
    firstWord s = (DecimalText.strtok [32, newline] s).map Prod.fst := by
  rw [firstWord, arguments]
  cases DecimalText.strtok [32, newline] s <;> rfl

theorem firstWord_second (m : Memory) :
    firstWord ((second m).2.string 0) = firstWord (m.string 0) := by
  obtain ⟨hcut, -⟩ := strtok_cut [32, newline] 0 m
  have hsaved := strtok_saved [32, newline] (some 0) m
  rw [Option.getD_some, last_eq, ← hcut] at hsaved
  have hframe := strtok_frame [newline] none (first m).2 (q := 0) hsaved
  rw [second, hframe, first, hcut, firstWord_eq, firstWord_eq, strtok_cut_first]

theorem string_store (line bytes : Text) (saved : ℕ) :
    Memory.string ⟨store line bytes, saved⟩ 0 = cstring line := cstring_ended line _

def Fits (argument : Option Text) : Prop :=
  ∃ text, argument = some text ∧ text.length < maxMsgLength

def Defined (line : Text) : Prop :=
  ∀ word argument, arguments (cstring line) = some (word, argument) →
    word = calcWord ∨ word = mirrorWord → Fits argument

def IsEnd (line : Text) : Prop := firstWord (cstring line) = some endWord

theorem withText_fits {argument : Option Text} (h : Fits argument) (msg : Msgbuf) (type : MsgType) :
    ∃ message, withText msg type argument = .send message ∧ message.mtype = type.code := by
  obtain ⟨text, rfl, hlength⟩ := h
  rw [withText, Option.bind_some, Chars.strcpy, dif_pos hlength]
  exact ⟨_, rfl, rfl⟩

theorem withText_undefined {argument : Option Text} (h : ¬Fits argument) (msg : Msgbuf)
    (type : MsgType) : withText msg type argument = .undefined := by
  cases argument with
  | none => rfl
  | some text =>
    have hlength : ¬text.length < maxMsgLength := fun hlt => h ⟨text, rfl, hlt⟩
    rw [withText, Option.bind_some, Chars.strcpy, dif_neg hlength]

inductive Commands (msg : Msgbuf) (line : Text) : Prop where
  | stop (stops : IsEnd line) (message : Msgbuf) (stopped : message.mtype = MsgType.stop.code)
      (result : command msg (cstring line) = .send message)
  | undefined (goes : ¬IsEnd line) (broken : ¬Defined line)
      (result : command msg (cstring line) = .undefined)
  | skip (goes : ¬IsEnd line) (defined : Defined line) (result : command msg (cstring line) = .skip)
  | send (goes : ¬IsEnd line) (defined : Defined line) (message : Msgbuf)
      (other : message.mtype ≠ MsgType.stop.code)
      (result : command msg (cstring line) = .send message)

theorem withText_commands {msg : Msgbuf} {line word : Text} {argument : Option Text}
    (h : arguments (cstring line) = some (word, argument)) (hgoes : ¬IsEnd line)
    (hword : word = calcWord ∨ word = mirrorWord) (type : MsgType) (htype : type ≠ .stop)
    (hcommand : command msg (cstring line) = withText msg type argument) : Commands msg line := by
  by_cases hfits : Fits argument
  · obtain ⟨message, hsend, hcode⟩ := withText_fits hfits msg type
    refine .send hgoes ?_ message ?_ (hcommand.trans hsend)
    · intro word' argument' h' _
      rw [h, Option.some_inj, Prod.mk.injEq] at h'
      exact h'.2 ▸ hfits
    · rw [hcode]
      cases type <;> first | decide | exact absurd rfl htype
  · exact .undefined hgoes (fun hdefined => hfits (hdefined word argument h hword))
      (hcommand.trans (withText_undefined hfits msg type))

theorem command_commands (msg : Msgbuf) (line : Text) : Commands msg line := by
  cases h : arguments (cstring line) with
  | none =>
    refine .skip ?_ ?_ (by simp only [command, h])
    · simp [IsEnd, firstWord, h]
    · intro word argument hsome
      rw [h] at hsome
      cases hsome
  | some found =>
    obtain ⟨word, argument⟩ := found
    have hend : IsEnd line ↔ word = endWord := by simp [IsEnd, firstWord, h]
    have hdefined : ¬(word = calcWord ∨ word = mirrorWord) → Defined line := by
      intro hneither word' argument' h' hword
      rw [h, Option.some_inj, Prod.mk.injEq] at h'
      exact absurd (h'.1 ▸ hword) hneither
    by_cases htime : word = timeWord
    · have hcode : MsgType.time.code ≠ MsgType.stop.code := by decide
      exact .send (by rw [hend, htime]; decide) (hdefined (by rw [htime]; decide))
        { msg with mtype := MsgType.time.code } hcode (by simp only [command, h, if_pos htime])
    by_cases hstop : word = endWord
    · exact .stop (hend.mpr hstop) { msg with mtype := MsgType.stop.code } rfl
        (by simp only [command, h, if_neg htime, if_pos hstop])
    by_cases hcalc : word = calcWord
    · exact withText_commands h (mt hend.mp hstop) (Or.inl hcalc) .calculate (by decide)
        (by simp only [command, h, if_neg htime, if_neg hstop, if_pos hcalc])
    by_cases hmirror : word = mirrorWord
    · exact withText_commands h (mt hend.mp hstop) (Or.inr hmirror) .mirror (by decide)
        (by simp only [command, h, if_neg htime, if_neg hstop, if_neg hcalc, if_pos hmirror])
    · exact .skip (mt hend.mp hstop) (hdefined (not_or.mpr ⟨hcalc, hmirror⟩))
        (by simp only [command, h, if_neg htime, if_neg hstop, if_neg hcalc, if_neg hmirror])

inductive Rounds (reply : Msgbuf) (c : Client) (line : Text) : Prop where
  | returned (stops : IsEnd line) (result : round reply c = (.returned, [(getline c).count]))
  | undefined (goes : ¬IsEnd line) (broken : ¬Defined line)
      (result : round reply c = (.undefined, []))
  | running (goes : ¬IsEnd line) (defined : Defined line) (msg : Msgbuf) (sent : List ℕ)
      (result : round reply c = (.running (parsed (getline c) msg), sent))
      (atMost : sent = [] ∨ sent = [(getline c).count])

theorem round_rounds (reply : Msgbuf) {c : Client} {line : Text}
    (h : (getline c).buffer.string 0 = cstring line) : Rounds reply c line := by
  cases command_commands (getline c).msg line with
  | stop stops message stopped result =>
    exact .returned stops (by simp only [round, h, result, if_pos stopped])
  | undefined goes broken result => exact .undefined goes broken (by simp only [round, h, result])
  | skip goes defined result =>
    exact .running goes defined (getline c).msg [] (by simp only [round, h, result]) (Or.inl rfl)
  | send goes defined message other result =>
    exact .running goes defined (received message reply) [(getline c).count]
      (by simp only [round, h, result, if_neg other]) (Or.inr rfl)

@[simp] theorem parsed_file (c : Client) (msg : Msgbuf) : (parsed c msg).file = c.file := rfl

@[simp] theorem parsed_count (c : Client) (msg : Msgbuf) : (parsed c msg).count = c.count := rfl

theorem getline_some {c : Client} {line rest : Text}
    (h : TextLines.getline c.file = some (line, rest)) :
    (getline c).file = rest ∧ (getline c).count = c.count+1 ∧
      (getline c).buffer.string 0 = cstring line := by
  rw [getline, h]
  exact ⟨rfl, rfl, string_store ..⟩

theorem getline_end {c : Client} (h : TextLines.getline c.file = none) : getline c = c := by
  simp only [getline, h]

theorem sendMessages_stopped {replies : ℕ → Msgbuf} {c : Client} {loop : Loop} {sent : List ℕ}
    (n : ℕ) (h : round (replies 0) c = (loop, sent)) (hstopped : ∀ next, loop ≠ .running next) :
    sendMessages (n+1) replies c = (loop, sent) := by
  rw [sendMessages, h]
  cases loop with
  | running next => exact absurd rfl (hstopped next)
  | returned => rfl
  | undefined => rfl

theorem sendMessages_running {replies : ℕ → Msgbuf} {c next : Client} {sent : List ℕ} (n : ℕ)
    (h : round (replies 0) c = (.running next, sent)) :
    sendMessages (n+1) replies c = ((sendMessages n (fun k => replies (k+1)) next).1,
      sent++(sendMessages n (fun k => replies (k+1)) next).2) := by
  rw [sendMessages, h]

def Ends (lines : List Text) : Prop :=
  ∃ before line after, lines = before++line::after ∧ IsEnd line ∧ ∀ l ∈ before, Defined l

theorem Ends.cons {lines : List Text} (h : Ends lines) {line : Text} (hline : Defined line) :
    Ends (line::lines) := by
  obtain ⟨before, stop, after, rfl, hstop, hbefore⟩ := h
  exact ⟨line::before, stop, after, rfl, hstop, List.forall_mem_cons.mpr ⟨hline, hbefore⟩⟩

theorem Ends.uncons {lines : List Text} {line : Text} (h : Ends (line::lines))
    (hgoes : ¬IsEnd line) : Defined line ∧ Ends lines := by
  obtain ⟨before, stop, after, heq, hstop, hbefore⟩ := h
  cases before with
  | nil =>
    obtain ⟨rfl, -⟩ := List.cons.inj heq
    exact absurd hstop hgoes
  | cons l before =>
    obtain ⟨rfl, rfl⟩ := List.cons.inj heq
    obtain ⟨hl, hbefore⟩ := List.forall_mem_cons.mp hbefore
    exact ⟨hl, before, stop, after, rfl, hstop, hbefore⟩

theorem not_ends_nil : ¬Ends [] := by
  rintro ⟨before, stop, after, heq, -⟩
  cases before <;> cases heq

theorem isEnd_second {m : Memory} {line : Text} (h : m.string 0 = cstring line) :
    IsEnd ((second m).2.string 0) ↔ IsEnd line := by
  rw [IsEnd, IsEnd, cstring_self (string_no_zero _ _), firstWord_second, h]

theorem ends_of_returned (n : ℕ) (replies : ℕ → Msgbuf) (c : Client)
    (hend : c.file = [] → ¬IsEnd (c.buffer.string 0))
    (h : (sendMessages n replies c).1 = .returned) : Ends (TextLines.lines c.file) := by
  induction n generalizing replies c with
  | zero => cases h
  | succ n ih =>
    cases hline : TextLines.getline c.file with
    | none =>
      have hstring : (getline c).buffer.string 0 = cstring (c.buffer.string 0) := by
        rw [getline_end hline, cstring_self (string_no_zero _ _)]
      cases round_rounds (replies 0) hstring with
      | returned stops => exact absurd stops (hend (TextLines.getline_none.mp hline))
      | undefined _ _ result =>
        rw [sendMessages_stopped n result nofun] at h
        cases h
      | running goes _ msg sent result =>
        rw [sendMessages_running n result] at h
        have hnext := ih (fun k => replies (k+1)) (parsed (getline c) msg)
          (fun _ => mt (isEnd_second hstring).mp goes) h
        rwa [parsed_file, getline_end hline] at hnext
    | some found =>
      obtain ⟨line, rest⟩ := found
      obtain ⟨hfile, -, hstring⟩ := getline_some hline
      rw [TextLines.lines_getline hline]
      cases round_rounds (replies 0) hstring with
      | returned stops => exact ⟨[], line, _, rfl, stops, by simp⟩
      | undefined _ _ result =>
        rw [sendMessages_stopped n result nofun] at h
        cases h
      | running goes defined msg sent result =>
        rw [sendMessages_running n result] at h
        have hnext := ih (fun k => replies (k+1)) (parsed (getline c) msg)
          (fun _ => mt (isEnd_second hstring).mp goes) h
        rw [parsed_file, hfile] at hnext
        exact hnext.cons defined

theorem getline_of_ends {c : Client} (h : Ends (TextLines.lines c.file)) :
    ∃ line rest, TextLines.getline c.file = some (line, rest) := by
  cases hline : TextLines.getline c.file with
  | none =>
    rw [TextLines.getline_none.mp hline] at h
    exact absurd h not_ends_nil
  | some found => exact ⟨found.1, found.2, rfl⟩

theorem returned_of_ends {lines : List Text} (h : Ends lines) (replies : ℕ → Msgbuf) (c : Client)
    (hlines : TextLines.lines c.file = lines) : ∃ n, (sendMessages n replies c).1 = .returned := by
  induction lines generalizing replies c with
  | nil => exact absurd h not_ends_nil
  | cons first lines ih =>
    obtain ⟨line, rest, hline⟩ := getline_of_ends (hlines ▸ h)
    obtain ⟨hfile, -, hstring⟩ := getline_some hline
    rw [TextLines.lines_getline hline] at hlines
    obtain ⟨rfl, hrest⟩ := List.cons.inj hlines
    cases round_rounds (replies 0) hstring with
    | returned _ result => exact ⟨1, by rw [sendMessages_stopped 0 result nofun]⟩
    | undefined goes broken => exact absurd (h.uncons goes).1 broken
    | running goes _ msg sent result =>
      obtain ⟨n, hn⟩ := ih (h.uncons goes).2 (fun k => replies (k+1)) (parsed (getline c) msg)
        (by rw [parsed_file, hfile, hrest])
      exact ⟨n+1, by rw [sendMessages_running n result, hn]⟩

/-- As long as END is ahead, every round sends the next line or nothing. -/
theorem sent_increasing (n : ℕ) (replies : ℕ → Msgbuf) (c : Client)
    (h : Ends (TextLines.lines c.file)) :
    (sendMessages n replies c).2.Pairwise (· < ·) ∧
      ∀ k ∈ (sendMessages n replies c).2, c.count < k := by
  induction n generalizing replies c with
  | zero => exact ⟨List.Pairwise.nil, by simp [sendMessages]⟩
  | succ n ih =>
    obtain ⟨line, rest, hline⟩ := getline_of_ends h
    obtain ⟨hfile, hcount, hstring⟩ := getline_some hline
    rw [TextLines.lines_getline hline] at h
    cases round_rounds (replies 0) hstring with
    | returned _ result =>
      rw [sendMessages_stopped n result nofun, hcount]
      simp
    | undefined goes broken => exact absurd (h.uncons goes).1 broken
    | running goes _ msg sent result atMost =>
      rw [sendMessages_running n result]
      have hnext : Ends (TextLines.lines (parsed (getline c) msg).file) := by
        rw [parsed_file, hfile]
        exact (h.uncons goes).2
      obtain ⟨hpairwise, hlater⟩ := ih (fun k => replies (k+1)) (parsed (getline c) msg) hnext
      have hfirst : ∀ k ∈ sent, k = c.count+1 := by
        rcases atMost with rfl | rfl <;> simp [hcount]
      have hsent : sent.Pairwise (· < ·) := by rcases atMost with rfl | rfl <;> simp
      have hlater' : ∀ k ∈ (sendMessages n (fun k => replies (k+1)) (parsed (getline c) msg)).2,
          c.count+1 < k := by rwa [parsed_count, hcount] at hlater
      refine ⟨List.pairwise_append.mpr ⟨hsent, hpairwise, fun a ha b hb => ?_⟩, fun k hk => ?_⟩
      · rw [hfirst a ha]
        exact hlater' b hb
      · rcases List.mem_append.mp hk with hk | hk
        · rw [hfirst k hk]
          exact Nat.lt_succ_self _
        · exact (Nat.lt_succ_self _).trans (hlater' k hk)

def SendsOnce (replies : ℕ → Msgbuf) (c : Client) : Prop :=
  (∃ n, (sendMessages n replies c).1 = .returned) ∧ ∀ n, (sendMessages n replies c).2.Nodup

theorem initial_string (file : Text) (msg : Msgbuf) : (initial file msg).buffer.string 0 = [] := rfl

/-- The loop is left if and only if the file has a line END behind lines whose texts
can be copied; then no line is sent twice. -/
theorem sends_once_iff (file : Text) (msg : Msgbuf) (replies : ℕ → Msgbuf) :
    SendsOnce replies (initial file msg) ↔ Ends (TextLines.lines file) := by
  constructor
  · rintro ⟨⟨n, hn⟩, -⟩
    refine ends_of_returned n replies (initial file msg) (fun _ => ?_) hn
    rw [initial_string, IsEnd]
    decide
  · intro h
    refine ⟨returned_of_ends h replies (initial file msg) rfl, fun n => ?_⟩
    exact (sent_increasing n replies (initial file msg) h).1.imp (fun hlt => Nat.ne_of_lt hlt)

/-- The only line of a file is sent again when there is no other. -/
theorem time_sent_twice : ¬∀ (file : Text) (msg : Msgbuf) (replies : ℕ → Msgbuf),
    SendsOnce replies (initial file msg) := by
  intro h
  have hnodup := (h (timeWord++[newline]) ⟨0, 0, 0, zeros _⟩ (fun _ => ⟨0, 0, 0, zeros _⟩)).2 2
  have hsent : (sendMessages 2 (fun _ => ⟨0, 0, 0, zeros _⟩)
      (initial (timeWord++[newline]) ⟨0, 0, 0, zeros _⟩)).2 = [1, 1] := by decide +kernel
  rw [hsent] at hnodup
  exact absurd hnodup (by decide)

end Semestr4.QueueClient
