import Semestr4.FrameMirror

/-!
# The server and the clients of the POSIX queue

All clients send to one queue, and each receives from a queue of its own, which it
opens under a random name; the server's name is one of these. Every message has the
same priority, so that a queue keeps their order. The server removes the name of its
queue when it ends, and a client that starts later sends nothing. What a party may not
define ends the run: nothing is said of what comes after it.
-/

set_option autoImplicit false

namespace Semestr4.FrameProtocol
open Semestr4.ByteText Semestr4.DecimalText Semestr4.CharArray Semestr4.RequestText
open Semestr4.FrameService Semestr4.FrameMirror Semestr4.ScheduledRun

def maxmsg : ℕ := 10

inductive Phase where
  | starting
  /-- The registration is sent, if there was a queue for it. -/
  | connecting
  /-- At the beginning of a round of `sendMessages`. -/
  | ready
  | waiting
  | ended
  deriving DecidableEq

/-- The lines not yet read, the line read last, and where the client is. -/
structure Client where
  file : List Text
  buffer : Text
  phase : Phase
  deriving DecidableEq

structure World (ι : Type*) where
  server : Server
  /-- The queues by their names, the server's among them. -/
  queues : Text → List Block
  clients : ι → Client

inductive Actor (ι : Type*) where
  | client (t : ι)
  | server (date : Text)

variable {ι : Type*} [DecidableEq ι]

/-- The server has opened its queue, and no client has been started. -/
def initial (files : ι → List Text) : World ι where
  server := ⟨[], true⟩
  queues _ := []
  clients t := ⟨files t, [], .starting⟩

def World.setClient (w : World ι) (t : ι) (c : Client) : World ι :=
  { w with clients := Function.update w.clients t c }

def World.setPhase (w : World ι) (t : ι) (phase : Phase) : World ι :=
  w.setClient t { w.clients t with phase := phase }

def World.setQueue (w : World ι) (name : Text) (blocks : List Block) : World ι :=
  { w with queues := Function.update w.queues name blocks }

/-- To the queue of this name, once there is room in it. -/
def World.send (w : World ι) (name : Text) (block : Block) : Option (World ι) :=
  if (w.queues name).length < maxmsg then some (w.setQueue name (w.queues name++[block])) else none

def World.receive (w : World ι) (name : Text) : Option (Block × World ι) :=
  match w.queues name with
  | [] => none
  | block::rest => some (block, w.setQueue name rest)

/-- Each round reads to a new block, which stays empty at the end of the file. -/
def getline (c : Client) : Client :=
  { c with file := c.file.tail, buffer := c.file.headD [] }

def firstWord (line : Text) : Option Text := (arguments (cstring line)).map Prod.fst

def isEnd (line : Text) : Bool := firstWord line = some endWord

/-- The client's next action, with what it prints of a reply. -/
def clientStep (name : Text) (t : ι) (w : World ι) : Option (World ι × List (ι × Text)) :=
  match (w.clients t).phase with
  | .starting => (Client.prepareMessage .init name []).bind fun request =>
    -- without the server's queue `mq_send` fails, and the client waits all the same
    (if w.server.running then w.send serverName request else some w).map fun w =>
      (w.setPhase t .connecting, [])
  | .connecting => (w.receive name).map fun (_, w) => (w.setPhase t .ready, [])
  | .ready =>
    let c := getline (w.clients t)
    match command name (cstring c.buffer) with
    | .skip => some (w.setClient t c, [])
    | .undefined => none
    | .send request => (w.send serverName request).map fun w =>
      (w.setClient t { c with phase := if isEnd c.buffer then .ended else .waiting }, [])
  | .waiting => (w.receive name).bind fun (reply, w) =>
    (shown reply).map fun out => (w.setPhase t .ready, [(t, out)])
  | .ended => none

/-- A round of the server, with the message it takes and those it sends. -/
def serverStep (printed : Value → Text) (date : Text) (w : World ι) : Option (World ι) :=
  (w.receive serverName).bind fun (block, w) =>
    (receive printed w.server ⟨block, date⟩).bind fun (server, replies) =>
      replies.foldlM (fun w (name, reply) => w.send name reply) { w with server := server }

/-- The events are the texts printed, with the clients that print them. -/
def step (printed : Value → Text) (names : ι → Text) : Step (World ι) (Actor ι) (ι × Text)
  | w, .client t => clientStep (names t) t w
  | w, .server date => (serverStep printed date w).map fun w => (w, [])

def firstLine (text : Text) : Option Text := (strtok [newline] (cstring text)).map Prod.fst

/-- The answer to a line of the input, if the server gets it at this time. -/
def answer (printed : Value → Text) (date line : Text) : Option Text :=
  (arguments (cstring line)).bind fun (word, argument) =>
    if word = timeWord then some date
    else if word = calcWord then (argument.bind calculate).map printed
    else if word = mirrorWord then argument.map List.reverse
    else none

def Outcome (printed : Value → Text) (line out : Text) : Prop :=
  ∃ date, (answer printed date line).bind firstLine = some out

def isRequest (line : Text) : Bool :=
  firstWord line ∈ [timeWord, calcWord, mirrorWord].map some

/-- The lines of a file that ask for an answer, up to the end. -/
def requests (file : List Text) : List Text := (file.takeWhile (!isEnd ·)).filter isRequest

def printedBy (t : ι) (es : List (ι × Text)) : List Text :=
  (es.filter (·.1 = t)).map Prod.snd

/-- The name of the queue a frame is to be answered to. -/
def sender (block : Block) : Option Text := (block.string.bind fields).map (·.2.1)

/-- The messages to the server that are to be answered to this name. -/
def World.own (w : World ι) (name : Text) : List Block :=
  (w.queues serverName).filter (sender · = some name)

theorem strtok_piece {delim s token rest : Text} (h : strtok delim s = some (token, rest)) :
    token ≠ [] ∧ (∀ b ∈ token, b ∉ delim) ∧ (∀ b ∈ token, b ∈ s) ∧ ∀ b ∈ rest, b ∈ s := by
  have hsub : ∀ b ∈ s.dropWhile (· ∈ delim), b ∈ s := fun b hb =>
    (List.dropWhile_sublist _).subset hb
  rw [strtok] at h
  cases hs : s.dropWhile (· ∈ delim) with
  | nil =>
    rw [hs] at h
    cases h
  | cons b tail =>
    have hb : b ∉ delim := by
      have hhead := List.head?_dropWhile_not (p := (· ∈ delim)) (l := s)
      rw [hs] at hhead
      simpa using hhead
    rw [hs] at h hsub
    simp only [Option.some.injEq, Prod.mk.injEq] at h
    obtain ⟨rfl, rfl⟩ := h
    refine ⟨by simp [hb], ?_, ?_, ?_⟩
    · intro c hc
      simpa using List.mem_takeWhile_imp hc
    · exact fun c hc => hsub c ((List.takeWhile_sublist _).subset hc)
    · exact fun c hc => hsub c ((List.dropWhile_sublist _).subset (List.mem_of_mem_tail hc))

theorem arguments_isLine {line word text : Text}
    (h : arguments (cstring line) = some (word, some text)) : IsLine text := by
  rw [arguments] at h
  cases hword : strtok [32, newline] (cstring line) with
  | none => simp only [hword, reduceCtorEq] at h
  | some found =>
    simp only [hword, Option.some.injEq, Prod.mk.injEq, Option.map_eq_some_iff] at h
    obtain ⟨-, ⟨token, rest⟩, htoken, rfl⟩ := h
    obtain ⟨hne, hline, hmem, -⟩ := strtok_piece htoken
    obtain ⟨-, -, -, hrest⟩ := strtok_piece hword
    refine ⟨hne, fun hnewline => ?_, fun hzero => ?_⟩
    · exact hline newline hnewline (List.mem_singleton_self _)
    · exact zero_cstring line (hrest 0 (hmem 0 hzero))

theorem firstLine_isLine {text : Text} (h : IsLine text) : firstLine text = some text := by
  have htext : ∀ b ∈ text, b ∉ [newline] := fun b hb hmem =>
    h.line (List.mem_singleton.mp hmem ▸ hb)
  rw [firstLine, cstring_self h.string, strtok_last h.nonempty htext, Option.map_some]

variable {mode : MsgType} {name arg : Text} {block : Block}

structure IsName (name : Text) : Prop where
  nonempty : name ≠ []
  separator : bar ∉ name
  string : 0 ∉ name

theorem isName_random (h : IsRandomName name) : IsName name :=
  ⟨h.characters.1, h.characters.2.1, h.characters.2.2.1⟩

theorem isName_server : IsName serverName := ⟨by decide, by decide, by decide⟩

theorem frame_bytes (h : frame mode name arg = some block) :
    block.bytes = store (frameText mode name arg) (zeros maxMsgLength).bytes := by
  rw [frame, Chars.strcpy] at h
  split at h
  · cases h
    rfl
  · cases h

theorem frame_string (hname : IsName name) (h : frame mode name arg = some block) :
    block.string = some (frameText mode name (cstring arg)) := by
  have hempty : 0 ∉ frameText mode name [] := frameText_string hname.string List.not_mem_nil
  have hfront : 0 ∉ modeString mode++bar::(name++[bar]) := hempty
  have hsplit : ∀ s : Text, frameText mode name s = modeString mode++bar::(name++[bar])++s := by
    intro s
    simp only [frameText, List.append_assoc, List.cons_append, List.nil_append]
  have hzero : ∀ rest, terminated (arg++0::rest) = some (cstring arg) := fun rest => by
    rw [terminated, if_pos (List.mem_append_right _ List.mem_cons_self),
      cstring_ended]
  rw [Chars.string, frame_bytes h, store, hsplit arg, List.append_assoc,
    terminated_append hfront, hzero, Option.map_some, hsplit (cstring arg)]

theorem frame_fields (hname : IsName name) (h : frame mode name arg = some block) :
    block.string.bind fields = some (modeString mode, name, firstLine arg) := by
  obtain ⟨d, hd, -, hdbar⟩ := modeString_digit mode
  have hmode : strtok [bar] (frameText mode name (cstring arg)) =
      some (modeString mode, name++bar::cstring arg) := by
    apply strtok_token (by simp [hd]) _ (List.mem_singleton_self _)
    rw [hd]
    simpa using hdbar
  have hqueue : strtok [bar] (name++bar::cstring arg) = some (name, cstring arg) := by
    apply strtok_token hname.nonempty _ (List.mem_singleton_self _)
    exact fun b hb hmem => hname.separator (List.mem_singleton.mp hmem ▸ hb)
  rw [frame_string hname h, Option.bind_some]
  simp only [fields, hmode, hqueue, firstLine]

theorem frame_sender (hname : IsName name) (h : frame mode name arg = some block) :
    sender block = some name := by
  rw [sender, frame_fields hname h, Option.map_some]

theorem frame_shown (hname : IsName name) (h : frame mode name arg = some block) :
    shown block = firstLine arg := by
  rw [shown, frame_fields hname h, Option.bind_some]

def kind (block : Block) : ℕ := (block.bytes.headD 0).toNat-48

theorem frame_kind (h : frame mode name arg = some block) : kind block = mode.code := by
  have hdigit : ∀ mode : MsgType, ((modeString mode++[0]).headD 0).toNat-48 = mode.code := by
    intro mode
    cases mode <;> decide +kernel
  obtain ⟨d, hd, -, -⟩ := modeString_digit mode
  rw [kind, frame_bytes h, ← hdigit mode, store, frameText, hd]
  rfl

end Semestr4.FrameProtocol
