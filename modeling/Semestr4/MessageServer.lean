import Semestr4.CharArray
import Semestr4.RequestText
import Semestr4.ScheduledRun

/-!
# The server and the client of the message queue

Both keep one `struct msgbuf` and receive every message into it. The length in
`msgsnd` and `msgrcv` is that of `mtext`, but counts from `pid` on, so that the
last characters of `mtext` stay where they are. The table of clients only grows.
-/

set_option autoImplicit false

namespace Semestr4.MessageServer
open Semestr4.ByteText Semestr4.DecimalText Semestr4.CharArray Semestr4.RequestText
open Semestr4.ScheduledRun

def headerLength : ℕ := 8

/-- How many characters of `mtext` a message takes along. -/
def transferred : ℕ := maxMsgLength-headerLength

structure Msgbuf where
  mtype : ℕ
  pid : ℤ
  key : ℤ
  mtext : Chars maxMsgLength
  deriving DecidableEq

def received (buffer message : Msgbuf) : Msgbuf :=
  { message with mtext := buffer.mtext.overlay message.mtext transferred }

structure Client where
  pid : ℤ
  clientID : ℕ
  queue : ℤ
  deriving DecidableEq, Repr

structure Server where
  msg : Msgbuf
  clients : List Client
  closeFlag : Bool

/-- A message, with what `msgget` returns for its key and what `ctime` returns
when the server takes it. -/
structure Delivery where
  message : Msgbuf
  opened : ℤ
  date : Text

/-- The first entry of the process. -/
def getQueue (pid : ℤ) (clients : List Client) : ℤ :=
  match clients.find? fun c => c.pid = pid with
  | some c => c.queue
  | none => -1

def start (msg : Msgbuf) : Server := { msg := msg, clients := [], closeFlag := false }

/-- The characters after the two calls of `strtok`, which end the operands. -/
def operandsEnded (mtext : Chars maxMsgLength) (text : Text) : Chars maxMsgLength :=
  let first := tokenEnd operandDelim text
  let second := first+1+tokenEnd [newline] (text.drop (first+1))
  (mtext.set first 0).set second 0

def answer (s : Server) (msg : Msgbuf) (mtext : Chars maxMsgLength) (text : Text) :
    Server × List (ℤ × Msgbuf) :=
  let msg := { msg with mtext := mtext.snprintf text }
  ({ s with msg := msg }, [(getQueue msg.pid s.clients, msg)])

section
variable (printed : Value → Text)

/-- The server with a message, and the messages it sends with their queues, or
nothing where it reads beyond the text or a null pointer, or ends. The format
`%f` is a parameter. -/
def receive : Step Server Delivery (ℤ × Msgbuf)
  | s, d =>
    let msg := received s.msg d.message
    match msgType msg.mtype with
    | some .init =>
      let clientID := s.clients.length+1
      let client := { pid := msg.pid, clientID := clientID, queue := d.opened }
      let msg := { msg with mtype := clientID }
      some ({ s with msg := msg, clients := s.clients++[client] }, [(d.opened, msg)])
    | some .calculate => msg.mtext.string.bind fun text => (calculate text).map fun result =>
      answer s msg (operandsEnded msg.mtext text) (printed result)
    | some .time => some (answer s msg msg.mtext d.date)
    | some .stop => some ({ s with msg := msg, closeFlag := true }, [])
    | some .mirror => msg.mtext.string.map fun text => answer s msg msg.mtext (mirror text)
    | none => none

end

inductive Command where
  | skip
  | send (message : Msgbuf)
  | undefined

/-- A request with a text, which is copied from the line. -/
def withText (msg : Msgbuf) (type : MsgType) (argument : Option Text) : Command :=
  match argument.bind msg.mtext.strcpy with
  | some mtext => .send { msg with mtype := type.code, mtext := mtext }
  | none => .undefined

/-- A round of `sendMessages`, up to `msgsnd`. -/
def command (msg : Msgbuf) (line : Text) : Command :=
  match arguments line with
  | none => .skip
  | some (word, argument) =>
    if word = timeWord then .send { msg with mtype := MsgType.time.code }
    else if word = endWord then .send { msg with mtype := MsgType.stop.code }
    else if word = calcWord then withText msg .calculate argument
    else if word = mirrorWord then withText msg .mirror argument
    else .skip

/-- A command of a client that waits at the queue: the request is served, and the
reply is received over it. -/
def exchange (printed : Value → Text) (s : Server) (opened : ℤ) (date : Text) (queue : ℤ)
    (msg : Msgbuf) (line : Text) : Option (Server × Msgbuf) :=
  match command msg line with
  | .send request => match receive printed s ⟨request, opened, date⟩ with
    | some (t, [(q, reply)]) => if q = queue then some (t, received request reply) else none
    | _ => none
  | _ => none

end Semestr4.MessageServer
