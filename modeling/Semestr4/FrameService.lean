import Semestr4.CharArray
import Semestr4.RequestText
import Semestr4.ScheduledRun

/-!
# The server and the client of the POSIX queue

A message is a block of 128 characters with the frame `mode|queue|text`, put
together without a look at its length. Both sides take the frames they receive
apart with `strtok`, the mode and the queue at `|`, the text at a newline.
-/

set_option autoImplicit false

namespace Semestr4.FrameService
open Semestr4.ByteText Semestr4.DecimalText Semestr4.CharArray Semestr4.RequestText
open Semestr4.ScheduledRun

abbrev Block := Chars maxMsgLength

def bar : UInt8 := 124

/-- The name of the server's queue, "/server". -/
def serverName : Text := [47, 115, 101, 114, 118, 101, 114]

/-- The first digit of the mode, as `snprintf` leaves it in two characters. -/
def modeString (mode : MsgType) : Text := (decimal mode.code).take 1

def frameText (mode : MsgType) (queueName arg : Text) : Text :=
  modeString mode++bar::(queueName++bar::arg)

/-- The frame in a block from `calloc`, or nothing where `strcat` writes beyond it. -/
def frame (mode : MsgType) (queueName arg : Text) : Option Block :=
  (zeros maxMsgLength).strcpy (frameText mode queueName arg)

/-- The mode, the queue and, if there is one, the text of a frame. -/
def fields (s : Text) : Option (Text × Text × Option Text) :=
  match strtok [bar] s with
  | none => none
  | some (mode, rest) => match strtok [bar] rest with
    | none => none
    | some (queueName, rest') => some (mode, queueName, (strtok [newline] rest').map Prod.fst)

/-- The names of the queues opened for clients, and whether the server still runs. -/
structure Server where
  clients : List Text
  running : Bool
  deriving DecidableEq

/-- A block, with the time the server tells when it takes it. -/
structure Delivery where
  buffer : Block
  date : Text

def Server.prepareMessage (mode : MsgType) (arg : Text) : Option Block :=
  frame mode serverName arg

def Server.answer (s : Server) (mode : MsgType) (queueName arg : Text) :
    Option (Server × List (Text × Block)) :=
  (Server.prepareMessage mode arg).map fun block => (s, [(queueName, block)])

/-- What `snprintf` writes to an array of `size` characters, whose size it is not given. -/
def fitted (size : ℕ) (s : Text) : Option Text := if s.length < size then some s else none

/-- The server with a message, and the blocks it sends with the names of their
queues, or nothing where it reads a null pointer or writes beyond an array, or
ends. The format `%f` is a parameter. -/
def receive (printed : Value → Text) : Step Server Delivery (Text × Block)
  | s, d =>
    if s.running then
      (d.buffer.string.bind fields).bind fun (_, queueName, text) =>
        match msgType ((d.buffer.bytes.headD 0).toNat-48) with
        | some .init =>
          Server.answer { s with clients := s.clients++[queueName] } .init queueName []
        | some .calculate => (text.bind calculate).bind fun result =>
          (fitted 20 (printed result)).bind (s.answer .calculate queueName)
        | some .time => (fitted 40 d.date).bind (s.answer .time queueName)
        | some .stop => some ({ s with running := false }, [])
        | some .mirror => (text.map mirror).bind (s.answer .mirror queueName)
        | none => none
    else none

inductive Command where
  | skip
  | send (buffer : Block)
  | undefined

def Command.ofFrame : Option Block → Command
  | some buffer => .send buffer
  | none => .undefined

def Client.prepareMessage (mode : MsgType) (queueName arg : Text) : Option Block :=
  frame mode queueName arg

/-- A round of `sendMessages`, up to `mq_send`. The line is copied to a block first. -/
def command (queueName line : Text) : Command :=
  if line.length < maxMsgLength then
    match arguments line with
    | none => .skip
    | some (word, argument) =>
      if word = timeWord then .ofFrame (Client.prepareMessage .time queueName [])
      else if word = endWord then .ofFrame (Client.prepareMessage .stop queueName [])
      else if word = calcWord then
        .ofFrame (argument.bind (Client.prepareMessage .calculate queueName))
      else if word = mirrorWord then
        .ofFrame (argument.bind (Client.prepareMessage .mirror queueName))
      else .skip
  else .undefined

/-- The text the client prints of a reply. -/
def shown (buffer : Block) : Option Text := (buffer.string.bind fields).bind fun found => found.2.2

end Semestr4.FrameService
