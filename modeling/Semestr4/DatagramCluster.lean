import Mathlib.Data.Int.Order.Basic
import Semestr4.CharArray
import Semestr4.ClusterClient
import Semestr4.MessageSoup
import Semestr4.NodeNumbers

/-!
# The cluster over datagrams

The server has one socket for the network and one for local nodes, and no connection:
a node is known by the address its datagrams come from. Datagrams may be lost and may
overtake each other. The thread that would ping the nodes is not started, so that no
slot of the table is freed. Requests are sent from the socket of the network, which
reaches no local node. What is not defined ends the run.
-/

set_option autoImplicit false

namespace Semestr4.DatagramCluster
open Semestr4.ByteText Semestr4.DecimalText Semestr4.CharArray Semestr4.ScheduledRun
open Semestr4.ClusterServer (clusterSize accepted refused)
open Semestr4.ClusterClient (calculate recv reply)
open Semestr4.NodeNumbers (nodeOf)

/-- A slot of the table; the address of a free one is not set. -/
structure Node (ι : Type*) where
  name : Text
  addr : Option ι
  num : ℤ

def free {ι : Type*} : Node ι := ⟨[], none, -1⟩

/-- A datagram from or to the address `t`. -/
inductive Message (ι : Type*) where
  | toServer (t : ι) (bytes : Text)
  | toClient (t : ι) (bytes : Text)
  deriving DecidableEq

inductive Phase where
  | starting
  | joining
  | member
  | gone
  deriving DecidableEq, Repr

structure Client where
  name : Text
  recvBuff : Text
  phase : Phase

structure World (ι : Type*) where
  clients : List (Node ι)
  numOfClients : ℕ
  /-- The address to which `monitor` has yet to send that it is registered. -/
  answering : Option ι
  soup : Multiset (Message ι)
  nodes : ι → Client

inductive Choice (ι : Type*) where
  | start (t : ι)
  | read (t : ι) (bytes : Text)
  | monitor (t : ι) (bytes : Text)
  | answer
  /-- a line of the input goes to the slot that `rand` gives -/
  | calcRequest (p : ℕ) (line : Text)
  | lose (m : Message ι)

inductive Event (ι : Type*) where
  | up (num : ℕ) (t : ι)
  | asked (t : ι) (line : Text)
  | result (t : ι) (text : Text) (node : ℤ)
  deriving DecidableEq

variable {ι : Type*} [DecidableEq ι]

def main (names buffers : ι → Text) : World ι where
  clients := List.replicate clusterSize free
  numOfClients := 0
  answering := none
  soup := 0
  nodes t := ⟨names t, buffers t, .starting⟩

def World.post (w : World ι) (m : Message ι) : World ι := { w with soup := m::ₘw.soup }

def World.erase (w : World ι) (m : Message ι) : World ι := { w with soup := w.soup.erase m }

def World.setNode (w : World ι) (t : ι) (c : Client) : World ι :=
  { w with nodes := Function.update w.nodes t c }

/-- The buffer is cleared before a datagram is received. -/
def readBuff (bytes : Text) : Text := (bytes++List.replicate 128 0).take 128

def occupy (clients : List (Node ι)) (node : Node ι) : List (Node ι) :=
  match clients.findIdx? (·.num = -1) with
  | none => clients
  | some j => clients.set j node

/-- A registration under a name that is no slot's is told to the node in the next step. -/
def register (w : World ι) (t : ι) (name : Text) : World ι × List (Event ι) :=
  if w.clients.any (·.name = name) then (w.post (.toClient t refused), [])
  else ({ w with
    clients := occupy w.clients ⟨name, some t, w.numOfClients⟩
    numOfClients := w.numOfClients+1
    answering := some t }, [.up w.numOfClients t])

/-- A round of `monitor` with a datagram. One that begins with `2` is only looked at. -/
def monitor (w : World ι) (t : ι) (bytes : Text) : Option (World ι × List (Event ι)) :=
  if .toServer t bytes ∈ w.soup ∧ w.answering = none then
    let next := w.erase (.toServer t bytes)
    if bytes.head? = some 50 then some (w, [])
    else if bytes.head? = some 49 then
      (terminated (readBuff bytes)).bind fun read2 =>
        if read2.tail = [] then none else some (register next t read2.tail)
    else if bytes.head? = some 51 then
      (terminated ((readBuff bytes).drop 2)).bind fun text =>
        if text = [] then none else some (next, [.result t text (nodeOf (readBuff bytes))])
    else some (next, [])
  else none

def request (p : ℕ) (line : Text) : Option (Chars 130) :=
  (zeros 130).strcpy (51::(cstring [UInt8.ofNat (p+1)]++cstring line))

def calcRequest (isLocal : ι → Bool) (w : World ι) (p : ℕ) (line : Text) :
    Option (World ι × List (Event ι)) :=
  (w.clients[p]?).bind fun node =>
    if node.num = -1 then none
    else node.addr.bind fun t => (request p line).map fun msg =>
      (if isLocal t then w else w.post (.toClient t msg.bytes), [.asked t (cstring line)])

def start (w : World ι) (t : ι) : Option (World ι) :=
  if (w.nodes t).phase = .starting then
    (((zeros 128).strcpy (49::(w.nodes t).name)).bind Chars.string).map fun msg =>
      (w.setNode t { w.nodes t with phase := .joining }).post (.toServer t msg)
  else none

/-- What `read` leaves in the buffer of 128 bytes. -/
def received (c : Client) (bytes : Text) : Text := (recv c.recvBuff (bytes.take 128)).take 128

/-- A round of the loop of `receive`, with what is written. A result has ten bytes. -/
def round (c : Client) (recvBuff : Text) : Option (Client × Option Text) :=
  if recvBuff.head? = some 51 then
    (terminated (recvBuff.drop 2)).bind fun e => (calculate e).bind fun (result, left) =>
      ((zeros 10).strcpy (decimal result)).map fun _ =>
        ({ c with recvBuff := 48::(recvBuff.getD 1 0::left++recvBuff.drop (2+e.length)) },
          some (reply (recvBuff.getD 1 0) result))
  else if recvBuff.head? = some 50 then some ({ c with recvBuff := 48::recvBuff.tail }, some [50])
  -- more is written than the buffer has
  else if recvBuff.head? = some 53 then none
  else some ({ c with recvBuff := 48::recvBuff.tail }, none)

def World.write (w : World ι) (t : ι) : Option Text → World ι
  | none => w
  | some msg => w.post (.toServer t msg)

def read (w : World ι) (t : ι) (bytes : Text) : Option (World ι) :=
  if .toClient t bytes ∈ w.soup then
    let c := w.nodes t
    let next := w.erase (.toClient t bytes)
    match c.phase with
    | .joining => some (next.setNode t { c with
        recvBuff := received c bytes
        phase := if (received c bytes).take 2 = accepted then .member else .gone })
    | .member => (round c (received c bytes)).map fun (c, msg) => (next.setNode t c).write t msg
    | _ => none
  else none

def step (isLocal : ι → Bool) : Step (World ι) (Choice ι) (Event ι)
  | w, .start t => (start w t).map fun w => (w, [])
  | w, .read t bytes => (read w t bytes).map fun w => (w, [])
  | w, .monitor t bytes => monitor w t bytes
  | w, .answer => w.answering.map fun t =>
    ({ w with answering := none }.post (.toClient t accepted), [])
  | w, .calcRequest p line => calcRequest isLocal w p line
  | w, .lose m => some (w.erase m, [])

end Semestr4.DatagramCluster
