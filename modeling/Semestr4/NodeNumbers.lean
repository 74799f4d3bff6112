import Mathlib.Logic.Function.Basic
import Semestr4.ClusterClient
import Semestr4.ClusterRegistry
import Semestr4.ScheduledRun

/-!
# The numbers of the nodes

The number of a node that comes up is the number of registrations so far. With a
request goes the slot of the node, which the node sends back, and which is printed
with the result. Both sides receive the bytes of a connection in any pieces, and take
a piece that begins with `3` for a frame.
-/

set_option autoImplicit false

namespace Semestr4.NodeNumbers
open Semestr4.ByteText Semestr4.ClusterRegistry Semestr4.ScheduledRun
open Semestr4.ClusterServer hiding run step
open Semestr4.ClusterClient hiding run

inductive Phase where
  | joining
  | joined
  | left
  deriving DecidableEq, Repr

/-- A node that came up: the number printed, what the server has not received of its
registration, the frames written to it, its own state, and how many of the bytes it
wrote the server has received. -/
structure Connection where
  num : ℕ
  rest : Text
  sent : List Frame
  phase : Phase
  client : Client
  read : ℕ

structure State where
  server : Server
  connections : ℤ → Option Connection

inductive Choice where
  /-- The beginning of a registration and its rest, of a client with this buffer. -/
  | connect (clientFD : ℤ) (readBuff rest recvBuff : Text)
  | ping (i : ℕ) (failed : Bool)
  | calcRequest (request : Request)
  /-- A node receives the next `k` bytes. -/
  | receive (fd : ℤ) (k : ℕ)
  /-- The server receives the next `k` bytes from a node. -/
  | result (fd : ℤ) (k : ℕ)

inductive Event where
  | up (num : ℕ)
  | result (node : ℤ) (num : ℕ)
  deriving DecidableEq, Repr

def initial (opened : Finset ℤ) : State := ⟨main opened, fun _ => none⟩

def State.update (s : State) (fd : ℤ) (c : Option Connection) : State :=
  { s with connections := Function.update s.connections fd c }

def State.send (s : State) (fd : ℤ) (frame : Frame) : State :=
  s.update fd ((s.connections fd).map fun c => { c with sent := c.sent++[frame] })

def Connection.incoming (c : Connection) : Text := accepted++stream c.sent

def Connection.outgoing (c : Connection) : Text := c.rest++c.client.written.flatten

def Connection.chunk (c : Connection) (k : ℕ) : Text := (c.incoming.drop c.client.received).take k

def Connection.readBuff (c : Connection) (k : ℕ) : Text :=
  ((c.outgoing.drop c.read).take k++List.replicate 128 0).take 128

/-- `(int)(readBuff[1]) - 1` -/
def nodeOf (readBuff : Text) : ℤ := (readBuff.getD 1 0).toInt8.toInt-1

def connect (s : State) (clientFD : ℤ) (readBuff rest recvBuff : Text) : State × List Event :=
  let next := { s with server := monitor s.server clientFD readBuff }
  if Asks readBuff ∧ (register s.server clientFD (nameOf readBuff)).2 = accepted then
    (next.update clientFD (some ⟨s.server.numOfClients, rest, [], .joining, start recvBuff, 0⟩),
      [.up s.server.numOfClients])
  else (next, [])

def ping (s : State) (i : ℕ) (failed : Bool) : State :=
  let fd := fdAt s.server.clients i
  let next := { s with server := ClusterServer.ping s.server i failed }
  if fd = -1 then next
  else if failed then next.update fd none
  else next.send fd .pingMsg

/-- The first bytes a node receives have to begin with the answer to its registration. -/
def join (c : Connection) (chunk : Text) : Connection :=
  let recvBuff := recv c.client.recvBuff chunk
  { c with
    phase := if recvBuff.take 2 = accepted then .joined else .left
    client := { c.client with recvBuff, received := c.client.received+chunk.length } }

def receive (c : Connection) (k : ℕ) : Option Connection :=
  if 0 < k ∧ k ≤ 1024 ∧ c.client.received+k ≤ c.incoming.length then
    match c.phase with
    | .joining => some (join c (c.chunk k))
    | .joined => (ClusterClient.receive c.client (c.chunk k)).map fun client =>
        { c with client := client }
    | .left => none
  else none

def result (c : Connection) (k : ℕ) : Option (Connection × List Event) :=
  if 0 < k ∧ k ≤ 128 ∧ c.read+k ≤ c.outgoing.length then
    some ({ c with read := c.read+k },
      if (c.readBuff k).head? = some 51 then [.result (nodeOf (c.readBuff k)) c.num] else [])
  else none

def step : Step State Choice Event
  | s, .connect clientFD readBuff rest recvBuff =>
    if Possible s.server (.connect clientFD readBuff) then
      some (connect s clientFD readBuff rest recvBuff)
    else none
  | s, .ping i failed => if i < clusterSize then some (ping s i failed, []) else none
  | s, .calcRequest request =>
    let fd := fdAt s.server.clients request.target
    if fd = -1 then none else some (s.send fd (.calcMsg request), [])
  | s, .receive fd k => do
    let c ← s.connections fd
    let next ← receive c k
    some (s.update fd (some next), [])
  | s, .result fd k => do
    let c ← s.connections fd
    let (next, events) ← result c k
    some (s.update fd (some next), events)

/-- A piece a node takes for a request has the first two bytes of one, or behind the
first byte there is by chance the position of the node. -/
def ReadsRequest (c : Connection) (k : ℕ) : Prop :=
  c.phase = .joined → (c.chunk k).head? = some 51 →
    (2 ≤ k ∧ ∃ e ∈ requests 2 c.sent, e.1 = c.client.received) ∨
      (recv c.client.recvBuff (c.chunk k)).getD 1 0 = UInt8.ofNat (c.num+1)

/-- A piece the server takes for a result has the first two bytes of one. -/
def ReadsResult (c : Connection) (k : ℕ) : Prop :=
  (c.readBuff k).head? = some 51 →
    2 ≤ k ∧ c.rest.length ≤ c.read ∧ 128 ∣ c.read-c.rest.length

/-- A registration that gets a slot gets the one with the number of the node, and no
piece is taken for a frame that does not begin with one. -/
def InOrder (s : State) : Choice → Prop
  | .connect _ readBuff _ _ => Asks readBuff → ¬Known s.server.clients (nameOf readBuff) →
      ∀ j ∈ s.server.clients.findIdx? (·.fd = -1), j = s.server.numOfClients
  | .receive fd k => ∀ c ∈ s.connections fd, ReadsRequest c k
  | .result fd k => ∀ c ∈ s.connections fd, ReadsResult c k
  | .ping _ _ => True
  | .calcRequest _ => True

instance (c : Connection) (k : ℕ) : Decidable (ReadsRequest c k) :=
  inferInstanceAs (Decidable (_ → _ → _ ∨ _))

instance (c : Connection) (k : ℕ) : Decidable (ReadsResult c k) :=
  inferInstanceAs (Decidable (_ → _ ∧ _ ∧ _))

instance (s : State) : (choice : Choice) → Decidable (InOrder s choice)
  | .connect _ readBuff _ _ => inferInstanceAs (Decidable (Asks readBuff →
      ¬(∃ node ∈ s.server.clients, node.name = nameOf readBuff) →
      ∀ j ∈ s.server.clients.findIdx? (·.fd = -1), j = s.server.numOfClients))
  | .receive fd k => inferInstanceAs (Decidable (∀ c ∈ s.connections fd, ReadsRequest c k))
  | .result fd k => inferInstanceAs (Decidable (∀ c ∈ s.connections fd, ReadsResult c k))
  | .ping _ _ => inferInstanceAs (Decidable True)
  | .calcRequest _ => inferInstanceAs (Decidable True)

def answer (p : Fin clusterSize) (z : ℤ) : Text := reply (UInt8.ofNat (p+1)) z

theorem answer_bytes (p : Fin clusterSize) (z : ℤ) : answer p z =
    51::UInt8.ofNat (p+1)::(DecimalText.decimal z++List.replicate 128 0).take 126 := by
  rw [answer, reply, position_string]
  rfl

theorem answer_length (p : Fin clusterSize) (z : ℤ) : (answer p z).length = 128 := by
  rw [answer_bytes, List.length_cons, List.length_cons, List.length_take, List.length_append,
    List.length_replicate]
  omega

theorem nodeOf_position (p : Fin clusterSize) (rest : Text) :
    nodeOf (51::UInt8.ofNat (p+1)::rest) = p := by
  have hposition : ∀ p : Fin clusterSize, (UInt8.ofNat (p+1)).toInt8.toInt-1 = p := by decide
  exact hposition p

theorem answer_node (p : Fin clusterSize) (z : ℤ) : nodeOf (answer p z) = p := by
  rw [answer_bytes, nodeOf_position]

theorem incoming_three {c : Connection} (h : 51 ∈ c.incoming) :
    ∃ request, Frame.calcMsg request ∈ c.sent := by
  rcases List.mem_append.mp h with h | h
  · exact absurd h (by decide)
  · obtain ⟨frame, hframe, hmem⟩ := List.mem_flatMap.mp h
    cases frame with
    | calcMsg request => exact ⟨request, hframe⟩
    | pingMsg => exact absurd hmem (by decide)

theorem chunk_three {c : Connection} {k : ℕ} (h : (c.chunk k).head? = some 51) :
    ∃ request, Frame.calcMsg request ∈ c.sent :=
  incoming_three (List.mem_of_mem_drop (List.mem_of_mem_take (List.mem_of_mem_head? h)))

theorem recv_second {recvBuff chunk : Text} (h : 2 ≤ chunk.length) :
    (recv recvBuff chunk).getD 1 0 = chunk.getD 1 0 := by
  match chunk with
  | _::_::_ => rfl

theorem chunk_position {c : Connection} {k : ℕ} (hk : 2 ≤ k) {e : ℕ × Text}
    (h : e ∈ requests 2 c.sent) (he : e.1 = c.client.received) :
    ∃ request, Frame.calcMsg request ∈ c.sent ∧
      (recv c.client.recvBuff (c.chunk k)).getD 1 0 = UInt8.ofNat (request.target+1) := by
  obtain ⟨hle, request, rest, hmem, -, hdrop⟩ := request_frame h
  have hchunk : c.chunk k = (request.msg++rest).take k := by
    have hshort : accepted.length ≤ e.1 := hle
    rw [Connection.chunk, Connection.incoming, ← hdrop, ← he, List.drop_append,
      List.drop_of_length_le hshort, List.nil_append]
    rfl
  obtain ⟨j, rfl⟩ := Nat.exists_eq_add_of_le hk
  have hbytes : c.chunk (2+j) = 51::UInt8.ofNat (request.target+1)::
      ((request.text++0::List.replicate (127-request.text.length) 0)++rest).take j := by
    rw [hchunk, msg_eq, Nat.add_comm 2 j]
    rfl
  refine ⟨request, hmem, ?_⟩
  rw [recv_second (by rw [hbytes]; simp), hbytes]
  rfl

theorem receive_written {c next : Client} {chunk : Text} (hne : chunk ≠ [])
    (h : ClusterClient.receive c chunk = some next) :
    if chunk.head? = some 51 then
      ∃ z, next.written = c.written++[reply ((recv c.recvBuff chunk).getD 1 0) z]
    else next.written = c.written := by
  have hhead : (recv c.recvBuff chunk).head? = chunk.head? := by
    rw [recv, List.head?_append_of_ne_nil _ hne]
  rw [ClusterClient.receive] at h
  dsimp only at h
  rw [hhead] at h
  split at h
  · rename_i hthree
    rw [if_pos hthree]
    split at h
    · cases h
    · rename_i result left _
      cases h
      exact ⟨result, rfl⟩
  · rename_i hother
    rw [if_neg hother]
    cases h
    rfl

theorem flatten_drop {texts : List Text} {n : ℕ} (h : ∀ t ∈ texts, t.length = n) (i : ℕ) :
    texts.flatten.drop (n*i) = (texts.drop i).flatten := by
  induction texts generalizing i with
  | nil => simp
  | cons t texts ih =>
    rw [List.forall_mem_cons] at h
    cases i with
    | zero => rfl
    | succ i =>
      rw [List.flatten_cons, List.drop_succ_cons, ← ih h.2 i, Nat.mul_succ, Nat.add_comm,
        ← List.drop_drop, ← h.1, List.drop_left]

structure Numbered (c : Connection) : Prop where
  sent : ∀ request, Frame.calcMsg request ∈ c.sent → (request.target : ℕ) = c.num
  written : ∀ t ∈ c.client.written, ∃ p z, t = answer p z ∧ (p : ℕ) = c.num
  read : c.read ≤ c.outgoing.length

theorem chunk_ne_nil {c : Connection} {k : ℕ} (hk : 0 < k)
    (h : c.client.received+k ≤ c.incoming.length) : c.chunk k ≠ [] := by
  apply List.ne_nil_of_length_pos
  rw [Connection.chunk, List.length_take, List.length_drop]
  omega

theorem receive_numbered {c next : Connection} {k : ℕ} (h : Numbered c) (hreads : ReadsRequest c k)
    (hnext : receive c k = some next) : Numbered next ∧ next.num = c.num := by
  rw [receive, Option.ite_none_right_eq_some] at hnext
  obtain ⟨⟨hk, -, hlength⟩, hnext⟩ := hnext
  split at hnext
  · cases hnext
    exact ⟨⟨h.sent, h.written, h.read⟩, rfl⟩
  · rename_i hphase
    obtain ⟨client, hclient, rfl⟩ := Option.map_eq_some_iff.mp hnext
    refine ⟨?_, rfl⟩
    have hwritten := receive_written (chunk_ne_nil hk hlength) hclient
    split at hwritten
    · rename_i hthree
      obtain ⟨z, hwritten⟩ := hwritten
      have hposition : ∃ request, Frame.calcMsg request ∈ c.sent ∧
          (recv c.client.recvBuff (c.chunk k)).getD 1 0 = UInt8.ofNat (request.target+1) := by
        rcases hreads hphase hthree with ⟨hlong, e, he, hfirst⟩ | hchance
        · exact chunk_position hlong he hfirst
        · obtain ⟨request, hrequest⟩ := chunk_three hthree
          exact ⟨request, hrequest, by rw [hchance, h.sent request hrequest]⟩
      obtain ⟨request, hrequest, hposition⟩ := hposition
      refine ⟨h.sent, ?_, ?_⟩
      · change ∀ t ∈ client.written, _
        rw [hwritten, hposition, List.forall_mem_append, List.forall_mem_singleton]
        exact ⟨h.written, request.target, z, rfl, h.sent request hrequest⟩
      · have hread := h.read
        rw [Connection.outgoing, List.length_append] at hread
        rw [Connection.outgoing, List.length_append, hwritten, List.flatten_append,
          List.length_append]
        exact hread.trans (Nat.add_le_add_left (Nat.le_add_right ..) _)
    · refine ⟨h.sent, ?_, ?_⟩
      · rw [hwritten]
        exact h.written
      · rw [Connection.outgoing, hwritten]
        exact h.read
  · cases hnext

theorem readBuff_node {c : Connection} {k : ℕ} (h : Numbered c) (hk : k ≤ 128)
    (hlength : c.read+k ≤ c.outgoing.length) (hreads : ReadsResult c k)
    (hthree : (c.readBuff k).head? = some 51) : nodeOf (c.readBuff k) = c.num := by
  obtain ⟨hlong, hrest, i, hi⟩ := hreads hthree
  have hsize : ∀ t ∈ c.client.written, t.length = 128 := by
    intro t ht
    obtain ⟨p, z, rfl, -⟩ := h.written t ht
    exact answer_length p z
  have hdrop : c.outgoing.drop c.read = (c.client.written.drop i).flatten := by
    rw [Connection.outgoing, List.drop_append, List.drop_of_length_le hrest, List.nil_append, hi,
      flatten_drop hsize]
  cases hwritten : c.client.written.drop i with
  | nil =>
    have hnone := congrArg List.length hdrop
    rw [hwritten, List.length_drop] at hnone
    simp only [List.flatten_nil, List.length_nil] at hnone
    omega
  | cons t more =>
    obtain ⟨p, z, rfl, hp⟩ := h.written t
      (List.mem_of_mem_drop (hwritten ▸ List.mem_cons_self ..))
    obtain ⟨j, rfl⟩ := Nat.exists_eq_add_of_le hlong
    rw [Connection.readBuff, hdrop, hwritten, List.flatten_cons, answer_bytes, Nat.add_comm 2 j]
    simp only [List.cons_append, List.take_succ_cons]
    rw [nodeOf_position, hp]

theorem result_numbered {c next : Connection} {k : ℕ} {events : List Event} (h : Numbered c)
    (hreads : ReadsResult c k) (hnext : result c k = some (next, events)) :
    Numbered next ∧ next.num = c.num ∧
      ∀ node num, Event.result node num ∈ events → node = num := by
  rw [result, Option.ite_none_right_eq_some] at hnext
  obtain ⟨⟨-, hk, hlength⟩, hnext⟩ := hnext
  obtain ⟨rfl, rfl⟩ := Prod.mk.inj (Option.some_inj.mp hnext)
  refine ⟨⟨h.sent, h.written, hlength⟩, rfl, fun node num hmem => ?_⟩
  split at hmem
  · rename_i hthree
    obtain ⟨rfl, rfl⟩ := Event.result.inj (List.mem_singleton.mp hmem)
    exact readBuff_node h hk hlength hreads hthree
  · cases hmem

structure Invariant (s : State) : Prop where
  sound : Sound s.server
  slots : ∀ i, fdAt s.server.clients i ≠ -1 →
    ∃ c, s.connections (fdAt s.server.clients i) = some c ∧ c.num = i
  numbered : ∀ fd c, s.connections fd = some c → Numbered c

theorem initial_invariant (opened : Finset ℤ) : Invariant (initial opened) :=
  ⟨main_sound opened, fun i hi => absurd (fdAt_main opened i) hi, fun fd c hc => by cases hc⟩

section
variable {s : State} {fd : ℤ} {c : Connection}

theorem update_self (s : State) (fd : ℤ) (c : Option Connection) :
    (s.update fd c).connections fd = c := Function.update_self ..

theorem update_of_ne {fd' : ℤ} (h : fd' ≠ fd) (c : Option Connection) :
    (s.update fd c).connections fd' = s.connections fd' := Function.update_of_ne h ..

theorem change_invariant (h : Invariant s) (server : Server) (next : Option Connection)
    (hsound : Sound server) (hnext : ∀ c, next = some c → Numbered c)
    (hslots : ∀ i, fdAt server.clients i ≠ -1 →
      if fdAt server.clients i = fd then ∃ c, next = some c ∧ c.num = i
      else fdAt server.clients i = fdAt s.server.clients i) :
    Invariant (State.update { s with server := server } fd next) := by
  refine ⟨hsound, fun i hi => ?_, fun fd' c hc => ?_⟩
  · change fdAt server.clients i ≠ -1 at hi
    change ∃ c, State.connections _ (fdAt server.clients i) = some c ∧ _
    have hslot := hslots i hi
    split at hslot
    · rename_i heq
      rw [heq, update_self]
      exact hslot
    · rename_i hne
      rw [update_of_ne hne]
      rw [hslot] at hi ⊢
      exact h.slots i hi
  · by_cases heq : fd' = fd
    · rw [heq, update_self] at hc
      exact hnext c hc
    · rw [update_of_ne heq] at hc
      exact h.numbered fd' c hc

theorem update_invariant (h : Invariant s) (hc : s.connections fd = some c) (next : Connection)
    (hnum : next.num = c.num) (hnext : Numbered next) : Invariant (s.update fd (some next)) := by
  refine change_invariant h s.server (some next) h.sound (fun d hd => ?_) fun i hi => ?_
  · rwa [← Option.some_inj.mp hd]
  · split
    · rename_i heq
      obtain ⟨d, hd, hdnum⟩ := h.slots i hi
      rw [heq, hc, Option.some_inj] at hd
      exact ⟨next, rfl, by rw [hnum, hd, hdnum]⟩
    · rfl

theorem send_invariant (h : Invariant s) (hc : s.connections fd = some c) {frame : Frame}
    (hframe : ∀ request, frame = .calcMsg request → (request.target : ℕ) = c.num) :
    Invariant (s.send fd frame) := by
  have hnumbered := h.numbered fd c hc
  rw [State.send, hc]
  refine update_invariant h hc { c with sent := c.sent++[frame] } rfl
    ⟨fun request hmem => ?_, hnumbered.written, hnumbered.read⟩
  rcases List.mem_append.mp hmem with hmem | hmem
  · exact hnumbered.sent request hmem
  · exact hframe request (List.mem_singleton.mp hmem).symm

end

theorem fdAt_occupy (clients : List Node) (node : Node) (i : ℕ) : fdAt (occupy clients node) i =
    if clients.findIdx? (·.fd = -1) = some i then node.fd else fdAt clients i := by
  unfold occupy
  cases h : clients.findIdx? (·.fd = -1) with
  | none => rfl
  | some j =>
    have hlt : j < clients.length := (List.findIdx?_eq_some_iff_getElem.mp h).1
    simp only [fdAt_set, Option.some_inj]
    by_cases hij : j = i
    · rw [if_pos ⟨hij, hij ▸ hlt⟩, if_pos hij]
    · rw [if_neg (fun hand => hij hand.1), if_neg hij]

theorem accepted_iff {s : Server} {clientFD : ℤ} {name : Text} :
    (register s clientFD name).2 = accepted ↔ ¬Known s.clients name := by
  by_cases hknown : Known s.clients name
  · rw [register_known hknown]
    exact iff_of_false (by show refused ≠ accepted; decide) (not_not_intro hknown)
  · rw [register_unknown hknown]
    exact iff_of_true rfl hknown

theorem monitor_refused {s : Server} {clientFD : ℤ} {readBuff : Text}
    (h : ¬(Asks readBuff ∧ (register s clientFD (nameOf readBuff)).2 = accepted)) :
    (monitor s clientFD readBuff).clients = s.clients := by
  rw [monitor]
  split
  · rename_i hasks
    rw [accepted_iff, not_and, not_not] at h
    rw [register_known (h hasks)]
  · rfl

theorem connect_invariant {s : State} {clientFD : ℤ} {readBuff rest recvBuff : Text}
    (h : Invariant s) (hpossible : Possible s.server (.connect clientFD readBuff))
    (horder : InOrder s (.connect clientFD readBuff rest recvBuff)) :
    Invariant (connect s clientFD readBuff rest recvBuff).1 := by
  have hsound := monitor_sound h.sound hpossible.2.1 readBuff
  rw [connect]
  split
  · rename_i haccepted
    have hknown := accepted_iff.mp haccepted.2
    refine change_invariant h _ _ hsound (fun c hc => ?_) fun i hi => ?_
    · obtain rfl := Option.some_inj.mp hc
      exact ⟨by simp, by simp [start], Nat.zero_le _⟩
    · rw [monitor, if_pos haccepted.1, register_unknown hknown, fdAt_occupy] at hi ⊢
      split
      · rename_i hslot
        rw [if_pos rfl]
        exact ⟨_, rfl, (horder haccepted.1 hknown i hslot).symm⟩
      · rename_i hslot
        rw [if_neg hslot] at hi
        -- An open descriptor is not the one of the new connection.
        have hother : fdAt s.server.clients i ≠ clientFD :=
          fun heq => hpossible.2.1 (heq ▸ h.sound.opened i hi)
        rw [if_neg hother]
  · rename_i hrefused
    refine ⟨hsound, ?_, h.numbered⟩
    rw [monitor_refused hrefused]
    exact h.slots

theorem ping_free {s : Server} {i : ℕ} (h : fdAt s.clients i = -1) (failed : Bool) :
    ClusterServer.ping s i failed = s := by
  rw [ClusterServer.ping]
  split
  · rfl
  · rename_i node hnode
    rw [if_neg fun hused => hused.1 (fdAt_some hnode ▸ h)]

theorem ping_answered (s : Server) (i : ℕ) : ClusterServer.ping s i false = s := by
  rw [ClusterServer.ping]
  split
  · rfl
  · rw [if_neg (by simp)]

theorem ping_failed {s : Server} {i : ℕ} (h : fdAt s.clients i ≠ -1) :
    (ClusterServer.ping s i true).clients = s.clients.set i free := by
  rw [ClusterServer.ping]
  split
  · rename_i hnone
    exact absurd (by simp [fdAt, hnone]) h
  · rename_i node hnode
    rw [if_pos ⟨fdAt_some hnode ▸ h, rfl⟩]

theorem used_lt {clients : List Node} {i : ℕ} (h : fdAt clients i ≠ -1) : i < clients.length := by
  by_contra hle
  exact h (by simp [fdAt, List.getElem?_eq_none (not_lt.mp hle)])

theorem ping_invariant {s : State} {i : ℕ} (h : Invariant s) (failed : Bool) :
    Invariant (ping s i failed) := by
  rw [ping]
  split
  · rename_i hfree
    rw [ping_free hfree]
    exact h
  · rename_i hused
    cases failed with
    | false =>
      obtain ⟨c, hc, -⟩ := h.slots i hused
      rw [ping_answered]
      exact send_invariant h hc (fun request heq => by cases heq)
    | true =>
      refine change_invariant h _ none (ping_sound h.sound i true) (fun c hc => by cases hc)
        fun k hk => ?_
      rw [ping_failed hused, fdAt_set] at hk ⊢
      split
      · rename_i hki
        rw [if_pos hki] at hk
        exact absurd rfl hk
      · rename_i hki
        rw [if_neg hki] at hk
        have hother : fdAt s.server.clients k ≠ fdAt s.server.clients i := by
          intro heq
          exact hki ⟨(h.sound.own k i heq hk).symm, used_lt hk⟩
        rw [if_neg hother]

theorem step_invariant {s t : State} {choice : Choice} {fs : List Event} (h : Invariant s)
    (horder : InOrder s choice) (hs : step s choice = some (t, fs)) :
    Invariant t ∧ ∀ node num, Event.result node num ∈ fs → node = num := by
  cases choice with
  | connect clientFD readBuff rest recvBuff =>
    obtain ⟨hpossible, hnext⟩ := Option.ite_none_right_eq_some.mp hs
    obtain rfl := congrArg Prod.fst (Option.some_inj.mp hnext)
    obtain rfl := congrArg Prod.snd (Option.some_inj.mp hnext)
    refine ⟨connect_invariant h hpossible horder, fun node num hmem => ?_⟩
    rw [connect] at hmem
    split at hmem <;> simp at hmem
  | ping i failed =>
    obtain ⟨-, hnext⟩ := Option.ite_none_right_eq_some.mp hs
    obtain ⟨rfl, rfl⟩ := Prod.mk.inj (Option.some_inj.mp hnext)
    exact ⟨ping_invariant h failed, by simp⟩
  | calcRequest request =>
    obtain ⟨hused, hnext⟩ := Option.ite_none_left_eq_some.mp hs
    obtain ⟨rfl, rfl⟩ := Prod.mk.inj (Option.some_inj.mp hnext)
    obtain ⟨c, hc, hnum⟩ := h.slots request.target hused
    exact ⟨send_invariant h hc (fun r heq => by cases heq; exact hnum.symm), by simp⟩
  | receive fd k =>
    obtain ⟨c, hc, hreceived⟩ := Option.bind_eq_some_iff.mp hs
    obtain ⟨next, hnext, hlast⟩ := Option.bind_eq_some_iff.mp hreceived
    obtain ⟨rfl, rfl⟩ := Prod.mk.inj (Option.some_inj.mp hlast)
    obtain ⟨hnumbered, hnum⟩ := receive_numbered (h.numbered fd c hc) (horder c hc) hnext
    exact ⟨update_invariant h hc next hnum hnumbered, by simp⟩
  | result fd k =>
    obtain ⟨c, hc, hread⟩ := Option.bind_eq_some_iff.mp hs
    obtain ⟨⟨next, events⟩, hnext, hlast⟩ := Option.bind_eq_some_iff.mp hread
    obtain ⟨rfl, rfl⟩ := Prod.mk.inj (Option.some_inj.mp hlast)
    obtain ⟨hnumbered, hnum, hevents⟩ := result_numbered (h.numbered fd c hc) (horder c hc) hnext
    exact ⟨update_invariant h hc next hnum hnumbered, hevents⟩

theorem run_invariant (opened : Finset ℤ) {as : List Choice} {s : State} {es : List Event}
    (hr : run step as (initial opened) = some (s, es))
    (horder : Meets step InOrder (initial opened) as) :
    Invariant s ∧ ∀ node num, Event.result node num ∈ es → node = num :=
  run_induction_meets step InOrder (initial opened)
    (fun es s => Invariant s ∧ ∀ node num, Event.result node num ∈ es → node = num)
    ⟨initial_invariant opened, by simp⟩ (fun es s a t fs hi hC hs => by
      obtain ⟨ht, hfs⟩ := step_invariant hi.1 hC hs
      refine ⟨ht, fun node num hmem => ?_⟩
      exact (List.mem_append.mp hmem).elim (hi.2 node num) (hfs node num)) as horder s es hr

/-- In a run whose registrations are in order, and in which no piece is taken for a
frame that does not begin with one, every result is printed with the number of the
node that computed it. -/
theorem numbers_agree (opened : Finset ℤ) {as : List Choice} {s : State} {es : List Event}
    (hr : run step as (initial opened) = some (s, es))
    (horder : Meets step InOrder (initial opened) as) {node : ℤ} {num : ℕ}
    (h : Event.result node num ∈ es) : node = num :=
  (run_invariant opened hr horder).2 node num h

theorem clusterSize_pos : 0 < clusterSize := by decide

def sum (p : Fin clusterSize) : Request :=
  ⟨p, [49, 32, 43, 32, 49, 10], by decide, by decide⟩

def name (c : UInt8) : Text := [49, c]

/-- Two nodes compute sums. The first of them receives its frame in two pieces, and so
does the server the second result. -/
def twoNodes : List Choice :=
  [.connect 3 (name 97) [] [], .connect 4 (name 98) [] [], .receive 3 2, .receive 4 2,
    .calcRequest (sum ⟨1, by decide⟩), .calcRequest (sum ⟨0, clusterSize_pos⟩), .receive 3 100,
    .receive 3 30, .receive 4 130, .result 3 128, .result 4 3, .result 4 125]

theorem numbers_agree_two : ∃ s es, run step twoNodes (initial ∅) = some (s, es) ∧
    es = [.up 0, .up 1, .result 0 0, .result 1 1] ∧ (1 : ℤ) = (1 : ℕ) := by
  have hevents : (run step twoNodes (initial ∅)).map Prod.snd =
      some [.up 0, .up 1, .result 0 0, .result 1 1] := by decide +kernel
  have horder : Meets step InOrder (initial ∅) twoNodes := by decide +kernel
  obtain ⟨⟨s, es⟩, hr, rfl⟩ := Option.map_eq_some_iff.mp hevents
  have hmem : Event.result 1 1 ∈ [Event.up 0, .up 1, .result 0 0, .result 1 1] := by simp
  exact ⟨s, _, hr, rfl, numbers_agree ∅ hr horder hmem⟩

/-- A node in the slot of one that went down. -/
theorem slot_reused : ¬∀ (opened : Finset ℤ) (as : List Choice) (s : State) (es : List Event),
    run step as (initial opened) = some (s, es) → ∀ node num, Event.result node num ∈ es →
      node = num := by
  intro h
  have hevents : (run step [.connect 3 (name 97) [] [], .ping 0 true, .connect 3 (name 98) [] [],
      .receive 3 2, .calcRequest (sum ⟨0, clusterSize_pos⟩), .receive 3 130, .result 3 128]
      (initial ∅)).map Prod.snd = some [.up 0, .up 1, .result 0 1] := by decide +kernel
  obtain ⟨⟨s, es⟩, hr, rfl⟩ := Option.map_eq_some_iff.mp hevents
  exact absurd (h ∅ _ s _ hr 0 1 (by simp)) (by decide)

end Semestr4.NodeNumbers
