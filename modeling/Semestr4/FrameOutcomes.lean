import Mathlib.Data.List.Forall2
import Semestr4.FrameReplies

/-!
# What the clients of the POSIX queue print

Of each client at most one message is under way: its request in the server's queue
or the reply in its own. No message tells whom it is for, so that the names of the
queues have to be different, also from the server's.
-/

set_option autoImplicit false

namespace Semestr4.FrameOutcomes
open Semestr4.ByteText Semestr4.DecimalText Semestr4.CharArray Semestr4.RequestText
open Semestr4.FrameService Semestr4.FrameMirror Semestr4.FrameProtocol Semestr4.FrameReplies
open Semestr4.ScheduledRun

variable {ι : Type*} {printed : Value → Text} {names : ι → Text}
variable {t : ι} {name : Text} {w w' : World ι} {es : List (ι × Text)}

def sent (w : World ι) (block : Block) : World ι :=
  w.setQueue serverName (w.queues serverName++[block])

theorem send_some {block : Block} (h : w.send name block = some w') :
    w' = w.setQueue name (w.queues name++[block]) := by
  rw [World.send, Option.ite_none_right_eq_some] at h
  exact (Option.some.inj h.2).symm

theorem receive_some {block : Block} (h : w.receive name = some (block, w')) :
    ∃ rest, w.queues name = block::rest ∧ w' = w.setQueue name rest := by
  rw [World.receive] at h
  split at h
  · cases h
  · rename_i first rest hmail
    cases h
    exact ⟨rest, hmail, rfl⟩

theorem queue_self (v : World ι) (blocks : List Block) :
    (v.setQueue name blocks).queues name = blocks :=
  Function.update_self ..

theorem queue_other {other : Text} (v : World ι) (h : other ≠ name) (blocks : List Block) :
    (v.setQueue name blocks).queues other = v.queues other :=
  Function.update_of_ne h ..

theorem own_other {other : Text} (v : World ι) (h : name ≠ serverName) (blocks : List Block) :
    (v.setQueue name blocks).own other = v.own other := by
  rw [World.own, World.own, queue_other v (Ne.symm h)]

theorem own_server (v : World ι) (blocks : List Block) :
    (v.setQueue serverName blocks).own name = blocks.filter (sender · = some name) := by
  rw [World.own, queue_self]

/-- The server takes the oldest message, and replies to its sender if to anyone. -/
theorem serverStep_some {date : Text} (h : serverStep printed date w = some w') :
    ∃ block rest s replies, w.queues serverName = block::rest ∧
      receive printed w.server ⟨block, date⟩ = some (s, replies) ∧
      (replies = [] ∧ w' = { w.setQueue serverName rest with server := s } ∨
        ∃ q reply, sender block = some q ∧ replies = [(q, reply)] ∧
          w' = ({ w.setQueue serverName rest with server := s } : World ι).setQueue q
            ((w.setQueue serverName rest).queues q++[reply])) := by
  obtain ⟨⟨block, v⟩, htake, hround⟩ := Option.bind_eq_some_iff.mp h
  obtain ⟨rest, hqueue, rfl⟩ := receive_some htake
  obtain ⟨⟨s, replies⟩, hreceive, hsend⟩ := Option.bind_eq_some_iff.mp hround
  dsimp only at hsend
  refine ⟨block, rest, s, replies, hqueue, hreceive, ?_⟩
  rcases receive_sender hreceive with rfl | ⟨q, reply, hq, rfl⟩
  · cases hsend
    exact .inl ⟨rfl, rfl⟩
  · rw [List.foldlM_cons, Option.bind_eq_bind, Option.bind_eq_some_iff] at hsend
    obtain ⟨u, hu, heq⟩ := hsend
    cases heq
    exact .inr ⟨q, reply, hq, rfl, send_some hu⟩

/-- Of a client in this state these messages are in the server's queue and in its own. -/
inductive UnderWay (printed : Value → Text) (name : Text) (running : Bool) (c : Client) :
    List Block → List Block → Prop where
  | idle (phase : c.phase = .starting ∨ c.phase = .ready) : UnderWay printed name running c [] []
  | registers (phase : c.phase = .connecting) (block : Block)
      (framed : frame .init name [] = some block) : UnderWay printed name running c [block] []
  | registered (phase : c.phase = .connecting) (reply : Block) :
      UnderWay printed name running c [] [reply]
  /-- It was started when the server had ended. -/
  | late (phase : c.phase = .connecting) (gone : running = false) :
      UnderWay printed name running c [] []
  | asks (phase : c.phase = .waiting) (request : Block) (goes : isEnd c.buffer = false)
      (requested : Requested name c.buffer request) : UnderWay printed name running c [request] []
  | answered (phase : c.phase = .waiting) (reply : Block)
      (outcome : ∀ out, shown reply = some out → Outcome printed c.buffer out) :
      UnderWay printed name running c [] [reply]
  | ends (phase : c.phase = .ended) (request : Block) (stops : kind request = MsgType.stop.code)
      (sender : sender request = some name) : UnderWay printed name running c [request] []
  | ended (phase : c.phase = .ended) : UnderWay printed name running c [] []

section
variable {running : Bool} {c : Client} {own mail : List Block}

theorem UnderWay.of_idle (h : UnderWay printed name running c own mail)
    (phase : c.phase = .starting ∨ c.phase = .ready) : own = [] ∧ mail = [] := by
  cases h <;> simp_all

theorem UnderWay.of_connecting (h : UnderWay printed name running c own mail)
    (phase : c.phase = .connecting) {block : Block} {rest : List Block}
    (hmail : mail = block::rest) :
    own = [] ∧ rest = [] := by
  cases h <;> simp_all

theorem UnderWay.of_waiting (h : UnderWay printed name running c own mail)
    (phase : c.phase = .waiting) {reply : Block} {rest : List Block}
    (hmail : mail = reply::rest) : own = [] ∧ rest = [] ∧
      ∀ out, shown reply = some out → Outcome printed c.buffer out := by
  cases h <;> simp_all

/-- None is late as long as the server runs, whatever becomes of the server. -/
theorem UnderWay.of_running (h : UnderWay printed name true c own mail) (running : Bool) :
    UnderWay printed name running c own mail := by
  cases h with
  | idle phase => exact .idle phase
  | registers phase block framed => exact .registers phase block framed
  | registered phase reply => exact .registered phase reply
  | late phase gone => cases gone
  | asks phase request goes requested => exact .asks phase request goes requested
  | answered phase reply outcome => exact .answered phase reply outcome
  | ends phase request stops sender => exact .ends phase request stops sender
  | ended phase => exact .ended phase

end

theorem own_sent_alone {block : Block} (hown : w.own name = []) (h : sender block = some name) :
    (sent w block).own name = [block] := by
  have hrest : (w.queues serverName).filter (sender · = some name) = [] := hown
  rw [sent, own_server, List.filter_append, hrest]
  simp [h]

theorem own_sent_other {block : Block} (h : sender block ≠ some name) :
    (sent w block).own name = w.own name := by
  rw [sent, own_server, List.filter_append]
  simp [World.own, h]

def Addressed (w : World ι) : Prop :=
  ∀ block ∈ w.queues serverName, sender block ≠ some serverName

theorem receive_stop {s s' : Server} {block : Block} {date : Text} {replies : List (Text × Block)}
    (hstop : kind block = MsgType.stop.code)
    (h : receive printed s ⟨block, date⟩ = some (s', replies)) : replies = [] := by
  have hkind : msgType ((block.bytes.headD 0).toNat-48) = some .stop := by
    rw [← msgType_code .stop, ← hstop]
    rfl
  rw [receive, Option.ite_none_right_eq_some] at h
  obtain ⟨found, -, hbranch⟩ := Option.bind_eq_some_iff.mp h.2
  simp only [hkind] at hbranch
  cases hbranch
  rfl

theorem receive_running {s s' : Server} {block : Block} {date : Text}
    {replies : List (Text × Block)} (h : receive printed s ⟨block, date⟩ = some (s', replies)) :
    s.running = true := by
  rw [receive, Option.ite_none_right_eq_some] at h
  exact h.1

/-- The server's turn moves the oldest message of its queue to the queue of its sender. -/
theorem server_underWay (hname : IsName name) (hother : name ≠ serverName) {c : Client}
    {date : Text} (haddressed : Addressed w) (h : serverStep printed date w = some w')
    (hway : UnderWay printed name w.server.running c (w.own name) (w.queues name)) :
    UnderWay printed name w'.server.running c (w'.own name) (w'.queues name) := by
  obtain ⟨block, rest, s, replies, hqueue, hreceive, hturn⟩ := serverStep_some h
  rw [receive_running hreceive] at hway
  have hserver : ∀ q, sender block = some q → q ≠ serverName := by
    rintro q hq rfl
    exact haddressed block (hqueue ▸ List.mem_cons_self) hq
  have hsilent : replies = [] → w'.own name = rest.filter (sender · = some name) ∧
      w'.queues name = w.queues name := by
    intro hnone
    rcases hturn with ⟨-, rfl⟩ | ⟨q, reply, -, hreplies, -⟩
    · exact ⟨own_server w rest, queue_other w hother rest⟩
    · cases hnone.symm.trans hreplies
  have hreply : ∀ {reply}, replies = [(name, reply)] →
      w'.own name = rest.filter (sender · = some name) ∧
        w'.queues name = w.queues name++[reply] := by
    intro reply hone
    rcases hturn with ⟨hnone, -⟩ | ⟨q, reply', -, hreplies, rfl⟩
    · cases hnone.symm.trans hone
    · cases hone.symm.trans hreplies
      rw [own_other _ hother, queue_self, queue_other w hother]
      exact ⟨own_server w rest, rfl⟩
  by_cases hsender : sender block = some name
  -- the oldest message is the client's own, and its only one
  · have hown : w.own name = block::rest.filter (sender · = some name) := by
      rw [World.own, hqueue, List.filter_cons_of_pos (by rw [hsender, decide_eq_true_eq])]
    rw [hown] at hway
    generalize hrest : rest.filter (sender · = some name) = others at hway hsilent hreply
    generalize hmail : w.queues name = mail at hway hsilent hreply
    cases hway with
    | registers phase _ framed =>
      obtain ⟨reply, hreplies⟩ := receive_frame hname framed hreceive
      obtain ⟨hown', hmail'⟩ := hreply hreplies
      rw [hown', hmail']
      exact .registered phase reply
    | asks phase _ goes requested =>
      obtain ⟨reply, hreplies, houtcome⟩ := receive_request hname requested goes hreceive
      obtain ⟨hown', hmail'⟩ := hreply hreplies
      rw [hown', hmail']
      exact .answered phase reply houtcome
    | ends phase _ stops _ =>
      obtain ⟨hown', hmail'⟩ := hsilent (receive_stop stops hreceive)
      rw [hown', hmail']
      exact .ended phase
  -- whoever sent it, the reply goes to another queue
  · have hown : w.own name = rest.filter (sender · = some name) := by
      rw [World.own, hqueue, List.filter_cons_of_neg (by rwa [decide_eq_true_eq])]
    rw [hown] at hway
    rcases hturn with ⟨hnone, rfl⟩ | ⟨q, reply, hq, -, rfl⟩
    · obtain ⟨hown', hmail'⟩ := hsilent hnone
      rw [hown', hmail']
      exact hway.of_running _
    · have hne : name ≠ q := fun heq => hsender (heq ▸ hq)
      rw [own_other _ (hserver q hq), queue_other _ hne]
      change UnderWay printed name _ c ((w.setQueue serverName rest).own name)
        ((w.setQueue serverName rest).queues name)
      rw [own_server, queue_other w hother]
      exact hway.of_running _

theorem server_addressed {date : Text} (haddressed : Addressed w)
    (h : serverStep printed date w = some w') : Addressed w' := by
  obtain ⟨block, rest, s, replies, hqueue, -, hturn⟩ := serverStep_some h
  have hrest : ∀ b ∈ rest, sender b ≠ some serverName := fun b hb =>
    haddressed b (hqueue ▸ List.mem_cons_of_mem block hb)
  rcases hturn with ⟨-, rfl⟩ | ⟨q, reply, hq, -, rfl⟩
  · rw [Addressed]
    change ∀ b ∈ (w.setQueue serverName rest).queues serverName, sender b ≠ some serverName
    rwa [queue_self]
  · have hne : serverName ≠ q := by
      rintro rfl
      exact haddressed block (hqueue ▸ List.mem_cons_self) hq
    rw [Addressed, queue_other _ hne]
    change ∀ b ∈ (w.setQueue serverName rest).queues serverName, sender b ≠ some serverName
    rwa [queue_self]

theorem server_clients {date : Text} (h : serverStep printed date w = some w') :
    w'.clients = w.clients := by
  obtain ⟨block, rest, s, replies, -, -, ⟨-, rfl⟩ | ⟨q, reply, -, -, rfl⟩⟩ := serverStep_some h
  · rfl
  · rfl

variable [DecidableEq ι]

inductive Turn (name : Text) (t : ι) (w : World ι) : World ι → List (ι × Text) → Prop where
  | registers (block : Block) (phase : (w.clients t).phase = .starting)
      (framed : frame .init name [] = some block) :
      Turn name t w ((sent w block).setPhase t .connecting) []
  | late (phase : (w.clients t).phase = .starting) (gone : w.server.running = false) :
      Turn name t w (w.setPhase t .connecting) []
  | connects (block : Block) (rest : List Block) (phase : (w.clients t).phase = .connecting)
      (mail : w.queues name = block::rest) :
      Turn name t w ((w.setQueue name rest).setPhase t .ready) []
  | skips (phase : (w.clients t).phase = .ready)
      (goes : isEnd (getline (w.clients t)).buffer = false)
      (other : isRequest (getline (w.clients t)).buffer = false) :
      Turn name t w (w.setClient t (getline (w.clients t))) []
  | asks (request : Block) (phase : (w.clients t).phase = .ready)
      (goes : isEnd (getline (w.clients t)).buffer = false)
      (requested : Requested name (getline (w.clients t)).buffer request) :
      Turn name t w
        ((sent w request).setClient t { getline (w.clients t) with phase := .waiting }) []
  | ends (request : Block) (phase : (w.clients t).phase = .ready)
      (stops : isEnd (getline (w.clients t)).buffer = true)
      (requested : Requested name (getline (w.clients t)).buffer request) :
      Turn name t w ((sent w request).setClient t { getline (w.clients t) with phase := .ended }) []
  | prints (reply : Block) (rest : List Block) (out : Text) (phase : (w.clients t).phase = .waiting)
      (mail : w.queues name = reply::rest) (seen : shown reply = some out) :
      Turn name t w ((w.setQueue name rest).setPhase t .ready) [(t, out)]

theorem clientStep_turn (h : clientStep name t w = some (w', es)) : Turn name t w w' es := by
  rw [clientStep] at h
  split at h
  · rename_i hphase
    obtain ⟨block, hframe, hsend⟩ := Option.bind_eq_some_iff.mp h
    obtain ⟨v, hv, heq⟩ := Option.map_eq_some_iff.mp hsend
    cases heq
    split at hv
    · rw [send_some hv]
      exact .registers block hphase hframe
    · rename_i hover
      cases hv
      exact .late hphase (Bool.eq_false_of_not_eq_true hover)
  · rename_i hphase
    obtain ⟨⟨block, v⟩, hreceive, heq⟩ := Option.map_eq_some_iff.mp h
    obtain ⟨rest, hmail, rfl⟩ := receive_some hreceive
    cases heq
    exact .connects block rest hphase hmail
  · rename_i hphase
    dsimp only at h
    split at h
    · rename_i hcommand
      obtain ⟨hgoes, hother⟩ := command_skip hcommand
      cases h
      exact .skips hphase hgoes hother
    · cases h
    · rename_i request hcommand
      have hrequested := command_send hcommand
      obtain ⟨v, hsend, heq⟩ := Option.map_eq_some_iff.mp h
      cases heq
      rw [send_some hsend]
      cases hend : isEnd (getline (w.clients t)).buffer with
      | false => exact .asks request hphase hend hrequested
      | true => exact .ends request hphase hend hrequested
  · rename_i hphase
    obtain ⟨⟨reply, v⟩, hreceive, hshown⟩ := Option.bind_eq_some_iff.mp h
    obtain ⟨rest, hmail, rfl⟩ := receive_some hreceive
    obtain ⟨out, hout, heq⟩ := Option.map_eq_some_iff.mp hshown
    cases heq
    exact .prints reply rest out hphase hmail hout
  · cases h

/-- The lines of the file whose answers are to be printed yet. -/
def due (c : Client) : List Text :=
  match c.phase with
  | .waiting => c.buffer::requests c.file
  | .ended => []
  | _ => requests c.file

/-- What has been printed are outcomes of the lines before those. -/
def Printed (printed : Value → Text) (file : List Text) (c : Client) (outs : List Text) : Prop :=
  ∃ answered, requests file = answered++due c ∧ List.Forall₂ (Outcome printed) answered outs

theorem requests_cons (line : Text) (file : List Text) : requests (line::file) =
    if isEnd line then [] else if isRequest line then line::requests file else requests file := by
  cases hend : isEnd line <;> cases hrequest : isRequest line <;>
    simp [requests, hend, hrequest]

theorem requests_getline {c : Client} (h : isEnd (getline c).buffer = false) :
    requests c.file = if isRequest (getline c).buffer
      then (getline c).buffer::requests (getline c).file else requests (getline c).file := by
  cases hfile : c.file with
  | nil =>
    have hempty : isRequest [] = false := by decide
    simp only [getline, hfile, List.headD_nil, List.tail_nil, hempty, Bool.false_eq_true, if_false]
  | cons line file =>
    simp only [getline, hfile, List.headD_cons, List.tail_cons] at h ⊢
    rw [requests_cons, h, if_neg Bool.false_ne_true]

theorem requests_end {c : Client} (h : isEnd (getline c).buffer = true) : requests c.file = [] := by
  cases hfile : c.file with
  | nil => rfl
  | cons line file =>
    simp only [getline, hfile, List.headD_cons] at h
    rw [requests_cons, if_pos h]

theorem update_clients (v : World ι) (c : Client) : (v.setClient t c).clients t = c :=
  Function.update_self ..

theorem turn_underWay (hname : IsName name) (hother : name ≠ serverName)
    (h : Turn name t w w' es)
    (hway : UnderWay printed name w.server.running (w.clients t) (w.own name) (w.queues name)) :
    UnderWay printed name w'.server.running (w'.clients t) (w'.own name) (w'.queues name) := by
  have hsent : ∀ block, (sent w block).queues name = w.queues name := fun block =>
    queue_other w hother _
  cases h with
  | registers block phase framed =>
    obtain ⟨hown, hmail⟩ := hway.of_idle (Or.inl phase)
    have hown' := own_sent_alone hown (frame_sender hname framed)
    rw [World.setPhase, update_clients]
    change UnderWay printed name _ _ ((sent w block).own name) ((sent w block).queues name)
    rw [hown', hsent, hmail]
    exact .registers rfl block framed
  | late phase gone =>
    obtain ⟨hown, hmail⟩ := hway.of_idle (Or.inl phase)
    rw [World.setPhase, update_clients]
    change UnderWay printed name w.server.running _ (w.own name) (w.queues name)
    rw [hown, hmail]
    exact .late rfl gone
  | connects block rest phase mail =>
    obtain ⟨hown, rfl⟩ := hway.of_connecting phase mail
    rw [World.setPhase, update_clients]
    change UnderWay printed name _ _ ((w.setQueue name []).own name)
      ((w.setQueue name []).queues name)
    rw [own_other w hother, hown, queue_self]
    exact .idle (Or.inr rfl)
  | skips phase goes other =>
    obtain ⟨hown, hmail⟩ := hway.of_idle (Or.inr phase)
    rw [update_clients]
    change UnderWay printed name _ _ (w.own name) (w.queues name)
    rw [hown, hmail]
    exact .idle (Or.inr phase)
  | asks request phase goes requested =>
    obtain ⟨hown, hmail⟩ := hway.of_idle (Or.inr phase)
    have hown' := own_sent_alone hown (requested.sender_name hname)
    rw [update_clients]
    change UnderWay printed name _ _ ((sent w request).own name) ((sent w request).queues name)
    rw [hown', hsent, hmail]
    exact .asks rfl request goes requested
  | ends request phase stops requested =>
    obtain ⟨hown, hmail⟩ := hway.of_idle (Or.inr phase)
    have hown' := own_sent_alone hown (requested.sender_name hname)
    rw [update_clients]
    change UnderWay printed name _ _ ((sent w request).own name) ((sent w request).queues name)
    rw [hown', hsent, hmail]
    exact .ends rfl request (requested.kind_stop stops) (requested.sender_name hname)
  | prints reply rest out phase mail seen =>
    obtain ⟨hown, rfl, -⟩ := hway.of_waiting phase mail
    rw [World.setPhase, update_clients]
    change UnderWay printed name _ _ ((w.setQueue name []).own name)
      ((w.setQueue name []).queues name)
    rw [own_other w hother, hown, queue_self]
    exact .idle (Or.inr rfl)

theorem turn_printed {file outs : List Text} (h : Turn name t w w' es)
    (hway : UnderWay printed name w.server.running (w.clients t) (w.own name) (w.queues name))
    (hprinted : Printed printed file (w.clients t) outs) :
    Printed printed file (w'.clients t) (outs++printedBy t es) := by
  obtain ⟨answered, hfile, hall⟩ := hprinted
  have hsilent : printedBy t ([] : List (ι × Text)) = [] := rfl
  cases h with
  | registers block phase framed =>
    refine ⟨answered, ?_, by rwa [hsilent, List.append_nil]⟩
    rw [World.setPhase, update_clients]
    rw [due, phase] at hfile
    exact hfile
  | late phase gone =>
    refine ⟨answered, ?_, by rwa [hsilent, List.append_nil]⟩
    rw [World.setPhase, update_clients]
    rw [due, phase] at hfile
    exact hfile
  | connects block rest phase mail =>
    refine ⟨answered, ?_, by rwa [hsilent, List.append_nil]⟩
    rw [World.setPhase, update_clients]
    rw [due, phase] at hfile
    exact hfile
  | skips phase goes other =>
    refine ⟨answered, ?_, by rwa [hsilent, List.append_nil]⟩
    rw [due, phase] at hfile
    rw [update_clients, due, show (getline (w.clients t)).phase = .ready from phase, hfile]
    dsimp only
    rw [requests_getline goes, if_neg (Bool.eq_false_iff.mp other)]
  | asks request phase goes requested =>
    refine ⟨answered, ?_, by rwa [hsilent, List.append_nil]⟩
    rw [due, phase] at hfile
    rw [update_clients, hfile]
    dsimp only [due]
    rw [requests_getline goes, if_pos (requested.isRequest_of_goes goes)]
  | ends request phase stops requested =>
    refine ⟨answered, ?_, by rwa [hsilent, List.append_nil]⟩
    rw [due, phase] at hfile
    rw [update_clients, hfile]
    dsimp only [due]
    rw [requests_end stops]
  | prints reply rest out phase mail seen =>
    obtain ⟨-, -, houtcome⟩ := hway.of_waiting phase mail
    have hloud : printedBy t [(t, out)] = [out] := by simp [printedBy]
    refine ⟨answered++[(w.clients t).buffer], ?_, ?_⟩
    · rw [due, phase] at hfile
      rw [World.setPhase, update_clients, hfile, List.append_assoc]
      rfl
    · rw [hloud]
      exact List.rel_append hall (.cons (houtcome out seen) .nil)

theorem turn_other (hname : IsName name) (hserver : name ≠ serverName) (h : Turn name t w w' es)
    {u : ι} (hu : u ≠ t) {other : Text} (hother : other ≠ name) (hother' : other ≠ serverName) :
    w'.clients u = w.clients u ∧ w'.own other = w.own other ∧
      w'.queues other = w.queues other ∧ printedBy u es = [] := by
  have hclients : ∀ (v : World ι) (c : Client), (v.setClient t c).clients u = v.clients u :=
    fun v c => Function.update_of_ne hu ..
  have hsent : ∀ {block : Block}, sender block = some name →
      (sent w block).own other = w.own other ∧ (sent w block).queues other = w.queues other :=
    fun hsender => ⟨own_sent_other fun heq => hother (Option.some.inj (heq.symm.trans hsender)),
      queue_other w hother' _⟩
  have hreceived : ∀ rest, (w.setQueue name rest).own other = w.own other ∧
      (w.setQueue name rest).queues other = w.queues other := fun rest =>
    ⟨own_other w hserver rest, queue_other w hother rest⟩
  cases h with
  | registers block phase framed =>
    obtain ⟨hown, hqueue⟩ := hsent (frame_sender hname framed)
    exact ⟨hclients _ _, hown, hqueue, rfl⟩
  | late phase gone => exact ⟨hclients _ _, rfl, rfl, rfl⟩
  | connects block rest phase mail =>
    exact ⟨hclients _ _, (hreceived rest).1, (hreceived rest).2, rfl⟩
  | skips phase goes other => exact ⟨hclients _ _, rfl, rfl, rfl⟩
  | asks request phase goes requested =>
    obtain ⟨hown, hqueue⟩ := hsent (requested.sender_name hname)
    exact ⟨hclients _ _, hown, hqueue, rfl⟩
  | ends request phase stops requested =>
    obtain ⟨hown, hqueue⟩ := hsent (requested.sender_name hname)
    exact ⟨hclients _ _, hown, hqueue, rfl⟩
  | prints reply rest out phase mail seen =>
    refine ⟨hclients _ _, (hreceived rest).1, (hreceived rest).2, ?_⟩
    simp [printedBy, Ne.symm hu]

/-- A turn leaves the server as it is, and the messages to it where they are; one that
comes behind them is from the client. -/
theorem turn_server (hname : IsName name) (hserver : name ≠ serverName) (h : Turn name t w w' es) :
    w'.server = w.server ∧ (w'.queues serverName = w.queues serverName ∨
      ∃ block, sender block = some name ∧
        w'.queues serverName = w.queues serverName++[block]) := by
  have hsent : ∀ {block : Block}, (sent w block).queues serverName =
      w.queues serverName++[block] := queue_self w _
  cases h with
  | registers block phase framed => exact ⟨rfl, .inr ⟨block, frame_sender hname framed, hsent⟩⟩
  | late phase gone => exact ⟨rfl, .inl rfl⟩
  | connects block rest phase mail => exact ⟨rfl, .inl (queue_other w (Ne.symm hserver) rest)⟩
  | skips phase goes other => exact ⟨rfl, .inl rfl⟩
  | asks request phase goes requested =>
    exact ⟨rfl, .inr ⟨request, requested.sender_name hname, hsent⟩⟩
  | ends request phase stops requested =>
    exact ⟨rfl, .inr ⟨request, requested.sender_name hname, hsent⟩⟩
  | prints reply rest out phase mail seen =>
    exact ⟨rfl, .inl (queue_other w (Ne.symm hserver) rest)⟩

theorem turn_addressed (hname : IsName name) (hserver : name ≠ serverName)
    (h : Turn name t w w' es) (haddressed : Addressed w) : Addressed w' := by
  intro b hb
  obtain ⟨-, hqueue | ⟨block, hsender, hqueue⟩⟩ := turn_server hname hserver h
  · exact haddressed b (hqueue ▸ hb)
  · rw [hqueue, List.mem_append, List.mem_singleton] at hb
    rcases hb with hb | rfl
    · exact haddressed b hb
    · exact fun heq => hserver (Option.some.inj (hsender.symm.trans heq))

theorem printedBy_append (t : ι) (es fs : List (ι × Text)) :
    printedBy t (es++fs) = printedBy t es++printedBy t fs := by
  rw [printedBy, List.filter_append, List.map_append]
  rfl

structure Keeps (printed : Value → Text) (names : ι → Text) (files : ι → List Text) (t : ι)
    (es : List (ι × Text)) (w : World ι) : Prop where
  addressed : Addressed w
  messages : UnderWay printed (names t) w.server.running (w.clients t) (w.own (names t))
    (w.queues (names t))
  outcomes : Printed printed (files t) (w.clients t) (printedBy t es)

theorem keeps_initial (files : ι → List Text) (t : ι) :
    Keeps printed names files t [] (initial files) where
  addressed := fun _ hb => absurd hb List.not_mem_nil
  messages := .idle (Or.inl rfl)
  outcomes := ⟨[], rfl, .nil⟩

theorem keeps_step (hinj : Function.Injective names) (hnames : ∀ t, IsName (names t))
    (hserver : ∀ t, names t ≠ serverName) {files : ι → List Text} {t : ι} {a : Actor ι}
    {fs : List (ι × Text)} (hkeeps : Keeps printed names files t es w)
    (h : step printed names w a = some (w', fs)) : Keeps printed names files t (es++fs) w' := by
  obtain ⟨haddressed, hway, houtcomes⟩ := hkeeps
  cases a with
  | client u =>
    have hturn : Turn (names u) u w w' fs := clientStep_turn h
    have haddressed' := turn_addressed (hnames u) (hserver u) hturn haddressed
    by_cases hu : t = u
    · subst hu
      refine ⟨haddressed', turn_underWay (hnames t) (hserver t) hturn hway, ?_⟩
      rw [printedBy_append]
      exact turn_printed hturn hway houtcomes
    · obtain ⟨hclient, hown, hmail, hsilent⟩ := turn_other (hnames u) (hserver u) hturn hu
        (fun heq => hu (hinj heq)) (hserver t)
      refine ⟨haddressed', ?_, ?_⟩
      · rwa [hclient, hown, hmail, (turn_server (hnames u) (hserver u) hturn).1]
      · rwa [hclient, printedBy_append, hsilent, List.append_nil]
  | server date =>
    obtain ⟨v, hround, heq⟩ := Option.map_eq_some_iff.mp h
    cases heq
    refine ⟨server_addressed haddressed hround, ?_, ?_⟩
    · rw [server_clients hround]
      exact server_underWay (hnames t) (hserver t) haddressed hround hway
    · rwa [server_clients hround, List.append_nil]

theorem keeps_run (hinj : Function.Injective names) (hnames : ∀ t, IsRandomName (names t))
    (hserver : ∀ t, names t ≠ serverName) {files : ι → List Text} {as : List (Actor ι)}
    (hr : run (step printed names) as (initial files) = some (w, es)) (t : ι) :
    Keeps printed names files t es w :=
  run_induction (step printed names) (initial files) (Keeps printed names files t)
    (keeps_initial files t)
    (fun _ _ _ _ _ hkeeps hstep =>
      keeps_step hinj (fun t => isName_random (hnames t)) hserver hkeeps hstep)
    as w es hr

/-- When the server has ended, what is in its queue stays there. -/
theorem unanswered (hnames : ∀ t, IsName (names t)) (hserver : ∀ t, names t ≠ serverName)
    (hover : w.server.running = false) {as : List (Actor ι)}
    (hr : run (step printed names) as w = some (w', es)) :
    w'.server.running = false ∧ w.queues serverName <+: w'.queues serverName := by
  refine run_induction (step printed names) w
    (fun _ v => v.server.running = false ∧ w.queues serverName <+: v.queues serverName)
    ⟨hover, List.prefix_rfl⟩ ?_ as w' es hr
  rintro fs u a v gs ⟨hover', hprefix⟩ hstep
  cases a with
  | client t =>
    obtain ⟨hsame, hqueue⟩ := turn_server (hnames t) (hserver t) (clientStep_turn hstep)
    refine ⟨hsame ▸ hover', hprefix.trans ?_⟩
    rcases hqueue with hqueue | ⟨block, -, hqueue⟩
    · exact hqueue ▸ List.prefix_rfl
    · exact hqueue ▸ List.prefix_append _ _
  | server date =>
    obtain ⟨v', hround, -⟩ := Option.map_eq_some_iff.mp hstep
    obtain ⟨block, rest, s, replies, -, hreceive, -⟩ := serverStep_some hround
    cases hover'.symm.trans (receive_running hreceive)

def mirrorAb : Text := mirrorLine [97, 98]

def mirrorCd : Text := mirrorLine [99, 100]

def endLine : Text := endWord++[newline]

def twoFiles : Bool → List Text
  | false => [mirrorAb, endLine]
  | true => [mirrorCd, endLine]

def twoNames : Bool → Text
  | false => abcd
  | true => abcd++[101]

/-- Both register and send a request before the server gets to either, and both end. -/
def together : List (Actor Bool) :=
  [.client false, .client true, .server [], .server [], .client false, .client true,
    .client false, .client true, .server [], .server [], .client true, .client false,
    .client true, .client false]

theorem twoNames_random (t : Bool) : IsRandomName (twoNames t) := by
  cases t with
  | false => exact abcd_random
  | true => exact ⟨[97, 98, 99, 100, 101], rfl, by decide, by decide, by simp⟩

theorem twoNames_injective : Function.Injective twoNames := by
  intro s t hname
  have hall : ∀ s t, twoNames s = twoNames t → s = t := by decide +kernel
  exact hall s t hname

theorem twoNames_other (t : Bool) : twoNames t ≠ serverName := by
  cases t <;> decide

theorem mirrored_line {printed : Value → Text} {line argument out : Text}
    (hmirror : arguments (cstring line) = some (mirrorWord, some argument))
    (h : List.Forall₂ (Outcome printed) [line] [out]) : firstLine argument.reverse = some out := by
  cases h with
  | cons houtcome _ =>
    obtain ⟨date, hdate⟩ := houtcome
    rwa [answer_mirror hmirror] at hdate

/-- Clients started in the same second have the same name, and one of them can take the
reply to the other. -/
theorem shared_name_mixed : ¬ ∀ (names : Bool → Text) (files : Bool → List Text)
    (as : List (Actor Bool)) (w : World Bool) (es : List (Bool × Text)),
    (∀ t, IsRandomName (names t)) →
    run (step (fun _ => []) names) as (initial files) = some (w, es) → ∀ t,
    List.Forall₂ (Outcome fun _ => []) ((requests (files t)).take (printedBy t es).length)
      (printedBy t es) := by
  intro h
  have hevents : (run (step (fun _ => []) fun _ => abcd) together (initial twoFiles)).map Prod.snd =
      some [(true, [98, 97]), (false, [100, 99])] := by decide +kernel
  obtain ⟨⟨w, es⟩, hr, rfl⟩ := Option.map_eq_some_iff.mp hevents
  have hrequests : requests (twoFiles true) = [mirrorCd] := by decide +kernel
  have hfirst : List.Forall₂ (Outcome fun _ => []) [mirrorCd] [[98, 97]] :=
    hrequests ▸ h (fun _ => abcd) twoFiles together w _ (fun _ => abcd_random) hr true
  have hmirror : arguments (cstring mirrorCd) = some (mirrorWord, some [99, 100]) := by
    decide +kernel
  exact absurd (mirrored_line hmirror hfirst) (by decide +kernel)

theorem server_random : IsRandomName serverName :=
  ⟨[115, 101, 114, 118, 101, 114], rfl, by decide +kernel, by decide +kernel, by decide +kernel⟩

/-- A client with the server's name takes its registration and its request back, and
prints its own text. -/
theorem server_name_mixed : ¬ ∀ (names : Unit → Text) (files : Unit → List Text)
    (as : List (Actor Unit)) (w : World Unit) (es : List (Unit × Text)),
    Function.Injective names → (∀ t, IsRandomName (names t)) →
    run (step (fun _ => []) names) as (initial files) = some (w, es) → ∀ t,
    List.Forall₂ (Outcome fun _ => []) ((requests (files t)).take (printedBy t es).length)
      (printedBy t es) := by
  intro h
  have hevents : (run (step (fun _ => []) fun _ => serverName) (List.replicate 4 (.client ()))
      (initial fun _ => [mirrorAb])).map Prod.snd = some [((), [97, 98])] := by decide +kernel
  obtain ⟨⟨w, es⟩, hr, rfl⟩ := Option.map_eq_some_iff.mp hevents
  have hrequests : requests [mirrorAb] = [mirrorAb] := by decide +kernel
  have hprinted := h (fun _ => serverName) (fun _ => [mirrorAb]) _ w _
    (Function.injective_of_subsingleton _) (fun _ => server_random) hr ()
  rw [hrequests] at hprinted
  have hfirst : List.Forall₂ (Outcome fun _ => []) [mirrorAb] [[97, 98]] := hprinted
  have hmirror : arguments (cstring mirrorAb) = some (mirrorWord, some [97, 98]) := by
    decide +kernel
  exact absurd (mirrored_line hmirror hfirst) (by decide +kernel)

/-- No client has more than one message under way, and one that waits has one, its request
or the reply, unless it was started when the server had ended. What the server has not
taken when it ends stays in its queue. -/
theorem one_message_each (printed : Value → Text) (names : ι → Text)
    (hinj : Function.Injective names) (hnames : ∀ t, IsRandomName (names t))
    (hserver : ∀ t, names t ≠ serverName) (files : ι → List Text) (as : List (Actor ι))
    (w : World ι) (es : List (ι × Text))
    (hr : run (step printed names) as (initial files) = some (w, es)) (t : ι) :
    (w.own (names t)).length+(w.queues (names t)).length ≤ 1 ∧
      ((w.clients t).phase = .waiting ∨
          (w.clients t).phase = .connecting ∧ w.server.running = true →
        (w.own (names t)).length+(w.queues (names t)).length = 1) ∧
      (w.server.running = false → ∀ later w' fs,
        run (step printed names) later w = some (w', fs) →
          w.own (names t) <+: w'.own (names t)) := by
  obtain ⟨-, hway, -⟩ := keeps_run hinj hnames hserver hr t
  refine and_assoc.mp ⟨?_, fun hover later w' fs hlater => ?_⟩
  · generalize w.own (names t) = own at hway ⊢
    generalize w.queues (names t) = mail at hway ⊢
    cases hway with
    | idle phase => exact ⟨Nat.zero_le _, fun h => by rcases phase with h' | h' <;> simp [h'] at h⟩
    | late phase gone => exact ⟨Nat.zero_le _, fun h => by simp [phase, gone] at h⟩
    | registers | registered | asks | answered => exact ⟨Nat.le_refl _, fun _ => rfl⟩
    | ends phase => exact ⟨Nat.le_refl _, fun _ => rfl⟩
    | ended phase => exact ⟨Nat.zero_le _, fun h => by simp [phase] at h⟩
  · exact (unanswered (fun t => isName_random (hnames t)) hserver hover hlater).2.filter _

/-- The first client only ends, and the server takes this before the request of the other. -/
def behindEnd : List (Actor Bool) :=
  [.client false, .client true, .server [], .server [], .client false, .client true,
    .client false, .client true, .server []]

def endingFiles : Bool → List Text
  | false => [endLine]
  | true => [mirrorCd]

theorem one_message_each_two : ∃ w es,
    run (step (fun _ => []) twoNames) behindEnd (initial endingFiles) = some (w, es) ∧
      (w.own (twoNames true)).length+(w.queues (twoNames true)).length = 1 ∧
      ∀ later w' fs, run (step (fun _ => []) twoNames) later w = some (w', fs) →
        w.own (twoNames true) <+: w'.own (twoNames true) := by
  have hrun : (run (step (fun _ => []) twoNames) behindEnd (initial endingFiles)).map
      (fun p => ((p.1.clients true).phase, p.1.server.running)) = some (.waiting, false) := by
    decide +kernel
  obtain ⟨⟨w, es⟩, hr, hresult⟩ := Option.map_eq_some_iff.mp hrun
  obtain ⟨hphase, hover⟩ := Prod.mk.inj hresult
  obtain ⟨-, hone, hstays⟩ := one_message_each (fun _ => []) twoNames twoNames_injective
    twoNames_random twoNames_other endingFiles behindEnd w es hr true
  exact ⟨w, es, hr, hone (Or.inl hphase), hstays hover⟩

end Semestr4.FrameOutcomes
