import Semestr4.MessageServer

/-!
# The queue a reply is sent to

Every registration is appended to the table of clients, and the first entry of a
process is taken. A process that has the pid of an earlier one gets its replies
where they were sent to before.
-/

set_option autoImplicit false

namespace Semestr4.ReplyRouting
open Semestr4.ByteText Semestr4.CharArray Semestr4.RequestText Semestr4.MessageServer
open Semestr4.ScheduledRun

variable {printed : Value → Text} {msg : Msgbuf}

def registration (d : Delivery) : Option (ℤ × ℤ) :=
  if d.message.mtype = MsgType.init.code then some (d.message.pid, d.opened) else none

def registrations (ds : List Delivery) : List (ℤ × ℤ) := ds.filterMap registration

def firstQueue (pid : ℤ) (ds : List Delivery) : Option ℤ :=
  ((registrations ds).find? fun r => r.1 = pid).map Prod.snd

def latestQueue (pid : ℤ) (ds : List Delivery) : Option ℤ :=
  ((registrations ds).reverse.find? fun r => r.1 = pid).map Prod.snd

def IsRequest (d : Delivery) : Prop :=
  d.message.mtype = MsgType.mirror.code ∨ d.message.mtype = MsgType.time.code ∨
    d.message.mtype = MsgType.calculate.code

/-- This holds of every request of the history that the server gets to and that is
of a registered process: of what came before it, the request, the queue given by
the most recent registration of its pid, and the messages the server sends. -/
def OfRequests (printed : Value → Text) (msg : Msgbuf) (ds : List Delivery)
    (P : List Delivery → Delivery → ℤ → List (ℤ × Msgbuf) → Prop) : Prop :=
  ∀ before d after s es t fs queue, ds = before++d::after →
    run (receive printed) before (start msg) = some (s, es) →
    receive printed s d = some (t, fs) → IsRequest d →
    latestQueue d.message.pid before = some queue → P before d queue fs

/-- Every reply is sent to the queue given by the most recent registration. -/
def RoutedRight (printed : Value → Text) (msg : Msgbuf) (ds : List Delivery) : Prop :=
  OfRequests printed msg ds fun _ _ queue fs => fs.map Prod.fst = [queue]

def FirstIsLatest (printed : Value → Text) (msg : Msgbuf) (ds : List Delivery) : Prop :=
  OfRequests printed msg ds fun before d queue _ => firstQueue d.message.pid before = some queue

theorem registration_none {d : Delivery} (h : d.message.mtype ≠ MsgType.init.code) :
    registration d = none := if_neg h

theorem IsRequest.not_init {d : Delivery} (h : IsRequest d) :
    d.message.mtype ≠ MsgType.init.code := by
  rcases h with h | h | h <;> rw [h] <;> decide

theorem receive_cases {s t : Server} {d : Delivery} {fs : List (ℤ × Msgbuf)}
    (h : receive printed s d = some (t, fs)) :
    (registration d = some (d.message.pid, d.opened) ∧
      t.clients = s.clients++[⟨d.message.pid, s.clients.length+1, d.opened⟩]) ∨
    (registration d = none ∧ t.clients = s.clients ∧
      (fs.map Prod.fst = [getQueue d.message.pid s.clients] ∨
        d.message.mtype = MsgType.stop.code)) := by
  have hmtype : (received s.msg d.message).mtype = d.message.mtype := rfl
  have hanswer : ∀ {mtext : Chars maxMsgLength} {text : Text},
      answer s (received s.msg d.message) mtext text = (t, fs) →
      t.clients = s.clients ∧ fs.map Prod.fst = [getQueue d.message.pid s.clients] := by
    intro mtext text heq
    cases heq
    exact ⟨rfl, rfl⟩
  simp only [receive, hmtype] at h
  cases htype : msgType d.message.mtype with
  | none =>
    rw [htype] at h
    cases h
  | some type =>
    have hcode := msgType_some htype
    rw [htype] at h
    cases type with
    | init =>
      cases h
      exact Or.inl ⟨if_pos hcode, rfl⟩
    | stop =>
      cases h
      exact Or.inr ⟨registration_none (by rw [hcode]; decide), rfl, Or.inr hcode⟩
    | time =>
      obtain ⟨hclients, hqueue⟩ := hanswer (Option.some.inj h)
      exact Or.inr ⟨registration_none (by rw [hcode]; decide), hclients, Or.inl hqueue⟩
    | mirror =>
      obtain ⟨text, -, htext⟩ := Option.map_eq_some_iff.mp h
      obtain ⟨hclients, hqueue⟩ := hanswer htext
      exact Or.inr ⟨registration_none (by rw [hcode]; decide), hclients, Or.inl hqueue⟩
    | calculate =>
      obtain ⟨text, -, hresult⟩ := Option.bind_eq_some_iff.mp h
      obtain ⟨result, -, htext⟩ := Option.map_eq_some_iff.mp hresult
      obtain ⟨hclients, hqueue⟩ := hanswer htext
      exact Or.inr ⟨registration_none (by rw [hcode]; decide), hclients, Or.inl hqueue⟩

def table (s : Server) : List (ℤ × ℤ) := s.clients.map fun c => (c.pid, c.queue)

theorem receive_table {s t : Server} {d : Delivery} {fs : List (ℤ × Msgbuf)}
    (h : receive printed s d = some (t, fs)) : table t = table s++(registration d).toList := by
  rcases receive_cases h with ⟨hreg, hclients⟩ | ⟨hreg, hclients, -⟩
  · rw [table, hclients, hreg, List.map_append]
    rfl
  · rw [table, hclients, hreg, Option.toList_none, List.append_nil]
    rfl

theorem run_table {ds : List Delivery} {s : Server} {es : List (ℤ × Msgbuf)}
    (h : run (receive printed) ds (start msg) = some (s, es)) : table s = registrations ds := by
  induction ds using List.reverseRecOn generalizing s es with
  | nil =>
    cases h
    rfl
  | append_singleton ds d ih =>
    obtain ⟨t, fs, gs, hrun, hstep, -⟩ := run_snoc.mp h
    rw [receive_table hstep, ih hrun, registrations, registrations, List.filterMap_append]
    cases hreg : registration d <;> simp [hreg]

theorem getQueue_table {s : Server} {ds : List Delivery} (h : table s = registrations ds)
    (pid : ℤ) : getQueue pid s.clients = (firstQueue pid ds).getD (-1) := by
  rw [firstQueue, ← h, table, List.find?_map, Option.map_map, getQueue]
  change _ = (Option.map _ (s.clients.find? fun c => c.pid = pid)).getD (-1)
  cases s.clients.find? fun c => c.pid = pid <;> rfl

theorem latestQueue_first {pid queue : ℤ} {ds : List Delivery}
    (h : latestQueue pid ds = some queue) : ∃ first, firstQueue pid ds = some first := by
  obtain ⟨r, hr, -⟩ := Option.map_eq_some_iff.mp h
  have hmem : r ∈ registrations ds := List.mem_reverse.mp (List.mem_of_find?_eq_some hr)
  have hsome : ((registrations ds).find? fun r => r.1 = pid).isSome :=
    List.find?_isSome.mpr ⟨r, hmem, by simpa using List.find?_some hr⟩
  obtain ⟨found, hfound⟩ := Option.isSome_iff_exists.mp hsome
  exact ⟨found.2, by rw [firstQueue, hfound]; rfl⟩

/-- After any history the reply to a request goes to the queue of the first
registration of its pid. -/
theorem reply_first {before : List Delivery} {d : Delivery} {s t : Server}
    {es fs : List (ℤ × Msgbuf)} (hrun : run (receive printed) before (start msg) = some (s, es))
    (hstep : receive printed s d = some (t, fs)) (hrequest : IsRequest d) :
    fs.map Prod.fst = [(firstQueue d.message.pid before).getD (-1)] := by
  rw [← getQueue_table (run_table hrun)]
  rcases receive_cases hstep with ⟨hreg, -⟩ | ⟨-, -, hqueue | hstop⟩
  · rw [registration_none hrequest.not_init] at hreg
    cases hreg
  · exact hqueue
  · rcases hrequest with h | h | h <;> exact absurd (h.symm.trans hstop) (by decide)

/-- The replies are sent to the queues given last in exactly those histories in
which at every request the first registration of its pid gave the same queue. -/
theorem routedRight_iff (printed : Value → Text) (msg : Msgbuf) (ds : List Delivery) :
    RoutedRight printed msg ds ↔ FirstIsLatest printed msg ds := by
  constructor
  · intro h before d after s es t fs queue hds hrun hstep hrequest hlatest
    obtain ⟨first, hfirst⟩ := latestQueue_first hlatest
    have hright : fs.map Prod.fst = [queue] :=
      h before d after s es t fs queue hds hrun hstep hrequest hlatest
    rw [reply_first hrun hstep hrequest, hfirst] at hright
    rw [hfirst, ← List.singleton_inj.mp hright]
    rfl
  · intro h before d after s es t fs queue hds hrun hstep hrequest hlatest
    have hfirst : firstQueue d.message.pid before = some queue :=
      h before d after s es t fs queue hds hrun hstep hrequest hlatest
    change fs.map Prod.fst = [queue]
    rw [reply_first hrun hstep hrequest, hfirst]
    rfl

def reusedPid (mtext : Chars maxMsgLength) : List Delivery :=
  [⟨⟨MsgType.init.code, 7, 0, mtext⟩, 1, []⟩] ++
    [⟨⟨MsgType.init.code, 7, 0, mtext⟩, 2, []⟩] ++
    [⟨⟨MsgType.time.code, 7, 0, mtext⟩, -1, []⟩]

/-- The second process gets its reply in the queue of the first. -/
theorem earlier_queue_taken : ¬ ∀ (printed : Value → Text) (msg : Msgbuf) (ds : List Delivery),
    RoutedRight printed msg ds := by
  intro h
  have hright := h (fun _ => []) ⟨0, 0, 0, zeros maxMsgLength⟩
    (reusedPid (zeros maxMsgLength)) _ _ [] _ _ _ _ 2 rfl rfl rfl (Or.inr (Or.inl rfl)) rfl
  exact absurd hright (by decide)

end Semestr4.ReplyRouting
