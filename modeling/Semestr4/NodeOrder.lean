import Mathlib.Data.List.GetD
import Semestr4.ClusterCalculation
import Semestr4.NodeNumbers

/-!
# Steps that lead to wrong numbers

After a registration against the order, or a piece that a node takes for a request
and that is none, the processes can go on until a wrong number is printed. A piece
that the server takes for a result and that is none is printed with a wrong number.
-/

set_option autoImplicit false

namespace Semestr4.NodeOrder
open Semestr4.ByteText Semestr4.ClusterRegistry Semestr4.ScheduledRun Semestr4.NodeNumbers
open Semestr4.ClusterServer hiding run step ping Event
open Semestr4.ClusterClient hiding run receive

theorem occupy_length (clients : List Node) (node : Node) :
    (occupy clients node).length = clients.length := by
  unfold occupy
  split
  · rfl
  · exact List.length_set

theorem monitor_length (s : Server) (clientFD : ℤ) (readBuff : Text) :
    (monitor s clientFD readBuff).clients.length = s.clients.length := by
  unfold monitor register
  split
  · split
    · rfl
    · exact occupy_length ..
  · rfl

theorem ping_length (s : Server) (i : ℕ) (failed : Bool) :
    (ClusterServer.ping s i failed).clients.length = s.clients.length := by
  unfold ClusterServer.ping
  split
  · rfl
  · split
    · exact List.length_set
    · rfl

theorem step_length {s t : State} {choice : Choice} {fs : List Event}
    (hs : step s choice = some (t, fs)) : t.server.clients.length = s.server.clients.length := by
  cases choice with
  | connect clientFD readBuff rest recvBuff =>
    obtain ⟨-, hnext⟩ := Option.ite_none_right_eq_some.mp hs
    obtain rfl := congrArg Prod.fst (Option.some_inj.mp hnext)
    rw [connect]
    split <;> exact monitor_length ..
  | ping i failed =>
    obtain ⟨-, hnext⟩ := Option.ite_none_right_eq_some.mp hs
    obtain rfl := congrArg Prod.fst (Option.some_inj.mp hnext)
    unfold ping
    dsimp only
    split
    · exact ping_length ..
    · split <;> exact ping_length ..
  | calcRequest request =>
    obtain ⟨-, hnext⟩ := Option.ite_none_left_eq_some.mp hs
    obtain rfl := congrArg Prod.fst (Option.some_inj.mp hnext)
    rfl
  | receive fd k =>
    obtain ⟨c, -, hreceived⟩ := Option.bind_eq_some_iff.mp hs
    obtain ⟨next, -, hlast⟩ := Option.bind_eq_some_iff.mp hreceived
    obtain rfl := congrArg Prod.fst (Option.some_inj.mp hlast)
    rfl
  | result fd k =>
    obtain ⟨c, -, hread⟩ := Option.bind_eq_some_iff.mp hs
    obtain ⟨next, -, hlast⟩ := Option.bind_eq_some_iff.mp hread
    obtain rfl := congrArg Prod.fst (Option.some_inj.mp hlast)
    rfl

theorem clients_length {opened : Finset ℤ} {as : List Choice} {s : State} {es : List Event}
    (hr : run step as (initial opened) = some (s, es)) :
    s.server.clients.length = clusterSize :=
  run_induction step (initial opened) (fun _ s => s.server.clients.length = clusterSize)
    List.length_replicate (fun _ _ _ _ _ hlength hs => (step_length hs).trans hlength) as s es hr

section
variable {s : State} {fd : ℤ} {c next : Connection} {k : ℕ}

theorem step_receive (hc : s.connections fd = some c) (hnext : receive c k = some next) :
    step s (.receive fd k) = some (s.update fd (some next), []) := by
  change (s.connections fd).bind _ = _
  rw [hc, Option.bind_some, hnext]
  rfl

theorem step_result {events : List Event} (hc : s.connections fd = some c)
    (hnext : result c k = some (next, events)) :
    step s (.result fd k) = some (s.update fd (some next), events) := by
  change (s.connections fd).bind _ = _
  rw [hc, Option.bind_some, hnext]
  rfl

theorem step_calcRequest {request : Request} (hfd : fd ≠ -1)
    (hslot : fdAt s.server.clients request.target = fd) (hc : s.connections fd = some c) :
    step s (.calcRequest request) =
      some (s.update fd (some { c with sent := c.sent++[.calcMsg request] }), []) := by
  change (if fdAt s.server.clients request.target = -1 then none
    else some (State.send s (fdAt s.server.clients request.target) _, [])) = _
  rw [hslot, if_neg hfd, State.send, hc]
  rfl

theorem read_on (n : ℕ) (hc : s.connections fd = some c) (h : c.read+n ≤ c.outgoing.length) :
    ∃ as t es, run step as s = some (t, es) ∧
      t.connections fd = some { c with read := c.read+n } := by
  induction n generalizing s c with
  | zero => exact ⟨[], s, [], rfl, hc⟩
  | succ n ih =>
    have hone : ∃ events, result c 1 = some ({ c with read := c.read+1 }, events) :=
      ⟨_, if_pos ⟨by decide, by decide, by omega⟩⟩
    obtain ⟨events, hone⟩ := hone
    obtain ⟨as, t, es, hr, ht⟩ := ih (c := { c with read := c.read+1 })
      (update_self s fd (some { c with read := c.read+1 })) (by
        change c.read+1+n ≤ c.outgoing.length
        omega)
    refine ⟨.result fd 1::as, t, events++es,
      run_cons.mpr ⟨_, _, _, step_result hc hone, hr, rfl⟩, ?_⟩
    rw [ht, Nat.add_right_comm, Nat.add_assoc]

theorem print_last {before : List Text} {last : Text} (hc : s.connections fd = some c)
    (hwritten : c.client.written = before++[last]) (hlast : last.length = 128)
    (hthree : last.head? = some 51)
    (hread : c.read ≤ (c.rest++before.flatten).length) :
    ∃ as t es, run step as s = some (t, es) ∧ Event.result (nodeOf last) c.num ∈ es := by
  have houtgoing : c.outgoing = (c.rest++before.flatten)++last := by
    rw [Connection.outgoing, hwritten, List.flatten_append, List.flatten_singleton,
      List.append_assoc]
  have hlength : c.outgoing.length = (c.rest++before.flatten).length+128 := by
    rw [houtgoing, List.length_append, hlast]
  obtain ⟨n, hn⟩ := Nat.exists_eq_add_of_le hread
  obtain ⟨as, t, es, hr, ht⟩ := read_on n hc (by omega)
  rw [← hn] at ht
  let reading : Connection := { c with read := (c.rest++before.flatten).length }
  have hbuff : reading.readBuff 128 = last := by
    change ((c.outgoing.drop (c.rest++before.flatten).length).take 128++_).take 128 = last
    rw [houtgoing, List.drop_left, List.take_of_length_le hlast.le, ← hlast, List.take_left]
  have hprint : ∃ next, result reading 128 = some (next, [.result (nodeOf last) c.num]) := by
    refine ⟨{ reading with read := reading.read+128 }, ?_⟩
    rw [result, if_pos ⟨by decide, le_refl _, hlength.ge⟩, hbuff, if_pos hthree]
  obtain ⟨next, hprint⟩ := hprint
  exact ⟨as++[.result fd 128], _, es++[.result (nodeOf last) c.num],
    run_snoc.mpr ⟨t, es, _, hr, step_result ht hprint, rfl⟩, by simp⟩

end

theorem sum_received (c : Client) (p : Fin clusterSize) : ∃ client,
    ClusterClient.receive c (sum p).msg = some client ∧
      client.written = c.written++[answer p 2] := by
  have hcalculated : (calculate (sum p).text).map Prod.fst = some 2 := by
    change (calculate [49, 32, 43, 32, 49, 10]).map Prod.fst = some 2
    decide +kernel
  obtain ⟨⟨z, left⟩, hcalculate, rfl⟩ := Option.map_eq_some_iff.mp hcalculated
  obtain ⟨rest, hrecv⟩ : ∃ rest, recv c.recvBuff (sum p).msg =
      51::UInt8.ofNat (p+1)::((sum p).text++0::rest) := by
    refine ⟨List.replicate (127-(sum p).text.length) 0++c.recvBuff.drop (sum p).msg.length, ?_⟩
    conv_lhs => rw [recv, msg_eq]
    simp only [List.cons_append, List.append_assoc]
    rw [msg_length]
    rfl
  have hstring : cstring ((sum p).text++0::rest) = (sum p).text := by
    rw [cstring_append (sum p).nonzero]
    exact List.append_nil _
  rw [ClusterClient.receive, hrecv, List.head?_cons, if_pos rfl]
  simp only [List.drop_succ_cons, List.drop_zero, hstring, hcalculate]
  exact ⟨_, rfl, rfl⟩

theorem sum_printed {t : State} {fd : ℤ} {p : Fin clusterSize} {num : ℕ} {rest recvBuff : Text}
    (hfd : fd ≠ -1) (hslot : fdAt t.server.clients p = fd)
    (hc : t.connections fd = some ⟨num, rest, [], .joining, start recvBuff, 0⟩) :
    ∃ as u es, run step as t = some (u, es) ∧ Event.result p num ∈ es := by
  let up : Connection := ⟨num, rest, [], .joining, start recvBuff, 0⟩
  let joined : Connection := join up (up.chunk 2)
  have hjoined : joined.phase = .joined := rfl
  have hjoin : receive up 2 = some joined := rfl
  let asked : Connection := { joined with sent := [.calcMsg (sum p)] }
  have hincoming : asked.incoming = accepted++(sum p).msg := by
    change accepted++stream [.calcMsg (sum p)] = _
    rw [stream, List.flatMap_singleton]
    rfl
  have hchunk : asked.chunk 130 = (sum p).msg := by
    change (asked.incoming.drop accepted.length).take 130 = _
    rw [hincoming, List.drop_left, List.take_of_length_le (msg_length (sum p)).le]
  have hlength : asked.client.received+130 ≤ asked.incoming.length := by
    rw [hincoming, List.length_append, msg_length]
    exact le_refl _
  obtain ⟨client, hclient, hwritten⟩ := sum_received asked.client p
  let computed : Connection := { asked with client := client }
  have hreceive : receive asked 130 = some computed := by
    rw [receive, if_pos ⟨by decide, by decide, hlength⟩]
    change (ClusterClient.receive asked.client (asked.chunk 130)).map _ = _
    rw [hchunk, hclient]
    rfl
  have hlast : computed.client.written = []++[answer p 2] := hwritten
  obtain ⟨as, u, es, hr, hprinted⟩ := print_last
    (update_self ((t.update fd (some joined)).update fd (some asked)) fd (some computed)) hlast
    (answer_length p 2) (by rw [answer_bytes, List.head?_cons]) (Nat.zero_le _)
  rw [answer_node, show computed.num = num from rfl] at hprinted
  have hsend : step (t.update fd (some joined)) (.calcRequest (sum p)) =
      some ((t.update fd (some joined)).update fd (some asked), []) :=
    step_calcRequest hfd hslot (update_self t fd (some joined))
  exact ⟨_, u, _, run_cons.mpr ⟨_, _, _, step_receive hc hjoin, run_cons.mpr ⟨_, _, _, hsend,
    run_cons.mpr ⟨_, _, _, step_receive (update_self _ fd _) hreceive, hr, rfl⟩, rfl⟩, rfl⟩,
    by simpa using hprinted⟩

/-- A node registered against the order can compute a result that is printed with
another number. -/
theorem order_needed (opened : Finset ℤ) {as : List Choice} {s t : State} {es fs : List Event}
    (hr : run step as (initial opened) = some (s, es)) {clientFD : ℤ}
    {readBuff rest recvBuff : Text}
    (hs : step s (.connect clientFD readBuff rest recvBuff) = some (t, fs))
    (h : ¬InOrder s (.connect clientFD readBuff rest recvBuff)) :
    ∃ bs u gs node num, run step bs t = some (u, gs) ∧ Event.result node num ∈ gs ∧
      node ≠ num := by
  simp only [InOrder, Classical.not_imp, not_forall] at h
  obtain ⟨hasks, hunknown, j, hj, hne⟩ := h
  obtain ⟨hpossible, hnext⟩ := Option.ite_none_right_eq_some.mp hs
  obtain rfl := congrArg Prod.fst (Option.some_inj.mp hnext)
  have hlt : j < clusterSize :=
    (List.findIdx?_eq_some_iff_getElem.mp hj).1.trans_eq (clients_length hr)
  have hclient : (connect s clientFD readBuff rest recvBuff).1 =
      State.update { s with server := monitor s.server clientFD readBuff } clientFD
        (some ⟨s.server.numOfClients, rest, [], .joining, start recvBuff, 0⟩) := by
    rw [connect, if_pos ⟨hasks, accepted_iff.mpr hunknown⟩]
  have hslot : fdAt (connect s clientFD readBuff rest recvBuff).1.server.clients
      (⟨j, hlt⟩ : Fin clusterSize) = clientFD := by
    rw [hclient]
    change fdAt (monitor s.server clientFD readBuff).clients j = clientFD
    rw [monitor, if_pos hasks, register_unknown hunknown, fdAt_occupy,
      if_pos (Option.mem_def.mp hj)]
  have hc : (connect s clientFD readBuff rest recvBuff).1.connections clientFD =
      some ⟨s.server.numOfClients, rest, [], .joining, start recvBuff, 0⟩ := by
    rw [hclient, update_self]
  have hfd : clientFD ≠ -1 := by
    have hnonneg := hpossible.1
    omega
  obtain ⟨bs, u, gs, hu, hprinted⟩ := sum_printed hfd hslot hc
  exact ⟨bs, u, gs, _, _, hu, hprinted, by exact_mod_cast hne⟩

theorem byte_position {b : UInt8} {n : ℕ} (hn : n < clusterSize) (h : b.toInt8.toInt-1 = n) :
    b.toNat = n+1 := by
  have hall : ∀ m < 256, ∀ n < clusterSize,
      (UInt8.ofNat m).toInt8.toInt-1 = (n : ℤ) → m = n+1 := by decide +kernel
  have hb := hall b.toNat b.toNat_lt n hn
  rw [UInt8.ofNat_toNat] at hb
  exact hb h

theorem decimal_byte {z : ℤ} {b : UInt8} (h : b ∈ DecimalText.decimal z) : 45 ≤ b.toNat := by
  have hdigit : ∀ n, ∀ b ∈ DecimalText.digits n, 45 ≤ b.toNat := by
    intro n b hb
    have hrange := DecimalText.digits_isDigit n b hb
    simp only [DecimalText.isDigit, Bool.and_eq_true, decide_eq_true_eq,
      UInt8.le_iff_toNat_le] at hrange
    have h48 : (48 : UInt8).toNat = 48 := rfl
    omega
  rw [DecimalText.decimal] at h
  split at h
  · rcases List.mem_cons.mp h with rfl | h
    · decide
    · exact hdigit _ b h
  · exact hdigit _ b h

theorem reply_length (q : UInt8) (z : ℤ) : (reply q z).length = 128 := by
  rw [reply, List.length_take, List.length_append, List.length_replicate]
  omega

theorem reply_node {q : UInt8} {z : ℤ} {num : ℕ} (hnum : num < clusterSize)
    (hq : q ≠ UInt8.ofNat (num+1)) : nodeOf (reply q z) ≠ num := by
  intro hnode
  have hbyte := byte_position hnum hnode
  have hsize : clusterSize = 20 := rfl
  by_cases hzero : q = 0
  -- the position is missing, and the first character of the result stands in its place
  · subst hzero
    cases hd : DecimalText.decimal z with
    | nil => exact absurd hd (ClusterCalculation.decimal_ne_nil z)
    | cons b text =>
      have hsecond : (reply 0 z).getD 1 0 = b := by
        rw [reply, hd]
        rfl
      have hlow := decimal_byte (z := z) (b := b) (hd ▸ List.mem_cons_self ..)
      rw [hsecond] at hbyte
      omega
  · have hsecond : (reply q z).getD 1 0 = q := by
      have hstring : cstring [q] = [q] := by simp [cstring, hzero]
      rw [reply, hstring]
      rfl
    rw [hsecond] at hbyte
    exact hq (by rw [← hbyte, UInt8.ofNat_toNat])

/-- After a piece that a node takes for a request against the condition, a wrong number
can be printed. -/
theorem request_needed (opened : Finset ℤ) {as : List Choice} {s t : State} {es fs : List Event}
    (hr : run step as (initial opened) = some (s, es))
    (horder : Meets step InOrder (initial opened) as) {fd : ℤ} {k : ℕ}
    (hs : step s (.receive fd k) = some (t, fs)) (h : ¬InOrder s (.receive fd k)) :
    ∃ bs u gs node num, run step bs t = some (u, gs) ∧ Event.result node num ∈ gs ∧
      node ≠ num := by
  simp only [InOrder, ReadsRequest, Classical.not_imp, not_forall, not_or] at h
  obtain ⟨c, hc, hphase, hthree, -, hposition⟩ := h
  have hnumbered := (run_invariant opened hr horder).1.numbered fd c hc
  obtain ⟨d, hd, hreceived⟩ := Option.bind_eq_some_iff.mp hs
  obtain ⟨next, hnext, hlast⟩ := Option.bind_eq_some_iff.mp hreceived
  obtain rfl := congrArg Prod.fst (Option.some_inj.mp hlast)
  obtain rfl : d = c := Option.some_inj.mp (hd.symm.trans hc)
  rw [receive, Option.ite_none_right_eq_some, hphase] at hnext
  obtain ⟨⟨hk, -, hlength⟩, hnext⟩ := hnext
  obtain ⟨client, hclient, rfl⟩ := Option.map_eq_some_iff.mp hnext
  have hnum : d.num < clusterSize := by
    obtain ⟨request, hrequest⟩ := chunk_three hthree
    rw [← hnumbered.sent request hrequest]
    exact request.target.isLt
  have hwritten := receive_written (chunk_ne_nil hk hlength) hclient
  rw [if_pos hthree] at hwritten
  obtain ⟨z, hwritten⟩ := hwritten
  obtain ⟨bs, u, gs, hu, hprinted⟩ := print_last
    (update_self s fd (some { d with phase := .joined, client := client })) hwritten
    (reply_length _ z) rfl hnumbered.read
  exact ⟨bs, u, gs, _, _, hu, hprinted, reply_node hnum hposition⟩

theorem written_byte {texts : List Text} (h : ∀ t ∈ texts, ∃ p z, t = answer p z) (i : ℕ)
    (hi : i % 128 ≠ 1) : texts.flatten.getD i 0 = 0 ∨ 45 ≤ (texts.flatten.getD i 0).toNat := by
  induction texts generalizing i with
  | nil => exact Or.inl rfl
  | cons t texts ih =>
    rw [List.forall_mem_cons] at h
    obtain ⟨⟨p, z, rfl⟩, hrest⟩ := h
    by_cases hfirst : i < 128
    · rw [List.flatten_cons, List.getD_append _ _ _ _ (by rwa [answer_length]), answer_bytes]
      match i with
      | 0 => exact Or.inr (by show 45 ≤ (51 : UInt8).toNat; decide)
      | 1 => exact absurd rfl hi
      | j+2 =>
        rw [List.getD_cons_succ, List.getD_cons_succ]
        rw [List.getD_eq_getElem?_getD]
        cases hbyte : ((DecimalText.decimal z++List.replicate 128 0).take 126)[j]? with
        | none => exact Or.inl rfl
        | some b =>
          rcases List.mem_append.mp (List.mem_of_mem_take (List.mem_of_getElem? hbyte)) with
            hdecimal | hzero
          · exact Or.inr (decimal_byte hdecimal)
          · exact Or.inl (List.eq_of_mem_replicate hzero)
    · rw [List.flatten_cons, List.getD_append_right _ _ _ _ (by rw [answer_length]; omega),
        answer_length]
      exact ih hrest (i-128) (by omega)

/-- A piece that the server takes for a result against the condition, past what is left
of the registration, is printed with a wrong number. -/
theorem result_needed (opened : Finset ℤ) {as : List Choice} {s t : State} {es fs : List Event}
    (hr : run step as (initial opened) = some (s, es))
    (horder : Meets step InOrder (initial opened) as) {fd : ℤ} {k : ℕ}
    (hs : step s (.result fd k) = some (t, fs)) (h : ¬InOrder s (.result fd k))
    (hrest : ∀ c ∈ s.connections fd, c.rest.length ≤ c.read) :
    ∃ node num, fs = [.result node num] ∧ node ≠ num := by
  simp only [InOrder, ReadsResult, Classical.not_imp, not_forall] at h
  obtain ⟨c, hc, hthree, hcondition⟩ := h
  have hnumbered := (run_invariant opened hr horder).1.numbered fd c hc
  obtain ⟨d, hd, hread⟩ := Option.bind_eq_some_iff.mp hs
  obtain ⟨⟨next, events⟩, hnext, hlast⟩ := Option.bind_eq_some_iff.mp hread
  obtain ⟨rfl, rfl⟩ := Prod.mk.inj (Option.some_inj.mp hlast)
  obtain rfl : d = c := Option.some_inj.mp (hd.symm.trans hc)
  rw [result, Option.ite_none_right_eq_some, if_pos hthree] at hnext
  obtain ⟨⟨hk, -, hlength⟩, hnext⟩ := hnext
  obtain ⟨-, rfl⟩ := Prod.mk.inj (Option.some_inj.mp hnext)
  refine ⟨_, _, rfl, fun hnode => ?_⟩
  have hdrop : d.outgoing.drop d.read = d.client.written.flatten.drop (d.read-d.rest.length) := by
    rw [Connection.outgoing, List.drop_append, List.drop_of_length_le (hrest d hd), List.nil_append]
  have hne : d.outgoing.drop d.read ≠ [] := by
    apply List.ne_nil_of_length_pos
    rw [List.length_drop]
    omega
  have hnum : d.num < clusterSize := by
    cases hwritten : d.client.written with
    | nil =>
      rw [hdrop, hwritten] at hne
      exact absurd List.drop_nil hne
    | cons t texts =>
      obtain ⟨p, z, -, hp⟩ := hnumbered.written t (hwritten ▸ List.mem_cons_self ..)
      rw [← hp]
      exact p.isLt
  have hbyte := byte_position hnum hnode
  have hsize : clusterSize = 20 := rfl
  have hsecond : (d.readBuff k).getD 1 0 =
      if 2 ≤ k then (d.outgoing.drop d.read).getD 1 0 else 0 := by
    rw [Connection.readBuff]
    cases hbytes : d.outgoing.drop d.read with
    | nil => exact absurd hbytes hne
    | cons b more =>
      obtain rfl | ⟨j, rfl⟩ : k = 1 ∨ ∃ j, k = j+2 :=
        (Nat.eq_or_lt_of_le hk).imp Eq.symm fun hk => ⟨k-2, by omega⟩
      · rfl
      · rw [if_pos (by omega)]
        cases more <;> rfl
  rw [hsecond] at hbyte
  split at hbyte
  · rename_i hlong
    have hother := written_byte (fun t ht => (hnumbered.written t ht).imp fun p hp =>
      hp.imp fun z hz => hz.1) (d.read-d.rest.length+1) (by
        have hrest' := hrest d hd
        have hnot : ¬128 ∣ d.read-d.rest.length := fun hdvd => hcondition ⟨hlong, hrest', hdvd⟩
        omega)
    rw [hdrop, List.getD_eq_getElem?_getD, List.getElem?_drop,
      ← List.getD_eq_getElem?_getD] at hbyte
    rcases hother with hzero | hlow
    · rw [hzero] at hbyte
      exact absurd hbyte (Nat.succ_ne_zero _).symm
    · omega
  · exact absurd hbyte (Nat.succ_ne_zero _).symm

end Semestr4.NodeOrder
