import Semestr4.ClusterCalculation
import Semestr4.DatagramCluster

/-!
# The table of the datagram cluster

Slots are taken in the order of the registrations and never freed, so that the slot
of a node is its number. A node that comes up when the table is full is told that it
is registered, and has no slot.
-/

set_option autoImplicit false

namespace Semestr4.DatagramTable
open Semestr4.ByteText Semestr4.DecimalText Semestr4.CharArray Semestr4.ScheduledRun
open Semestr4.ClusterServer (clusterSize accepted refused)
open Semestr4.ClusterClient (calculate recv reply)
open Semestr4.NodeNumbers (nodeOf)
open Semestr4.DatagramCluster

variable {ι : Type*} {names : ι → Text} {w w' : World ι} {es fs : List (Event ι)}

def ups (es : List (Event ι)) : List (ℕ × ι) :=
  es.filterMap fun | .up num t => some (num, t) | _ => none

def answer (line : Text) : Option Text := (calculate line).map fun result => decimal result.1

def slots (names : ι → Text) (nodes : List (ℕ × ι)) : List (Node ι) :=
  (nodes.take clusterSize).map (fun u => ⟨cstring (names u.2), some u.2, u.1⟩)++
    List.replicate (clusterSize-nodes.length) free

def Fine (names : ι → Text) (es : List (Event ι)) : Message ι → Prop
  | .toServer t bytes => bytes = 49::cstring (names t) ∧ bytes.length < 128 ∨
      ∃ (p : Fin clusterSize) (z : ℤ), .up p t ∈ es ∧ bytes = NodeNumbers.answer p z
  | .toClient t bytes => bytes = accepted ∨ bytes = refused ∨
      ∃ (p : Fin clusterSize) (line : Text) (msg : Chars 130), .up p t ∈ es ∧
        request p line = some msg ∧ bytes = msg.bytes

structure Sound (names : ι → Text) (es : List (Event ι)) (w : World ι) : Prop where
  nodes : ∀ t, (w.nodes t).name = names t
  table : w.clients = slots names (ups es)
  counted : w.numOfClients = (ups es).length
  numbered : (ups es).map Prod.fst = List.range (ups es).length
  distinct : (((ups es).take clusterSize).map fun u => cstring (names u.2)).Nodup
  soup : ∀ m ∈ w.soup, Fine names es m
  results : ∀ t text (k : ℤ), .result t text k ∈ es →
    ∃ p : Fin clusterSize, .up p t ∈ es ∧ k = p

theorem ups_append (es fs : List (Event ι)) : ups (es++fs) = ups es++ups fs :=
  List.filterMap_append

theorem mem_ups {num : ℕ} {t : ι} : (num, t) ∈ ups es ↔ .up num t ∈ es := by
  rw [ups, List.mem_filterMap]
  constructor
  · rintro ⟨e, he, heq⟩
    cases e with
    | up num' t' =>
      cases heq
      exact he
    | asked t' line => cases heq
    | result t' text k => cases heq
  · exact fun he => ⟨_, he, rfl⟩

theorem Fine.mono {m : Message ι} (h : Fine names es m)
    (fs : List (Event ι)) : Fine names (es++fs) m := by
  cases m with
  | toServer t bytes =>
    refine h.imp_right ?_
    rintro ⟨p, z, hup, hbytes⟩
    exact ⟨p, z, List.mem_append_left _ hup, hbytes⟩
  | toClient t bytes =>
    refine h.imp_right (Or.imp_right ?_)
    rintro ⟨p, line, msg, hup, hmsg⟩
    exact ⟨p, line, msg, List.mem_append_left _ hup, hmsg⟩

theorem Sound.same (h : Sound names es w) (hups : ups fs = [])
    (htable : w'.clients = w.clients) (hcount : w'.numOfClients = w.numOfClients)
    (hnodes : ∀ t, (w'.nodes t).name = (w.nodes t).name)
    (hsoup : ∀ m ∈ w'.soup, m ∈ w.soup ∨ Fine names (es++fs) m)
    (hresults : ∀ t text (k : ℤ), .result t text k ∈ fs →
      ∃ p : Fin clusterSize, .up p t ∈ es ∧ k = p) : Sound names (es++fs) w' := by
  have hsame : ups (es++fs) = ups es := by rw [ups_append, hups, List.append_nil]
  refine ⟨fun t => (hnodes t).trans (h.nodes t), ?_, ?_, ?_, ?_, ?_, ?_⟩
  · rw [htable, hsame, h.table]
  · rw [hcount, hsame, h.counted]
  · rw [hsame, h.numbered]
  · rw [hsame]
    exact h.distinct
  · intro m hm
    rcases hsoup m hm with hold | hnew
    · exact (h.soup m hold).mono fs
    · exact hnew
  · intro t text k hmem
    obtain ⟨p, hup, hk⟩ : ∃ p : Fin clusterSize, .up p t ∈ es ∧ k = p := by
      rcases List.mem_append.mp hmem with hold | hnew
      · exact h.results t text k hold
      · exact hresults t text k hnew
    exact ⟨p, List.mem_append_left _ hup, hk⟩

theorem mem_post {m m' : Message ι} (h : m' ∈ (w.post m).soup) : m' = m ∨ m' ∈ w.soup :=
  Multiset.mem_cons.mp h

theorem sound_start (names buffers : ι → Text) : Sound names [] (main names buffers) where
  nodes _ := rfl
  table := rfl
  counted := rfl
  numbered := rfl
  distinct := List.nodup_nil
  soup m hm := absurd hm (Multiset.notMem_zero m)
  results _ _ _ hmem := by cases hmem

theorem slots_num {nodes : List (ℕ × ι)} {p : ℕ} {node : Node ι}
    (h : (slots names nodes)[p]? = some node) (hused : node.num ≠ -1) :
    p < clusterSize ∧ ∃ u, nodes[p]? = some u ∧ node = ⟨cstring (names u.2), some u.2, u.1⟩ := by
  by_cases hp : p < ((nodes.take clusterSize).map
      fun u => (⟨cstring (names u.2), some u.2, u.1⟩ : Node ι)).length
  · rw [slots, List.getElem?_append_left hp, List.getElem?_map, Option.map_eq_some_iff] at h
    obtain ⟨u, hu, rfl⟩ := h
    rw [List.length_map, List.length_take] at hp
    rw [List.getElem?_take_of_lt (by omega)] at hu
    exact ⟨by omega, u, hu, rfl⟩
  · rw [slots, List.getElem?_append_right (Nat.not_lt.mp hp)] at h
    have hfree := List.eq_of_mem_replicate (List.mem_of_getElem? h)
    exact absurd (hfree ▸ rfl) hused

theorem slots_names (names : ι → Text) (nodes : List (ℕ × ι)) {u : ℕ × ι}
    (h : u ∈ nodes.take clusterSize) :
    ∃ node ∈ slots names nodes, node.name = cstring (names u.2) :=
  ⟨_, List.mem_append_left _ (List.mem_map_of_mem h), rfl⟩

def Full (clients : List (Node ι)) : Prop := ∀ node ∈ clients, ¬ node.num = -1

theorem occupy_full {clients : List (Node ι)} (h : Full clients) (node : Node ι) :
    occupy clients node = clients := by
  have hnone : clients.findIdx? (·.num = -1) = none := by
    rw [List.findIdx?_eq_none_iff]
    exact fun slot hslot => decide_eq_false (h slot hslot)
  rw [occupy, hnone]

theorem occupy_free {clients : List (Node ι)} (h : Full clients) (node : Node ι)
    (rest : List (Node ι)) : occupy (clients++free::rest) node = clients++node::rest := by
  have hnone : clients.findIdx? (·.num = -1) = none := by
    rw [List.findIdx?_eq_none_iff]
    exact fun slot hslot => decide_eq_false (h slot hslot)
  have hsome : (clients++free::rest).findIdx? (·.num = -1) = some clients.length := by
    rw [List.findIdx?_append, hnone]
    simp [free, List.findIdx?_cons]
  rw [occupy, hsome]
  simp

theorem used_full (names : ι → Text) (nodes : List (ℕ × ι)) :
    Full (nodes.map fun u => ⟨cstring (names u.2), some u.2, u.1⟩) := by
  intro node hnode
  obtain ⟨u, -, rfl⟩ := List.mem_map.mp hnode
  exact fun heq => absurd (heq ▸ Int.natCast_nonneg u.1 : (0 : ℤ) ≤ -1) (by decide)

theorem occupy_slots (names : ι → Text) (nodes : List (ℕ × ι)) (t : ι) :
    occupy (slots names nodes) ⟨cstring (names t), some t, nodes.length⟩ =
      slots names (nodes++[(nodes.length, t)]) := by
  by_cases hroom : nodes.length < clusterSize
  · obtain ⟨k, hk⟩ : ∃ k, clusterSize = nodes.length+(k+1) := ⟨clusterSize-nodes.length-1, by omega⟩
    have hrest : clusterSize-nodes.length = k+1 := by omega
    have hrest' : clusterSize-(nodes++[(nodes.length, t)]).length = k := by
      rw [List.length_append, List.length_singleton]
      omega
    rw [slots, slots, hrest, hrest', List.take_of_length_le (by omega),
      List.take_of_length_le (by rw [List.length_append, List.length_singleton]; omega),
      List.replicate_succ, occupy_free (used_full names nodes), List.map_append, List.append_assoc]
    rfl
  · have hrest : clusterSize-nodes.length = 0 := by omega
    have hrest' : clusterSize-(nodes++[(nodes.length, t)]).length = 0 := by
      rw [List.length_append, List.length_singleton]
      omega
    rw [slots, slots, hrest, hrest', List.replicate_zero, List.append_nil, List.append_nil,
      List.take_append_of_le_length (by omega)]
    exact occupy_full (used_full names _) _

theorem request_bytes {p : Fin clusterSize} {line : Text} {msg : Chars 130}
    (h : request p line = some msg) :
    ∃ rest, msg.bytes = 51::UInt8.ofNat (p+1)::store (cstring line) rest := by
  rw [request, ClusterClient.position_string, Chars.strcpy] at h
  split at h
  · cases h
    refine ⟨(List.replicate 130 0).drop 2, ?_⟩
    change store (51::UInt8.ofNat (p+1)::cstring line) (List.replicate 130 0) = _
    rw [store, store, List.drop_drop, Nat.add_comm 2]
    rfl
  · cases h

theorem request_text {p : Fin clusterSize} {line : Text} {msg : Chars 130}
    (h : request p line = some msg) {e : Text}
    (he : terminated ((msg.bytes.take 128).drop 2) = some e) : e = cstring line := by
  have hzero : 0 ∉ cstring line := zero_cstring line
  obtain ⟨rest, hbytes⟩ := request_bytes h
  rw [hbytes, List.drop_take, List.drop_succ_cons, List.drop_succ_cons, List.drop_zero] at he
  by_cases hshort : (cstring line).length < 126
  · obtain ⟨tail, htail⟩ := take_store_longer hshort rest
    rw [htail, terminated_ended hzero, Option.some_inj] at he
    exact he.symm
  · rw [take_store_shorter (Nat.not_lt.mp hshort), terminated,
      if_neg (fun hmem => hzero (List.mem_of_mem_take hmem))] at he
    cases he

theorem answer_readBuff (p : Fin clusterSize) (z : ℤ) :
    readBuff (NodeNumbers.answer p z) = NodeNumbers.answer p z := by
  have hlength := NodeNumbers.answer_length p z
  rw [readBuff, ← hlength, List.take_left]

theorem answer_text (p : Fin clusterSize) {z : ℤ} (hz : (decimal z).length < 10) :
    terminated ((readBuff (NodeNumbers.answer p z)).drop 2) = some (decimal z) := by
  obtain ⟨k, hk⟩ : ∃ k, 126-(decimal z).length = k+1 := ⟨125-(decimal z).length, by omega⟩
  rw [answer_readBuff, NodeNumbers.answer_bytes, List.drop_succ_cons, List.drop_succ_cons,
    List.drop_zero, List.take_append, List.take_of_length_le (by omega), hk, List.take_replicate,
    Nat.min_eq_left (by omega), List.replicate_succ]
  exact terminated_ended (ClusterCalculation.decimal_not_mem (by decide) (by decide) z) _

theorem round_written {c c' : Client} {buffer msg : Text}
    (h : round c buffer = some (c', some msg)) :
    (buffer.head? = some 51 ∧ ∃ e z, terminated (buffer.drop 2) = some e ∧
      answer e = some (decimal z) ∧ (decimal z).length < 10 ∧
      msg = reply (buffer.getD 1 0) z) ∨ buffer.head? = some 50 := by
  rw [DatagramCluster.round] at h
  split at h
  · rename_i hhead
    obtain ⟨e, he, hrest⟩ := Option.bind_eq_some_iff.mp h
    obtain ⟨⟨z, left⟩, hz, hfits⟩ := Option.bind_eq_some_iff.mp hrest
    obtain ⟨result, hresult, heq⟩ := Option.map_eq_some_iff.mp hfits
    cases heq
    refine Or.inl ⟨hhead, e, z, he, by rw [answer, hz, Option.map_some], ?_, rfl⟩
    by_contra hlong
    rw [Chars.strcpy, dif_neg hlong] at hresult
    cases hresult
  · split at h
    · rename_i hhead
      exact Or.inr hhead
    · split at h <;> cases h

theorem round_kept {c c' : Client} {buffer : Text} {msg : Option Text}
    (h : round c buffer = some (c', msg)) : c'.name = c.name ∧ c'.phase = c.phase := by
  rw [DatagramCluster.round] at h
  split at h
  · obtain ⟨e, -, hrest⟩ := Option.bind_eq_some_iff.mp h
    obtain ⟨⟨z, left⟩, -, hfits⟩ := Option.bind_eq_some_iff.mp hrest
    obtain ⟨result, -, heq⟩ := Option.map_eq_some_iff.mp hfits
    cases heq
    exact ⟨rfl, rfl⟩
  · split at h
    · cases h
      exact ⟨rfl, rfl⟩
    · split at h
      · cases h
      · cases h
        exact ⟨rfl, rfl⟩

theorem received_cons (c : Client) (b : UInt8) (rest : Text) :
    (received c (b::rest)).head? = some b := rfl

theorem received_long (c : Client) {bytes : Text} (h : 128 ≤ bytes.length) :
    received c bytes = bytes.take 128 := by
  have hlength : (bytes.take 128).length = 128 := by rw [List.length_take]; omega
  rw [received, recv, List.take_append_of_le_length hlength.ge, List.take_take, Nat.min_self]

theorem registration_text {name read2 : Text} (hshort : (49::cstring name).length < 128)
    (h : terminated (readBuff (49::cstring name)) = some read2) : read2.tail = cstring name := by
  have hzero : (0 : UInt8) ∉ 49::cstring name := by
    rw [List.mem_cons, not_or]
    exact ⟨by decide, zero_cstring name⟩
  obtain ⟨k, hk⟩ : ∃ k, 128-(49::cstring name).length = k+1 :=
    ⟨127-(49::cstring name).length, by omega⟩
  rw [readBuff, List.take_append, List.take_of_length_le hshort.le, hk, List.take_replicate,
    Nat.min_eq_left (by omega), List.replicate_succ, terminated_ended hzero, Option.some_inj] at h
  rw [← h, List.tail_cons]

theorem written_answer {t : ι} {bytes msg : Text} {c c' : Client} (hsound : Sound names es w)
    (hmem : .toClient t bytes ∈ w.soup) (h : round c (received c bytes) = some (c', some msg)) :
    ∃ (p : Fin clusterSize) (line : Text) (frame : Chars 130) (e : Text) (z : ℤ), .up p t ∈ es ∧
      request p line = some frame ∧ bytes = frame.bytes ∧
      terminated ((frame.bytes.take 128).drop 2) = some e ∧ answer e = some (decimal z) ∧
      (decimal z).length < 10 ∧ msg = NodeNumbers.answer p z := by
  have hother : bytes = accepted ∨ bytes = refused → False := by
    intro heq
    have hhead : (received c bytes).head? = some 49 := by
      rcases heq with rfl | rfl <;> exact received_cons ..
    rcases round_written h with ⟨h51, -⟩ | h50
    · rw [hhead] at h51
      exact absurd h51 (by decide)
    · rw [hhead] at h50
      exact absurd h50 (by decide)
  rcases hsound.soup _ hmem with heq | heq | ⟨p, line, frame, hup, hframe, rfl⟩
  · exact (hother (Or.inl heq)).elim
  · exact (hother (Or.inr heq)).elim
  · have hreceived : received c frame.bytes = frame.bytes.take 128 :=
      received_long c (by rw [frame.size]; decide)
    obtain ⟨rest, hbytes⟩ := request_bytes hframe
    have hbuffer : received c frame.bytes =
        51::UInt8.ofNat (p+1)::(store (cstring line) rest).take 126 := by
      rw [hreceived, hbytes]
      rfl
    rcases round_written h with ⟨-, e, z, he, hanswer, hfits, rfl⟩ | h50
    · rw [hreceived] at he
      refine ⟨p, line, frame, e, z, hup, hframe, rfl, he, hanswer, hfits, ?_⟩
      rw [hbuffer]
      rfl
    · rw [hbuffer, List.head?_cons] at h50
      exact absurd h50 (by decide)

variable [DecidableEq ι] {isLocal : ι → Bool}

inductive Turn (isLocal : ι → Bool) (w : World ι) : World ι → List (Event ι) → Prop where
  | stays : Turn isLocal w w []
  | starts (t : ι) (phase : (w.nodes t).phase = .starting)
      (short : (cstring (w.nodes t).name).length < 127) :
      Turn isLocal w ((w.setNode t { w.nodes t with phase := .joining }).post
        (.toServer t (49::cstring (w.nodes t).name))) []
  | loses (m : Message ι) : Turn isLocal w (w.erase m) []
  | hears (t : ι) (bytes : Text) (c : Client) (name : c.name = (w.nodes t).name)
      (phase : (w.nodes t).phase ≠ .starting) (next : c.phase ≠ .starting) :
      Turn isLocal w ((w.erase (.toClient t bytes)).setNode t c) []
  | writes (t : ι) (bytes : Text) (c : Client) (msg : Text) (mem : .toClient t bytes ∈ w.soup)
      (phase : (w.nodes t).phase = .member)
      (written : round (w.nodes t) (received (w.nodes t) bytes) = some (c, some msg)) :
      Turn isLocal w (((w.erase (.toClient t bytes)).setNode t c).post (.toServer t msg)) []
  | refuses (t : ι) (bytes : Text) :
      Turn isLocal w ((w.erase (.toServer t bytes)).post (.toClient t refused)) []
  | registers (t : ι) (bytes read2 : Text) (mem : .toServer t bytes ∈ w.soup)
      (head : bytes.head? = some 49) (text : terminated (readBuff bytes) = some read2)
      (unknown : ¬ w.clients.any (·.name = read2.tail) = true) :
      Turn isLocal w { w.erase (.toServer t bytes) with
        clients := occupy w.clients ⟨read2.tail, some t, w.numOfClients⟩
        numOfClients := w.numOfClients+1
        answering := some t } [.up w.numOfClients t]
  | reports (t : ι) (bytes text : Text) (mem : .toServer t bytes ∈ w.soup)
      (head : bytes.head? = some 51) (found : terminated ((readBuff bytes).drop 2) = some text) :
      Turn isLocal w (w.erase (.toServer t bytes)) [.result t text (nodeOf (readBuff bytes))]
  | accepts (t : ι) : Turn isLocal w ({ w with answering := none }.post (.toClient t accepted)) []
  | asks (p : ℕ) (line : Text) (node : Node ι) (t : ι) (msg : Chars 130)
      (slot : w.clients[p]? = some node) (used : node.num ≠ -1) (addr : node.addr = some t)
      (framed : request p line = some msg) :
      Turn isLocal w (if isLocal t then w else w.post (.toClient t msg.bytes))
        [.asked t (cstring line)]

theorem monitor_turn {t : ι} {bytes : Text} (h : monitor w t bytes = some (w', fs)) :
    Turn isLocal w w' fs := by
  rw [monitor, Option.ite_none_right_eq_some] at h
  obtain ⟨⟨hmem, -⟩, h⟩ := h
  dsimp only at h
  split at h
  · cases h
    exact .stays
  · split at h
    · rename_i hhead
      obtain ⟨read2, htext, hname⟩ := Option.bind_eq_some_iff.mp h
      split at hname
      · cases hname
      · rw [Option.some_inj, register] at hname
        split at hname
        · cases hname
          exact .refuses t bytes
        · rename_i hunknown
          cases hname
          exact .registers t bytes read2 hmem hhead htext hunknown
    · split at h
      · rename_i hhead
        obtain ⟨text, hfound, hne⟩ := Option.bind_eq_some_iff.mp h
        split at hne
        · cases hne
        · cases hne
          exact .reports t bytes text hmem hhead hfound
      · cases h
        exact .loses _

theorem read_turn {t : ι} {bytes : Text} (h : read w t bytes = some w') : Turn isLocal w w' [] := by
  rw [DatagramCluster.read, Option.ite_none_right_eq_some] at h
  obtain ⟨hmem, h⟩ := h
  dsimp only at h
  split at h
  · rename_i hphase
    cases h
    refine .hears t bytes _ rfl (by rw [hphase]; decide) ?_
    dsimp only
    split <;> decide
  · rename_i hphase
    obtain ⟨⟨c, msg⟩, hround, rfl⟩ := Option.map_eq_some_iff.mp h
    obtain ⟨hname, hkept⟩ := round_kept hround
    cases msg with
    | none => exact .hears t bytes c hname (by rw [hphase]; decide) (by rw [hkept, hphase]; decide)
    | some msg => exact .writes t bytes c msg hmem hphase hround
  · cases h

theorem start_turn {t : ι} (h : start w t = some w') : Turn isLocal w w' [] := by
  rw [start, Option.ite_none_right_eq_some] at h
  obtain ⟨hphase, h⟩ := h
  obtain ⟨msg, hmsg, rfl⟩ := Option.map_eq_some_iff.mp h
  obtain ⟨buffer, hbuffer, hstring⟩ := Option.bind_eq_some_iff.mp hmsg
  rw [Chars.strcpy] at hbuffer
  split at hbuffer
  · rename_i hshort
    cases hbuffer
    rw [List.length_cons] at hshort
    have hcut : terminated ([49]++((w.nodes t).name++0::(zeros 128).bytes.drop
        ((49::(w.nodes t).name).length+1))) = some (49::cstring (w.nodes t).name) := by
      rw [terminated_append (by decide), terminated,
        if_pos (List.mem_append_right _ List.mem_cons_self), cstring_ended,
        Option.map_some]
      rfl
    have hsame : msg = 49::cstring (w.nodes t).name := Option.some.inj (hstring.symm.trans hcut)
    rw [hsame]
    have hlength := cstring_length_le (w.nodes t).name
    exact .starts t hphase (by omega)
  · cases hbuffer

theorem step_turn {a : Choice ι} (h : step isLocal w a = some (w', fs)) : Turn isLocal w w' fs := by
  cases a with
  | start t =>
    obtain ⟨v, hv, heq⟩ := Option.map_eq_some_iff.mp h
    cases heq
    exact start_turn hv
  | read t bytes =>
    obtain ⟨v, hv, heq⟩ := Option.map_eq_some_iff.mp h
    cases heq
    exact read_turn hv
  | monitor t bytes => exact monitor_turn h
  | answer =>
    obtain ⟨t, -, heq⟩ := Option.map_eq_some_iff.mp h
    cases heq
    exact .accepts t
  | calcRequest p line =>
    obtain ⟨node, hslot, h⟩ := Option.bind_eq_some_iff.mp h
    split at h
    · cases h
    · rename_i hused
      obtain ⟨t, haddr, h⟩ := Option.bind_eq_some_iff.mp h
      obtain ⟨msg, hmsg, heq⟩ := Option.map_eq_some_iff.mp h
      cases heq
      exact .asks p line node t msg hslot hused haddr hmsg
  | lose m =>
    cases h
    exact .loses m

theorem mem_erase {m m' : Message ι} (h : m' ∈ (w.erase m).soup) : m' ∈ w.soup :=
  Multiset.mem_of_mem_erase h

theorem setNode_name {t : ι} {c : Client} (h : c.name = (w.nodes t).name) (u : ι) :
    ((w.setNode t c).nodes u).name = (w.nodes u).name := by
  change (Function.update w.nodes t c u).name = _
  by_cases hu : u = t
  · subst hu
    rw [Function.update_self, h]
  · rw [Function.update_of_ne hu]

theorem sound_registers {t : ι} {bytes read2 : Text} (h : Sound names es w)
    (hmem : .toServer t bytes ∈ w.soup) (hhead : bytes.head? = some 49)
    (htext : terminated (readBuff bytes) = some read2)
    (hunknown : ¬ w.clients.any (·.name = read2.tail) = true) :
    Sound names (es++[.up w.numOfClients t]) { w.erase (.toServer t bytes) with
      clients := occupy w.clients ⟨read2.tail, some t, w.numOfClients⟩
      numOfClients := w.numOfClients+1
      answering := some t } := by
  have hname : read2.tail = cstring (names t) := by
    rcases h.soup _ hmem with ⟨rfl, hshort⟩ | ⟨p, z, -, rfl⟩
    · exact registration_text hshort htext
    · rw [NodeNumbers.answer_bytes, List.head?_cons] at hhead
      exact absurd hhead (by decide)
  have hups : ups (es++[.up w.numOfClients t]) = ups es++[((ups es).length, t)] := by
    rw [ups_append, h.counted]
    rfl
  refine ⟨h.nodes, ?_, ?_, ?_, ?_, ?_, ?_⟩
  · change occupy w.clients _ = _
    rw [hups, ← occupy_slots, hname, h.counted, h.table]
  · change w.numOfClients+1 = _
    rw [hups, h.counted, List.length_append, List.length_singleton]
  · rw [hups, List.map_append, h.numbered, List.length_append, List.length_singleton,
      List.range_succ]
    rfl
  · rw [hups]
    by_cases hroom : (ups es).length < clusterSize
    -- an unknown name is no name of the table, which has all nodes so far
    · have hnew : cstring (names t) ∉
          ((ups es).take clusterSize).map fun u => cstring (names u.2) := by
        intro hold
        obtain ⟨u, hu, heq⟩ := List.mem_map.mp hold
        obtain ⟨node, hnode, hnodeName⟩ := slots_names names (ups es) hu
        rw [List.any_eq_true] at hunknown
        refine hunknown ⟨node, h.table ▸ hnode, ?_⟩
        rw [decide_eq_true_eq, hname, hnodeName]
        exact heq
      have hdistinct := h.distinct
      rw [List.take_of_length_le hroom.le] at hnew hdistinct
      rw [List.take_of_length_le (by rw [List.length_append, List.length_singleton]; omega),
        List.map_append]
      exact List.nodup_append.mpr ⟨hdistinct, List.nodup_singleton _, fun x hx y hy heq =>
        hnew (by rwa [heq, List.mem_singleton.mp hy] at hx)⟩
    · rw [List.take_append_of_le_length (Nat.not_lt.mp hroom)]
      exact h.distinct
  · exact fun m hm => (h.soup m (mem_erase hm)).mono _
  · intro u text k hresult
    rcases List.mem_append.mp hresult with hold | hnew
    · obtain ⟨p, hup, hk⟩ := h.results u text k hold
      exact ⟨p, List.mem_append_left _ hup, hk⟩
    · cases List.mem_singleton.mp hnew

theorem Sound.next (h : Sound names es w) (hturn : Turn isLocal w w' fs) :
    Sound names (es++fs) w' := by
  have hsilent : ∀ t text k, (.result t text k : Event ι) ∈ [] →
      ∃ p : Fin clusterSize, .up p t ∈ es ∧ k = p := fun _ _ _ hmem => by cases hmem
  cases hturn with
  | stays => exact h.same rfl rfl rfl (fun _ => rfl) (fun m hm => Or.inl hm) hsilent
  | starts t phase short =>
    refine h.same rfl rfl rfl (fun u => setNode_name
      (c := { w.nodes t with phase := .joining }) rfl u) (fun m hm => ?_) hsilent
    rcases mem_post hm with rfl | hold
    · refine Or.inr (Or.inl ⟨by rw [h.nodes t], ?_⟩)
      rw [List.length_cons]
      omega
    · exact Or.inl hold
  | loses m => exact h.same rfl rfl rfl (fun _ => rfl) (fun m hm => Or.inl (mem_erase hm)) hsilent
  | hears t bytes c name phase next =>
    exact h.same rfl rfl rfl (fun u => setNode_name (w := w.erase _) name u)
      (fun m hm => Or.inl (mem_erase hm)) hsilent
  | writes t bytes c msg mem phase written =>
    refine h.same rfl rfl rfl (fun u => setNode_name (w := w.erase _) (round_kept written).1 u)
      (fun m hm => ?_) hsilent
    rcases mem_post hm with rfl | hold
    · obtain ⟨p, line, frame, e, z, hup, -, -, -, -, -, rfl⟩ := written_answer h mem written
      exact Or.inr (Or.inr ⟨p, z, List.mem_append_left _ hup, rfl⟩)
    · exact Or.inl (mem_erase hold)
  | refuses t bytes =>
    refine h.same rfl rfl rfl (fun _ => rfl) (fun m hm => ?_) hsilent
    rcases mem_post hm with rfl | hold
    · exact Or.inr (Or.inr (Or.inl rfl))
    · exact Or.inl (mem_erase hold)
  | registers t bytes read2 mem head text unknown => exact sound_registers h mem head text unknown
  | reports t bytes text mem head found =>
    refine h.same rfl rfl rfl (fun _ => rfl) (fun m hm => Or.inl (mem_erase hm)) ?_
    intro u text' k hmem
    cases List.mem_singleton.mp hmem
    rcases h.soup _ mem with ⟨rfl, -⟩ | ⟨p, z, hup, rfl⟩
    · rw [List.head?_cons] at head
      exact absurd head (by decide)
    · refine ⟨p, hup, ?_⟩
      rw [answer_readBuff]
      exact NodeNumbers.answer_node p z
  | accepts t =>
    refine h.same rfl rfl rfl (fun _ => rfl) (fun m hm => ?_) hsilent
    rcases mem_post hm with rfl | hold
    · exact Or.inr (Or.inl rfl)
    · exact Or.inl hold
  | asks p line node t msg slot used addr framed =>
    refine h.same rfl ?_ ?_ ?_ (fun m hm => ?_) ?_
    · split <;> rfl
    · split <;> rfl
    · intro u
      split <;> rfl
    · split at hm
      · exact Or.inl hm
      · rcases mem_post hm with rfl | hold
        · rw [h.table] at slot
          obtain ⟨hp, u, hu, rfl⟩ := slots_num slot used
          cases addr
          have hnum : u.1 = p := by
            have hrange := congrArg (·[p]?) h.numbered
            simp only [List.getElem?_map, hu, Option.map_some] at hrange
            have hlt := (List.getElem?_eq_some_iff.mp hu).1
            rw [List.getElem?_range hlt, Option.some_inj] at hrange
            exact hrange
          subst hnum
          refine Or.inr (Or.inr (Or.inr ⟨⟨u.1, hp⟩, line, msg, ?_, framed, rfl⟩))
          exact List.mem_append_left _ (mem_ups.mp (List.mem_of_getElem? hu))
        · exact Or.inl hold
    · intro u text k hmem
      cases List.mem_singleton.mp hmem

theorem sound_run {buffers : ι → Text} {as : List (Choice ι)}
    (hr : run (step isLocal) as (main names buffers) = some (w, es)) : Sound names es w :=
  run_induction (step isLocal) (main names buffers) (Sound names) (sound_start names buffers)
    (fun _ _ _ _ _ hsound hstep => hsound.next (step_turn hstep)) as w es hr

/-- The nodes of the table are the first twenty that came up, under different names and in
that order; what came up later has a number and no slot. -/
theorem table_in_order (isLocal : ι → Bool) (names buffers : ι → Text) (as : List (Choice ι))
    (w : World ι) (es : List (Event ι))
    (hr : run (step isLocal) as (main names buffers) = some (w, es)) :
    w.clients = slots names (ups es) ∧ (ups es).map Prod.fst = List.range (ups es).length ∧
      (((ups es).take clusterSize).map fun u => cstring (names u.2)).Nodup :=
  ⟨(sound_run hr).table, (sound_run hr).numbered, (sound_run hr).distinct⟩

def sixHalves : Text := [54, 32, 47, 32, 50, 10]

def twoNodes : Bool → Text
  | false => [97]
  | true => [98]

def oneRequest : List (Choice Bool) :=
  [.start false, .start true, .monitor true [49, 98], .answer, .monitor false [49, 97], .answer,
    .read true accepted, .read false accepted, .calcRequest 0 sixHalves,
    .read true ((request 0 sixHalves).elim [] Chars.bytes), .monitor true (reply 1 3)]

theorem oneRequest_runs : ∃ w,
    run (step fun _ => false) oneRequest (main twoNodes fun _ => []) =
      some (w, [.up 0 true, .up 1 false, .asked true sixHalves, .result true [51] 0]) := by
  have hevents : (run (step fun _ => false) oneRequest (main twoNodes fun _ => [])).map Prod.snd =
      some [.up 0 true, .up 1 false, .asked true sixHalves, .result true [51] 0] := by
    decide +kernel
  obtain ⟨⟨w, es⟩, hr, rfl⟩ := Option.map_eq_some_iff.mp hevents
  exact ⟨w, hr⟩

theorem table_in_order_two : ∃ w,
    run (step fun _ => false) oneRequest (main twoNodes fun _ => []) =
      some (w, [.up 0 true, .up 1 false, .asked true sixHalves, .result true [51] 0]) ∧
    w.clients = slots twoNodes [(0, true), (1, false)] := by
  obtain ⟨w, hr⟩ := oneRequest_runs
  exact ⟨w, hr, (table_in_order (fun _ => false) twoNodes (fun _ => []) oneRequest w _ hr).1⟩

end Semestr4.DatagramTable
