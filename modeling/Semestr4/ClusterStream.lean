import Semestr4.ClusterClient

/-!
# Which splits of the stream the client can read

The client evaluates every calc frame once, with its text, exactly when each of
them begins a chunk, no other chunk begins with `3`, and the text is complete in
the buffer: in the chunk, or with what the buffer happens to hold behind it.
-/

set_option autoImplicit false

namespace Semestr4.ClusterStream
open Semestr4.ByteText Semestr4.StreamPieces Semestr4.ClusterClient

/-- Every frame is evaluated once, with its text and in order, without a fault. -/
def Evaluates (frames : List Frame) (recvBuff : Text) (chunks : List Text) : Prop :=
  ∃ c, run (start recvBuff) chunks = some c ∧ c.evaluated = requests 0 frames

/-- The chunk has the text and its zero byte, or the buffer has the rest of the
text behind the chunk. -/
def Completes (recvBuff chunk text : Text) : Prop :=
  text.length+3 ≤ chunk.length ∨
    cstring (recvBuff.drop (max chunk.length 2)) = text.drop (chunk.length-2)

/-- The next chunk can be read: it begins with `3` only at a request that it
completes, and no request begins inside it. -/
structure Readable (es : List (ℕ × Text)) (c : Client) (chunk : Text) : Prop where
  request : chunk.head? = some 51 → ∃ text, (c.received, text) ∈ es ∧
    Completes c.recvBuff chunk text ∧ calculate text ≠ none
  inside : ∀ e ∈ es, ¬ (c.received < e.1 ∧ e.1 < c.received+chunk.length)

def AllReadable (es : List (ℕ × Text)) : Client → List Text → Prop
  | _, [] => True
  | c, chunk::chunks => Readable es c chunk ∧
    match receive c chunk with
    | none => True
    | some c' => AllReadable es c' chunks

def evaluation (recvBuff chunk : Text) : Option Text :=
  if chunk.head? = some 51 then some (cstring ((recv recvBuff chunk).drop 2)) else none

theorem recv_head {recvBuff chunk : Text} (h : chunk ≠ []) :
    (recv recvBuff chunk).head? = chunk.head? := by
  cases chunk with
  | nil => exact absurd rfl h
  | cons b chunk => rfl

theorem receive_none {c : Client} {chunk : Text} (hne : chunk ≠ []) :
    receive c chunk = none ↔ ∃ e, evaluation c.recvBuff chunk = some e ∧ calculate e = none := by
  simp only [receive, evaluation, recv_head hne]
  by_cases hhead : chunk.head? = some 51
  · simp only [if_pos hhead, Option.some.injEq, exists_eq_left']
    cases calculate (cstring ((recv c.recvBuff chunk).drop 2)) with
    | none => simp
    | some found => simp
  · simp [hhead]

theorem receive_some {c c' : Client} {chunk : Text} (hne : chunk ≠ [])
    (h : receive c chunk = some c') : c'.received = c.received+chunk.length ∧
      c'.evaluated = c.evaluated++
        ((evaluation c.recvBuff chunk).map fun e => (c.received, e)).toList := by
  unfold evaluation
  simp only [receive, recv_head hne] at h
  by_cases hhead : chunk.head? = some 51
  · simp only [if_pos hhead] at h ⊢
    cases hcalc : calculate (cstring ((recv c.recvBuff chunk).drop 2)) with
    | none =>
      rw [hcalc] at h
      cases h
    | some found =>
      rw [hcalc] at h
      obtain rfl : _ = c' := Option.some.inj h
      exact ⟨rfl, rfl⟩
  · simp only [if_neg hhead] at h ⊢
    obtain rfl : _ = c' := Option.some.inj h
    exact ⟨rfl, (List.append_nil _).symm⟩

theorem head_of_bytes {chunk later rest : Text} {b : UInt8} (hne : chunk ≠ [])
    (h : chunk++later = b::rest) : chunk.head? = some b := by
  cases chunk with
  | nil => exact absurd rfl hne
  | cons c chunk => exact congrArg some (List.cons.inj h).1

/-- A chunk at the position of a request is evaluated with the text of the
request exactly when the text is complete. -/
theorem evaluation_frame {recvBuff chunk later text rest : Text} {position : UInt8}
    (hne : chunk ≠ []) (hbytes : chunk++later = 51::position::(text++0::rest)) (hnz : 0 ∉ text) :
    evaluation recvBuff chunk = some text ↔ Completes recvBuff chunk text := by
  rw [evaluation, if_pos (head_of_bytes hne hbytes), Option.some.injEq, recv]
  have hchunk : chunk = (51::position::(text++0::rest)).take chunk.length := by
    rw [← hbytes, List.take_left]
  unfold Completes
  rcases Nat.lt_or_ge chunk.length (text.length+3) with hshort | hlong
  · rw [or_iff_right (by omega)]
    obtain ⟨n, hn⟩ | hone : (∃ n, chunk.length = n+2) ∨ chunk.length = 1 := by
      have := List.length_pos_of_ne_nil hne
      rcases Nat.lt_or_ge chunk.length 2 with h | h
      · exact Or.inr (by omega)
      · exact Or.inl ⟨chunk.length-2, by omega⟩
    · -- the beginning of the text is in the chunk
      have hdrop : chunk.drop 2 = text.take n := by
        rw [hchunk, hn]
        simp only [List.take_succ_cons, List.drop_succ_cons, List.drop_zero]
        rw [List.take_append_of_le_length (by omega)]
      have hbeginning : 0 ∉ text.take n := fun h => hnz (List.mem_of_mem_take h)
      rw [List.drop_append_of_le_length (by omega), hdrop, cstring_append hbeginning,
        hn, Nat.max_eq_left (by omega), Nat.add_sub_cancel]
      have hsplit := List.take_append_drop n text
      exact ⟨fun h => List.append_cancel_left (h.trans hsplit.symm), fun h => by rw [h, hsplit]⟩
    · -- the chunk is the first byte only
      rw [hone, List.drop_append, List.drop_eq_nil_of_le (by omega), List.nil_append, hone,
        List.drop_drop]
      exact Iff.rfl
  · -- the chunk has the text and a zero byte
    refine iff_of_true ?_ (Or.inl hlong)
    obtain ⟨n, hn⟩ : ∃ n, chunk.length = text.length+(n+1)+2 :=
      ⟨chunk.length-text.length-3, by omega⟩
    have hdrop : chunk.drop 2 = text++0::rest.take n := by
      rw [hchunk, hn]
      simp only [List.take_succ_cons, List.drop_succ_cons, List.drop_zero]
      rw [List.take_append, List.take_of_length_le (by omega), Nat.add_sub_cancel_left,
        List.take_succ_cons]
    rw [List.drop_append_of_le_length (by omega), hdrop, List.append_assoc, cstring_append hnz]
    exact List.append_nil text

def Coming (es : List (ℕ × Text)) (received : ℕ) (bytes : Text) : Prop :=
  ∀ e ∈ es, received ≤ e.1 → 0 ∉ e.2 ∧ ∃ position rest,
    bytes.drop (e.1-received) = 51::position::(e.2++0::rest)

theorem coming_later {es : List (ℕ × Text)} {received : ℕ} {chunk later : Text}
    (h : Coming es received (chunk++later)) : Coming es (received+chunk.length) later := by
  intro e he hle
  obtain ⟨hnz, position, rest, hdrop⟩ := h e he (by omega)
  refine ⟨hnz, position, rest, ?_⟩
  have hchunk : chunk.drop (e.1-received) = [] := List.drop_eq_nil_of_le (by omega)
  rw [← hdrop, List.drop_append, hchunk, List.nil_append, Nat.sub_sub]

def piece (c : Client) (chunk : Text) : Piece Text :=
  ⟨chunk.length, evaluation c.recvBuff chunk⟩

theorem readable_iff {es : List (ℕ × Text)} (ho : Ordered es) {c : Client} {chunk later : Text}
    (hne : chunk ≠ []) (hc : Coming es c.received (chunk++later)) :
    Readable es c chunk ↔ Exact es c.received (piece c chunk) ∧ receive c chunk ≠ none := by
  have hframe : ∀ text, (c.received, text) ∈ es →
      (evaluation c.recvBuff chunk = some text ↔ Completes c.recvBuff chunk text) := by
    intro text hmem
    obtain ⟨hnz, position, rest, hbytes⟩ := hc _ hmem (Nat.le_refl _)
    rw [Nat.sub_self, List.drop_zero] at hbytes
    exact evaluation_frame hne hbytes hnz
  have hhead : ∀ text, (c.received, text) ∈ es → chunk.head? = some 51 := by
    intro text hmem
    obtain ⟨-, position, rest, hbytes⟩ := hc _ hmem (Nat.le_refl _)
    rw [Nat.sub_self, List.drop_zero] at hbytes
    exact head_of_bytes hne hbytes
  constructor
  · intro hr
    have hfound : ∀ text, (c.received, text) ∈ es → evaluation c.recvBuff chunk = some text ∧
        calculate text ≠ none := by
      intro text hmem
      obtain ⟨text', hmem', hcompletes, hcalc⟩ := hr.request (hhead text hmem)
      rw [ordered_unique ho hmem hmem']
      exact ⟨(hframe text' hmem').mpr hcompletes, hcalc⟩
    have hrequested : ∀ text, evaluation c.recvBuff chunk = some text →
        (c.received, text) ∈ es := by
      intro text heval
      have h3 : chunk.head? = some 51 := by
        by_contra h3
        rw [evaluation, if_neg h3] at heval
        cases heval
      obtain ⟨text', hmem', -⟩ := hr.request h3
      rw [(hfound text' hmem').1] at heval
      exact Option.some.inj heval ▸ hmem'
    refine ⟨⟨fun text => ⟨hrequested text, fun hmem => (hfound text hmem).1⟩, hr.inside⟩, ?_⟩
    rw [Ne, receive_none hne]
    rintro ⟨text, heval, hcalc⟩
    exact (hfound text (hrequested text heval)).2 hcalc
  · rintro ⟨⟨hevent, hinside⟩, hsome⟩
    refine ⟨fun h3 => ?_, hinside⟩
    have heval : evaluation c.recvBuff chunk =
        some (cstring ((recv c.recvBuff chunk).drop 2)) := by
      rw [evaluation, if_pos h3]
    have hmem := (hevent _).mp heval
    refine ⟨_, hmem, (hframe _ hmem).mp heval, fun hcalc => hsome ?_⟩
    exact (receive_none hne).mpr ⟨_, heval, hcalc⟩

def pieces : Client → List Text → List (Piece Text)
  | _, [] => []
  | c, chunk::chunks => piece c chunk::
    match receive c chunk with
    | none => []
    | some c' => pieces c' chunks

theorem run_events {c f : Client} {chunks : List Text} (hne : ∀ chunk ∈ chunks, chunk ≠ [])
    (h : run c chunks = some f) :
    f.evaluated = c.evaluated++events c.received (pieces c chunks) ∧
      total (pieces c chunks) = chunks.flatten.length ∧
      ∀ q ∈ pieces c chunks, 0 < q.length := by
  induction chunks generalizing c with
  | nil =>
    obtain rfl : c = f := Option.some.inj h
    exact ⟨(List.append_nil _).symm, rfl, fun q hq => absurd hq (List.not_mem_nil)⟩
  | cons chunk chunks ih =>
    have hchunk := hne chunk (List.mem_cons_self ..)
    cases hr : receive c chunk with
    | none =>
      rw [run, hr] at h
      cases h
    | some c' =>
      rw [run, hr] at h
      obtain ⟨hreceived, hevaluated⟩ := receive_some hchunk hr
      obtain ⟨hevents, htotal, hpositive⟩ :=
        ih (fun q hq => hne q (List.mem_cons_of_mem chunk hq)) h
      simp only [pieces, hr]
      refine ⟨?_, ?_, ?_⟩
      · rw [hevents, hevaluated, hreceived, events, List.append_assoc]
        rfl
      · rw [List.flatten_cons, List.length_append, ← htotal]
        rfl
      · rintro q (_ | ⟨_, hq⟩)
        · exact List.length_pos_of_ne_nil hchunk
        · exact hpositive q hq

/-- The chunks can all be read exactly when there is no fault and every chunk
causes what is expected at its position. -/
theorem all_readable_iff {es : List (ℕ × Text)} (ho : Ordered es) {c : Client}
    {chunks : List Text} (hne : ∀ chunk ∈ chunks, chunk ≠ [])
    (hc : Coming es c.received chunks.flatten) :
    AllReadable es c chunks ↔
      (∃ f, run c chunks = some f) ∧ AllExact es c.received (pieces c chunks) := by
  induction chunks generalizing c with
  | nil => exact ⟨fun _ => ⟨⟨c, rfl⟩, trivial⟩, fun _ => trivial⟩
  | cons chunk chunks ih =>
    have hchunk := hne chunk (List.mem_cons_self ..)
    have hone := readable_iff ho hchunk hc
    rw [AllReadable, hone]
    cases hr : receive c chunk with
    | none =>
      simp only [run, hr]
      exact ⟨fun h => absurd rfl h.1.2, fun h => by cases h.1 with | intro f hf => cases hf⟩
    | some c' =>
      have hreceived := (receive_some hchunk hr).1
      have hlater := coming_later hc
      rw [← hreceived] at hlater
      have hrest := ih (fun q hq => hne q (List.mem_cons_of_mem chunk hq)) hlater
      simp only [run, pieces, hr, AllExact, hrest, hreceived]
      constructor
      · rintro ⟨⟨hexact, -⟩, hrun, hall⟩
        exact ⟨hrun, hexact, hall⟩
      · rintro ⟨hrun, hexact, hall⟩
        exact ⟨⟨hexact, Option.some_ne_none c'⟩, hrun, hall⟩

theorem requests_coming (frames : List Frame) : Coming (requests 0 frames) 0 (stream frames) := by
  intro e he _
  obtain ⟨-, hnz, hbytes⟩ := request_bytes he
  exact ⟨hnz, hbytes⟩

theorem requests_end {frames : List Frame} {e : ℕ × Text} (he : e ∈ requests 0 frames) :
    e.1 < (stream frames).length := by
  obtain ⟨-, -, position, rest, hbytes⟩ := request_bytes he
  by_contra hle
  rw [Nat.sub_zero, List.drop_eq_nil_of_le (Nat.le_of_not_lt hle)] at hbytes
  cases hbytes

/-- Every calc frame is evaluated once, with its text and in order, exactly when
every chunk can be read in the state before it. -/
theorem evaluates_iff {frames : List Frame} {chunks : List Text} (h : Delivers frames chunks)
    (recvBuff : Text) : Evaluates frames recvBuff chunks ↔
      AllReadable (requests 0 frames) (start recvBuff) chunks := by
  have hne : ∀ chunk ∈ chunks, chunk ≠ [] := fun chunk hchunk => (h.2 chunk hchunk).1
  have ho := requests_ordered 0 frames
  have hcoming := requests_coming frames
  rw [← h.1] at hcoming
  rw [all_readable_iff ho hne hcoming]
  have hfrom : (requests 0 frames).filter (fun e => decide (0 ≤ e.1)) = requests 0 frames := by
    rw [List.filter_eq_self]
    exact fun e _ => decide_eq_true (Nat.zero_le _)
  have hexact : ∀ f, run (start recvBuff) chunks = some f →
      (f.evaluated = requests 0 frames ↔
        AllExact (requests 0 frames) 0 (pieces (start recvBuff) chunks)) := by
    intro f hf
    obtain ⟨hevents, htotal, hpositive⟩ := run_events hne hf
    have hend : ∀ e ∈ requests 0 frames, e.1 < 0+total (pieces (start recvBuff) chunks) := by
      intro e he
      rw [Nat.zero_add, htotal, h.1]
      exact requests_end he
    rw [hevents, ← events_iff_exact ho hpositive hend, hfrom]
    rfl
  constructor
  · rintro ⟨f, hf, heq⟩
    exact ⟨⟨f, hf⟩, (hexact f hf).mp heq⟩
  · rintro ⟨⟨f, hf⟩, hall⟩
    exact ⟨f, hf, (hexact f hf).mpr hall⟩

def pingAndSum : List Frame :=
  [.pingMsg, .calcMsg ⟨⟨0, by decide⟩, [49, 32, 43, 32, 50, 10], by decide, by decide⟩]

theorem evaluates_frame_by_frame : Evaluates pingAndSum (List.replicate 1024 0)
    (pingAndSum.map Frame.bytes) := by
  refine (evaluates_iff ⟨rfl, by decide +kernel⟩ _).mpr ⟨⟨fun h => ?_, ?_⟩, ⟨fun _ => ?_, ?_⟩, trivial⟩
  · exact absurd h (by decide)
  · decide
  · exact ⟨[49, 32, 43, 32, 50, 10], List.mem_singleton_self _, Or.inl (by decide +kernel), by decide +kernel⟩
  · decide

/-- When one call of `recv` returns both frames, only the first byte is looked at. -/
theorem merged_frames_not_evaluated : Delivers pingAndSum [stream pingAndSum] ∧
    ¬ Evaluates pingAndSum (List.replicate 1024 0) [stream pingAndSum] := by
  refine ⟨⟨by simp, by decide +kernel⟩, ?_⟩
  rintro ⟨c, hrun, heq⟩
  have hne : stream pingAndSum ≠ [] := by decide
  cases hr : receive (start (List.replicate 1024 0)) (stream pingAndSum) with
  | none =>
    rw [run, hr] at hrun
    cases hrun
  | some c' =>
    rw [run, hr] at hrun
    obtain rfl : c' = c := Option.some.inj hrun
    have hnothing : ∀ recvBuff, evaluation recvBuff (stream pingAndSum) = none :=
      fun recvBuff => if_neg (by decide)
    rw [(receive_some hne hr).2, hnothing] at heq
    exact absurd heq (by decide)

end Semestr4.ClusterStream
