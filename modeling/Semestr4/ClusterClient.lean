import Mathlib.Algebra.Ring.Nat
import Semestr4.ClusterServer
import Semestr4.StreamPieces

/-!
# The client of the cluster

The server writes calc frames of 130 bytes and ping frames of two on one stream.
The client reads what one `recv` returns over the beginning of a buffer that is
never cleared, looks at the first byte, and evaluates the string after the second.
-/

set_option autoImplicit false

namespace Semestr4.ClusterClient
open Semestr4.ByteText Semestr4.DecimalText Semestr4.ClusterServer Semestr4.StreamPieces

/-- A line of input that fits the frame, and the slot it is for. -/
structure Request where
  target : Fin clusterSize
  text : Text
  nonzero : 0 ∉ text
  short : text.length ≤ 127

/-- `strcat` three times into 130 zero bytes. -/
def Request.msg (r : Request) : Text :=
  ([51]++cstring [UInt8.ofNat (r.target+1)]++cstring r.text++List.replicate 130 0).take 130

inductive Frame where
  | calcMsg (request : Request)
  | pingMsg

def Frame.bytes : Frame → Text
  | .calcMsg request => request.msg
  | .pingMsg => [50, 0]

def stream (frames : List Frame) : Text := frames.flatMap Frame.bytes

/-- The calc frames, each with the position of its first byte. -/
def requests : ℕ → List Frame → List (ℕ × Text)
  | _, [] => []
  | p, .calcMsg request::frames => (p, request.text)::requests (p+130) frames
  | p, .pingMsg::frames => requests (p+2) frames

def wrap (z : ℤ) : ℤ := z.bmod (2^32)

/-- `atoi` through `long`. -/
def argument (s : Text) : ℤ := wrap (max (-2^63) (min (2^63-1) (atoi s)))

/-- The operation; nothing for a division that faults. -/
def operate (op : UInt8) (a b : ℤ) : Option ℤ :=
  if op = 43 then some (wrap (a+b))
  else if op = 45 then some (wrap (a-b))
  else if op = 42 then some (wrap (a*b))
  else if op = 47 then
    if b = 0 ∨ a = -2^31 ∧ b = -1 then none else some (a.tdiv b)
  else some (-1)

/-- The bytes a call of `strtok` passes, with zero for the delimiter it stops at. -/
def passed (delim s : Text) : Text :=
  let token := (s.dropWhile (· ∈ delim)).takeWhile (· ∉ delim)
  let rest := (s.dropWhile (· ∈ delim)).dropWhile (· ∉ delim)
  s.takeWhile (· ∈ delim)++token++if rest = [] then [] else [0]

/-- The result, and what is left of the string. A missing token is a null pointer
for `atoi`. -/
def calculate (e : Text) : Option (ℤ × Text) :=
  match strtok [32] e with
  | none => none
  | some (arg1, more) => match strtok [32] more with
    | none => none
    | some (op, more') => match strtok [32, 10] more' with
      | none => none
      | some (arg2, rest) =>
        (operate (op.headD 0) (argument arg1) (argument arg2)).map fun result =>
          (result, passed [32] e++passed [32] more++passed [32, 10] more'++rest)

/-- The state between two calls of `recv`: how many bytes were received, which
strings were evaluated at which position, and what was written. -/
structure Client where
  recvBuff : Text
  received : ℕ
  evaluated : List (ℕ × Text)
  written : List Text

def start (recvBuff : Text) : Client := ⟨recvBuff, 0, [], []⟩

def recv (recvBuff chunk : Text) : Text := chunk++recvBuff.drop chunk.length

def reply (position : UInt8) (result : ℤ) : Text :=
  ([51]++cstring [position]++decimal result++List.replicate 128 0).take 128

def receive (c : Client) (chunk : Text) : Option Client :=
  let recvBuff := recv c.recvBuff chunk
  if recvBuff.head? = some 51 then
    let e := cstring (recvBuff.drop 2)
    match calculate e with
    | none => none
    | some (result, left) => some {
        recvBuff := recvBuff.take 2++left++recvBuff.drop (2+e.length)
        received := c.received+chunk.length
        evaluated := c.evaluated++[(c.received, e)]
        written := c.written++[reply (recvBuff.getD 1 0) result] }
  else some { c with recvBuff, received := c.received+chunk.length }

def run : Client → List Text → Option Client
  | c, [] => some c
  | c, chunk::chunks => match receive c chunk with
    | none => none
    | some c' => run c' chunks

/-- What successive calls of `recv` may return for the frames. -/
def Delivers (frames : List Frame) (chunks : List Text) : Prop :=
  chunks.flatten = stream frames ∧ ∀ chunk ∈ chunks, chunk ≠ [] ∧ chunk.length ≤ 1024

theorem position_string (p : Fin clusterSize) :
    cstring [UInt8.ofNat (p+1)] = [UInt8.ofNat (p+1)] := by
  revert p
  decide

theorem msg_eq (r : Request) : r.msg =
    51::UInt8.ofNat (r.target+1)::(r.text++0::List.replicate (127-r.text.length) 0) := by
  have hshort := r.short
  rw [Request.msg, position_string, cstring_self r.nonzero]
  simp only [List.cons_append, List.nil_append,
    List.take_succ_cons, List.take_append, List.take_replicate]
  rw [List.take_of_length_le (by omega), ← List.replicate_succ]
  congr 4
  omega

theorem msg_length (r : Request) : r.msg.length = 130 := by
  have hshort := r.short
  rw [msg_eq]
  simp
  omega

theorem stream_drop (frame : Frame) (frames : List Frame) (n : ℕ) :
    (stream (frame::frames)).drop (frame.bytes.length+n) = (stream frames).drop n := by
  rw [stream, List.flatMap_cons, ← List.drop_drop, List.drop_left]
  rfl

theorem request_frame {frames : List Frame} {p : ℕ} {e : ℕ × Text} (h : e ∈ requests p frames) :
    p ≤ e.1 ∧ ∃ request rest, Frame.calcMsg request ∈ frames ∧ request.text = e.2 ∧
      (stream frames).drop (e.1-p) = request.msg++rest := by
  induction frames generalizing p with
  | nil => cases h
  | cons frame frames ih =>
    cases frame with
    | calcMsg request =>
      rw [requests, List.mem_cons] at h
      rcases h with rfl | h
      · refine ⟨Nat.le_refl p, request, stream frames, List.mem_cons_self .., rfl, ?_⟩
        rw [Nat.sub_self, List.drop_zero, stream, List.flatMap_cons]
        rfl
      · obtain ⟨hle, found, rest, hmem, htext, hdrop⟩ := ih h
        have hlength : (Frame.calcMsg request).bytes.length = 130 := msg_length request
        refine ⟨by omega, found, rest, List.mem_cons_of_mem _ hmem, htext, ?_⟩
        rw [← hdrop, ← stream_drop (.calcMsg request) frames, hlength,
          show 130+(e.1-(p+130)) = e.1-p by omega]
    | pingMsg =>
      obtain ⟨hle, found, rest, hmem, htext, hdrop⟩ := ih h
      have hlength : Frame.pingMsg.bytes.length = 2 := rfl
      refine ⟨by omega, found, rest, List.mem_cons_of_mem _ hmem, htext, ?_⟩
      rw [← hdrop, ← stream_drop .pingMsg frames, hlength, show 2+(e.1-(p+2)) = e.1-p by omega]

theorem request_bytes {frames : List Frame} {p : ℕ} {e : ℕ × Text} (h : e ∈ requests p frames) :
    p ≤ e.1 ∧ 0 ∉ e.2 ∧ ∃ position rest,
      (stream frames).drop (e.1-p) = 51::position::(e.2++0::rest) := by
  obtain ⟨hle, request, rest, -, htext, hdrop⟩ := request_frame h
  refine ⟨hle, htext ▸ request.nonzero, UInt8.ofNat (request.target+1),
    List.replicate (127-request.text.length) 0++rest, ?_⟩
  rw [hdrop, msg_eq, ← htext]
  simp

theorem requests_ordered (p : ℕ) (frames : List Frame) : Ordered (requests p frames) := by
  induction frames generalizing p with
  | nil => exact List.Pairwise.nil
  | cons frame frames ih =>
    cases frame with
    | calcMsg request =>
      refine List.pairwise_cons.mpr ⟨fun e he => ?_, ih (p+130)⟩
      have := (request_bytes he).1
      omega
    | pingMsg => exact ih (p+2)

end Semestr4.ClusterClient
