import Semestr4.BufferMachine
import Semestr4.FifoChannel

/-!
# The buffer is a first-in first-out channel

The cyclic array between the consumer and the producer position refines the
abstract channel: a store is a put, a removal a take. The records removed and
the records stored together are the records read, numbered in file order.
-/

set_option autoImplicit false

namespace Semestr4.BufferInvariant
open Semestr4.ScheduledRun Semestr4.ByteText Semestr4.CircularBuffer Semestr4.ConditionMonitor
open Semestr4.BufferMachine Semestr4.FifoChannel

def held (conf : Conf) (s : Shared) : List Line :=
  contents s.buffer conf.bufferLength s.consumerPos s.numberOfElements.toNat

/-- The lines made of the records of `fgets`, counted from one. -/
def numbered (buffers : List Text) : List Line :=
  buffers.mapIdx fun i buffer => ⟨some (strcpy buffer), i+1⟩

def Event.channelUse : Event → Option (Use Line)
  | .stored line => some (.put line)
  | .removed line => some (.take line)
  | _ => none

def channelUses (es : List Event) : List (Use Line) := es.filterMap Event.channelUse

theorem puts_channelUses (es : List Event) : puts (channelUses es) = stored es := by
  rw [puts, channelUses, stored, List.filterMap_filterMap]
  congr 1
  funext e
  cases e <;> rfl

theorem takes_channelUses (es : List Event) : takes (channelUses es) = removed es := by
  rw [takes, channelUses, removed, List.filterMap_filterMap]
  congr 1
  funext e
  cases e <;> rfl

structure Placed (conf : Conf) (s : Shared) : Prop where
  count_nonneg : 0 ≤ s.numberOfElements
  count_le : s.numberOfElements ≤ conf.bufferLength
  consumer_nonneg : 0 ≤ s.consumerPos
  consumer_lt : s.consumerPos < conf.bufferLength
  producer_eq : s.producerPos = (s.consumerPos+s.numberOfElements) % conf.bufferLength

structure Invariant (conf : Conf) (file : Text) (es : List Event) (s : Shared) : Prop where
  placed : Placed conf s
  channel : (channelUses es).foldlM (use conf.bufferLength.toNat) [] = some (held conf s)
  stored_eq : stored es = numbered (returned es)
  lineNumber_eq : s.lineNumber = (returned es).length
  source_eq : returned es ++ records 1000 s.source = records 1000 file

theorem numbered_snoc (buffers : List Text) (buffer : Text) :
    numbered (buffers++[buffer]) =
      numbered buffers ++ [⟨some (strcpy buffer), buffers.length+1⟩] := by
  simp [numbered, List.mapIdx_append]

theorem held_empty (conf : Conf) (s : Shared) (h : s.numberOfElements = 0) :
    held conf s = [] := by
  simp [held, h]

theorem held_length {conf : Conf} {s : Shared} (hp : Placed conf s) :
    ((held conf s).length : ℤ) = s.numberOfElements := by
  simp [held, hp.count_nonneg]

theorem store_placed {conf : Conf} {s : Shared} (hp : Placed conf s)
    (hn : s.numberOfElements ≠ conf.bufferLength) (line : Line) (rest : Text) :
    Placed conf (s.store conf line rest) where
  count_nonneg := by
    have := hp.count_nonneg
    simp only [Shared.store]
    omega
  count_le := by
    have := hp.count_le
    simp only [Shared.store]
    omega
  consumer_nonneg := hp.consumer_nonneg
  consumer_lt := hp.consumer_lt
  producer_eq := by
    have h0 := hp.consumer_nonneg
    have h1 := hp.consumer_lt
    exact behind_push _ _ _ _ (by omega) hp.producer_eq

theorem held_store {conf : Conf} {s : Shared} (hp : Placed conf s)
    (hn : s.numberOfElements ≠ conf.bufferLength) (line : Line) (rest : Text) :
    held conf (s.store conf line rest) = held conf s ++ [line] := by
  have h0 := hp.count_nonneg
  have h1 := hp.count_le
  obtain ⟨n, hc⟩ : ∃ n : ℕ, s.numberOfElements = n := ⟨s.numberOfElements.toNat, by omega⟩
  have hpos : s.producerPos = (s.consumerPos+n) % conf.bufferLength := hc ▸ hp.producer_eq
  have hnext : (s.numberOfElements+1).toNat = n+1 := by omega
  simp only [held, Shared.store, hnext, hpos]
  rw [show s.numberOfElements.toNat = n by omega]
  exact contents_push s.buffer _ _ n line (by omega)

theorem release_placed {conf : Conf} {s : Shared} (hp : Placed conf s)
    (hn : s.numberOfElements ≠ 0) : Placed conf (s.release conf) where
  count_nonneg := by
    have := hp.count_nonneg
    simp only [Shared.release]
    omega
  count_le := by
    have := hp.count_le
    simp only [Shared.release]
    omega
  consumer_nonneg := advance_nonneg _ _ hp.consumer_nonneg
  consumer_lt := by
    have h0 := hp.consumer_nonneg
    have h1 := hp.consumer_lt
    exact advance_lt _ _ h1 (by omega)
  producer_eq := by
    rw [Shared.release, behind_pop _ _ _ hp.consumer_nonneg hp.consumer_lt]
    exact hp.producer_eq

theorem held_release {conf : Conf} {s : Shared} (hp : Placed conf s)
    (hn : s.numberOfElements ≠ 0) :
    held conf s = s.buffer s.consumerPos :: held conf (s.release conf) := by
  have h0 := hp.count_nonneg
  have h1 := hp.count_le
  obtain ⟨n, hc⟩ : ∃ n : ℕ, s.numberOfElements = n+1 :=
    ⟨s.numberOfElements.toNat-1, by omega⟩
  have hcount : s.numberOfElements.toNat = n+1 := by omega
  have hrest : (s.numberOfElements-1).toNat = n := by omega
  simp only [held, Shared.release, hcount, hrest]
  exact contents_pop s.buffer _ _ n _ hp.consumer_nonneg hp.consumer_lt (by omega)

@[simp] theorem channelUses_append (es fs : List Event) :
    channelUses (es++fs) = channelUses es ++ channelUses fs := List.filterMap_append

theorem printed_no_use {es : List Event} (h : Printed es) : channelUses es = [] := by
  apply List.filterMap_eq_nil_iff.mpr
  intro e he
  have hp := h e he
  cases e <;> simp_all [Event.channelUse, Event.storedValue, Event.removedValue]

theorem Invariant.flagged {conf : Conf} {file : Text} {es : List Event} {s : Shared}
    (hi : Invariant conf file es s) (b : Bool) :
    Invariant conf file es { s with endOfFile := b } where
  placed := ⟨hi.placed.1, hi.placed.2, hi.placed.3, hi.placed.4, hi.placed.5⟩
  channel := hi.channel
  stored_eq := hi.stored_eq
  lineNumber_eq := hi.lineNumber_eq
  source_eq := hi.source_eq

theorem Invariant.store {conf : Conf} {file : Text} {es fs : List Event} {s : Shared}
    (hi : Invariant conf file es s) (hn : s.numberOfElements ≠ conf.bufferLength)
    {buffer rest : Text} (hf : fgets 1000 s.source = some (buffer, rest)) {line : Line}
    (hl : line = ⟨some (strcpy buffer), s.lineNumber+1⟩) (hp : Printed fs) :
    Invariant conf file (es ++ (.returned buffer :: .stored line :: fs))
      (s.store conf line rest) := by
  obtain ⟨hret, hst, -⟩ := printed_values hp
  have hreturned : returned (es ++ (.returned buffer :: .stored line :: fs)) =
      returned es ++ [buffer] := by
    rw [returned_append]
    exact congrArg (fun l => returned es ++ (buffer::l)) hret
  have hstored : stored (es ++ (.returned buffer :: .stored line :: fs)) = stored es ++ [line] := by
    rw [stored_append]
    exact congrArg (fun l => stored es ++ (line::l)) hst
  have huses : channelUses (es ++ (.returned buffer :: .stored line :: fs)) =
      channelUses es ++ [.put line] := by
    rw [channelUses_append]
    exact congrArg (fun l => channelUses es ++ (Use.put line::l)) (printed_no_use hp)
  refine ⟨store_placed hi.placed hn line rest, ?_, ?_, ?_, ?_⟩
  · have hlen := held_length hi.placed
    have hle := hi.placed.count_le
    have hroom : ((held conf s).length : ℤ) < conf.bufferLength := by omega
    rw [huses, List.foldlM_append, hi.channel, held_store hi.placed hn]
    simp [use, hroom]
  · rw [hstored, hreturned, numbered_snoc, hi.stored_eq, hl, hi.lineNumber_eq]
  · rw [hreturned, Shared.store, hl, hi.lineNumber_eq]
    simp
  · rw [hreturned, Shared.store, ← hi.source_eq, records_some (by decide) hf]
    simp

theorem Invariant.release {conf : Conf} {file : Text} {es fs : List Event} {s : Shared}
    (hi : Invariant conf file es s) (hn : s.numberOfElements ≠ 0) (hp : Printed fs) :
    Invariant conf file (es ++ (fs ++ [.removed (s.buffer s.consumerPos)]))
      (s.release conf) := by
  obtain ⟨hret, hst, -⟩ := printed_values hp
  have hreturned : returned (es ++ (fs ++ [.removed (s.buffer s.consumerPos)])) =
      returned es := by
    rw [returned_append, returned_append, hret]
    exact List.append_nil _
  have hstored : stored (es ++ (fs ++ [.removed (s.buffer s.consumerPos)])) = stored es := by
    rw [stored_append, stored_append, hst]
    exact List.append_nil _
  refine ⟨release_placed hi.placed hn, ?_, ?_, ?_, ?_⟩
  · rw [channelUses_append, channelUses_append, printed_no_use hp, List.foldlM_append, hi.channel,
      held_release hi.placed hn]
    simp [channelUses, Event.channelUse, use]
  · rw [hstored, hreturned]
    exact hi.stored_eq
  · rw [hreturned]
    exact hi.lineNumber_eq
  · rw [hreturned]
    exact hi.source_eq

theorem initial_invariant (conf : Conf) (hb : 1 ≤ conf.bufferLength) (file : Text) :
    Invariant conf file [] (initial file) where
  placed := ⟨le_refl 0, by simp only [initial]; omega, le_refl 0, by simp only [initial]; omega,
    rfl⟩
  channel := by rw [held_empty conf _ rfl]; rfl
  stored_eq := rfl
  lineNumber_eq := rfl
  source_eq := rfl

/-- A call of a body puts the next record of the file, takes the oldest record
stored, or leaves the records alone. -/
theorem body_invariant {conf : Conf} {file : Text} {es : List Event} {s : Shared}
    (t : Thread conf) (hi : Invariant conf file es s) :
    Invariant conf file (es ++ (body conf t s).events) (body conf t s).shared := by
  have hd := body_does conf s t
  generalize body conf t s = o at hd
  cases hd with
  | stores i hn buffer rest hf line hl => exact hi.store hn hf hl (announce_printed conf _)
  | takes i hn => exact hi.release hn (report_printed conf _)
  | ends i hs => simpa using hi.flagged true
  | _ => simpa using hi

theorem machine_invariant (conf : Conf) (hb : 1 ≤ conf.bufferLength) (file : Text)
    (as : List (Action (Thread conf))) (w : State conf) (es : List Event)
    (hr : run (machine conf) as (main conf file) = some (w, es)) :
    Invariant conf file es w.shared :=
  shared_induction (Invariant conf file) (initial file) (initial_invariant conf hb file)
    (fun _ _ t hi => body_invariant t hi) as w es hr

theorem account {conf : Conf} {file : Text} {es : List Event} {s : Shared}
    (hi : Invariant conf file es s) : removed es ++ held conf s = numbered (returned es) := by
  have h := fifo_account hi.channel
  rwa [takes_channelUses, puts_channelUses, List.nil_append, hi.stored_eq] at h

theorem consumed_alive {conf : Conf} {file : Text} {es : List Event} {s : Shared}
    (hi : Invariant conf file es s) (hn : s.numberOfElements ≠ 0) :
    (s.buffer s.consumerPos).text ≠ none := by
  have ha := account hi
  rw [held_release hi.placed hn] at ha
  have hm : s.buffer s.consumerPos ∈ numbered (returned es) := by
    rw [← ha]
    simp
  obtain ⟨i, hlt, he⟩ := List.mem_mapIdx.mp hm
  simp [← he]

/-- Every reachable state of every interleaving: the count stays within the
buffer, the positions agree with it, and what was removed followed by what is
stored is what `fgets` returned, numbered from one in file order. -/
theorem buffer_keeps_order (conf : Conf) (hb : 1 ≤ conf.bufferLength) (file : Text)
    (as : List (Action (Thread conf))) (w : State conf) (es : List Event)
    (hr : run (machine conf) as (main conf file) = some (w, es)) :
    0 ≤ w.shared.numberOfElements ∧ w.shared.numberOfElements ≤ conf.bufferLength ∧
    w.shared.producerPos =
      (w.shared.consumerPos+w.shared.numberOfElements) % conf.bufferLength ∧
    removed es ++ held conf w.shared = numbered (returned es) ∧
    returned es ++ records 1000 w.shared.source = records 1000 file := by
  have hi := machine_invariant conf hb file as w es hr
  exact ⟨hi.placed.count_nonneg, hi.placed.count_le, hi.placed.producer_eq, account hi,
    hi.source_eq⟩

def smallConf : Conf where
  numberOfProducers := 1
  numberOfConsumers := 1
  bufferLength := 1
  stringLength := 1
  searchMode := searchModeEqual
  verbalMode := 0
  timeout := 0

def smallProducer : Thread smallConf := .producer ⟨0, by decide⟩

def smallConsumer : Thread smallConf := .consumer ⟨0, by decide⟩

/-- The first record of the file is taken and the second one stored in the same
place. -/
theorem buffer_keeps_order_small : ∃ w es,
    run (machine smallConf) [.enter smallProducer, .enter smallConsumer, .enter smallProducer]
      (main smallConf [97, 10, 98, 10]) = some (w, es) ∧
    0 ≤ w.shared.numberOfElements ∧ w.shared.numberOfElements ≤ smallConf.bufferLength ∧
    w.shared.producerPos =
      (w.shared.consumerPos+w.shared.numberOfElements) % smallConf.bufferLength ∧
    removed es ++ held smallConf w.shared = numbered (returned es) ∧
    returned es ++ records 1000 w.shared.source = records 1000 [97, 10, 98, 10] := by
  have hr : run (machine smallConf)
      [.enter smallProducer, .enter smallConsumer, .enter smallProducer]
      (main smallConf [97, 10, 98, 10]) = some (_, _) := rfl
  exact ⟨_, _, hr, buffer_keeps_order smallConf (by decide) _ _ _ _ hr⟩

end Semestr4.BufferInvariant
