import Semestr4.ByteText
import Semestr4.CircularBuffer
import Semestr4.ConditionMonitor

/-!
# Line search over a bounded buffer

Producers read lines of one file into a cyclic buffer and consumers take them
out and print those of the wanted length. Every call of `addToBuffer` and
`removeFromBuffer` is one piece under the mutex, up to its unlock or its wait.
The counters are C's ints without overflow, and threads are never cancelled.
-/

set_option autoImplicit false

namespace Semestr4.BufferMachine
open Semestr4.ScheduledRun Semestr4.ByteText Semestr4.CircularBuffer Semestr4.ConditionMonitor

structure Conf where
  numberOfProducers : ℕ
  numberOfConsumers : ℕ
  bufferLength : ℤ
  stringLength : ℤ
  searchMode : ℤ
  verbalMode : ℤ
  timeout : ℤ
  deriving DecidableEq, Repr

/-- The text is absent where the pointer is null or the string was freed. -/
structure Line where
  text : Option Text
  lineNumber : ℤ
  deriving DecidableEq, Repr

inductive Cond where
  | empty
  | full
  deriving DecidableEq, Repr

structure Shared where
  buffer : ℤ → Line
  source : Text
  endOfFile : Bool
  consumerPos : ℤ
  producerPos : ℤ
  numberOfElements : ℤ
  lineNumber : ℤ

/-- The messages printed, and three points of observation: what `fgets`
returned, the record stored, and the record taken out. -/
inductive Event where
  | returned (buffer : Text)
  | stored (line : Line)
  | removed (line : Line)
  | adding (text : Text)
  | removing (text : Text)
  | found (lineNumber : ℤ) (text : Text)
  deriving DecidableEq, Repr

abbrev Call := Outcome Shared Cond ℤ Event

def searchModeEqual : ℤ := 0
def searchModeLesser : ℤ := 1
def searchModeGreater : ℤ := 2

def sizeT (z : ℤ) : ℕ := (z % 2^64).toNat

def Shared.store (conf : Conf) (s : Shared) (currentLine : Line) (rest : Text) : Shared where
  buffer := Function.update s.buffer s.producerPos currentLine
  source := rest
  endOfFile := s.endOfFile
  consumerPos := s.consumerPos
  producerPos := advance conf.bufferLength s.producerPos
  numberOfElements := s.numberOfElements+1
  lineNumber := currentLine.lineNumber

/-- The assignments of `removeFromBuffer`, which frees the text it leaves. -/
def Shared.release (conf : Conf) (s : Shared) : Shared where
  buffer := Function.update s.buffer s.consumerPos { s.buffer s.consumerPos with text := none }
  source := s.source
  endOfFile := s.endOfFile
  consumerPos := advance conf.bufferLength s.consumerPos
  producerPos := s.producerPos
  numberOfElements := s.numberOfElements-1
  lineNumber := s.lineNumber

def announce (conf : Conf) (text : Text) : List Event :=
  if conf.verbalMode ≠ 0 then [.adding text] else []

def addToBuffer (conf : Conf) (s : Shared) : Call :=
  if s.numberOfElements = conf.bufferLength then
    { shared := s, exit := .waits .full }
  else match fgets 1000 s.source with
    | some (buffer, rest) =>
      let currentLine : Line := ⟨some (strcpy buffer), s.lineNumber+1⟩
      { shared := s.store conf currentLine rest
        exit := .returns 0
        signals := if s.numberOfElements+1 = 1 then [.empty] else []
        events := .returned buffer :: .stored currentLine :: announce conf (strcpy buffer) }
    | none =>
      if conf.timeout = 0 then
        { shared := { s with endOfFile := true }, exit := .returns (-1), signals := [.empty] }
      else
        { shared := s
          exit := .returns 0
          signals := if s.numberOfElements = 1 then [.empty] else [] }

/-- `strlen` of an empty text less one wraps around in `size_t`. -/
def wanted (conf : Conf) (text : Text) : Bool :=
  let length := sizeT (strlen text-1)
  (length == sizeT conf.stringLength && conf.searchMode == searchModeEqual) ||
  (length < sizeT conf.stringLength && conf.searchMode == searchModeLesser) ||
  (length > sizeT conf.stringLength && conf.searchMode == searchModeGreater)

def report (conf : Conf) (line : Line) : List Event :=
  let text := line.text.getD []
  (if conf.verbalMode ≠ 0 then [.removing text] else []) ++
    (if wanted conf text then [.found line.lineNumber text] else [])

def removeFromBuffer (conf : Conf) (s : Shared) : Call :=
  if s.numberOfElements = 0 ∧ s.endOfFile = false then
    { shared := s, exit := .waits .empty }
  else if s.endOfFile = true ∧ s.numberOfElements = 0 then
    { shared := s, exit := .returns (-1) }
  else
    let line := s.buffer s.consumerPos
    { shared := s.release conf
      exit := .returns 0
      signals := if s.numberOfElements-1 = conf.bufferLength-1 then [.full] else []
      events := report conf line ++ [.removed line] }

inductive Thread (conf : Conf) where
  | consumer (i : Fin conf.numberOfConsumers)
  | producer (i : Fin conf.numberOfProducers)
  deriving DecidableEq

/-- The loops of `producerLogic` and `consumerLogic` return on `-1` only, and
only without a timeout. A call that waited returns `0`. -/
def logic (conf : Conf) (call : Call) : Outcome Shared Cond Bool Event where
  shared := call.shared
  exit := call.exit.map fun code => code == -1 && conf.timeout == 0
  signals := call.signals
  events := call.events

def producerLogic (conf : Conf) (s : Shared) := logic conf (addToBuffer conf s)

def consumerLogic (conf : Conf) (s : Shared) := logic conf (removeFromBuffer conf s)

def body (conf : Conf) : Thread conf → Shared → Outcome Shared Cond Bool Event
  | .consumer _, s => consumerLogic conf s
  | .producer _, s => producerLogic conf s

abbrev State (conf : Conf) := World Shared (Thread conf) Cond

def initial (file : Text) : Shared where
  buffer := fun _ => ⟨none, 0⟩
  source := file
  endOfFile := false
  consumerPos := 0
  producerPos := 0
  numberOfElements := 0
  lineNumber := 0

def main (conf : Conf) (file : Text) : State conf := start (initial file)

abbrev machine (conf : Conf) : Step (State conf) (Action (Thread conf)) Event :=
  step (body conf)

def Event.returnedValue : Event → Option Text
  | .returned buffer => some buffer
  | _ => none

def Event.storedValue : Event → Option Line
  | .stored line => some line
  | _ => none

def Event.removedValue : Event → Option Line
  | .removed line => some line
  | _ => none

def returned (es : List Event) : List Text := es.filterMap Event.returnedValue

def stored (es : List Event) : List Line := es.filterMap Event.storedValue

def removed (es : List Event) : List Line := es.filterMap Event.removedValue

@[simp] theorem returned_append (es fs : List Event) :
    returned (es++fs) = returned es ++ returned fs := List.filterMap_append

@[simp] theorem stored_append (es fs : List Event) :
    stored (es++fs) = stored es ++ stored fs := List.filterMap_append

def Printed (es : List Event) : Prop :=
  ∀ e ∈ es, e.returnedValue = none ∧ e.storedValue = none ∧ e.removedValue = none

theorem printed_values {es : List Event} (h : Printed es) :
    returned es = [] ∧ stored es = [] ∧ removed es = [] :=
  ⟨List.filterMap_eq_nil_iff.mpr fun e he => (h e he).1,
    List.filterMap_eq_nil_iff.mpr fun e he => (h e he).2.1,
    List.filterMap_eq_nil_iff.mpr fun e he => (h e he).2.2⟩

theorem announce_printed (conf : Conf) (text : Text) : Printed (announce conf text) := by
  intro e he
  unfold announce at he
  split at he <;> simp only [List.mem_singleton, List.not_mem_nil] at he
  subst he
  exact ⟨rfl, rfl, rfl⟩

theorem report_printed (conf : Conf) (line : Line) : Printed (report conf line) := by
  intro e he
  rcases List.mem_append.mp he with he | he
  · split at he <;> simp only [List.mem_singleton, List.not_mem_nil] at he
    subst he
    exact ⟨rfl, rfl, rfl⟩
  · split at he <;> simp only [List.mem_singleton, List.not_mem_nil] at he
    subst he
    exact ⟨rfl, rfl, rfl⟩

inductive Does (conf : Conf) (s : Shared) :
    Thread conf → Outcome Shared Cond Bool Event → Prop
  | waitsFull (i : Fin conf.numberOfProducers) (hn : s.numberOfElements = conf.bufferLength) :
      Does conf s (.producer i) { shared := s, exit := .waits .full }
  | stores (i : Fin conf.numberOfProducers) (hn : s.numberOfElements ≠ conf.bufferLength)
      (buffer rest : Text) (hf : fgets 1000 s.source = some (buffer, rest)) (line : Line)
      (hl : line = ⟨some (strcpy buffer), s.lineNumber+1⟩) :
      Does conf s (.producer i)
        { shared := s.store conf line rest
          exit := .returns false
          signals := if s.numberOfElements+1 = 1 then [.empty] else []
          events := .returned buffer :: .stored line :: announce conf (strcpy buffer) }
  | ends (i : Fin conf.numberOfProducers) (hs : s.source = []) :
      Does conf s (.producer i)
        { shared := { s with endOfFile := true }, exit := .returns true, signals := [.empty] }
  | idles (i : Fin conf.numberOfProducers) (hs : s.source = []) (signals : List Cond) :
      Does conf s (.producer i) { shared := s, exit := .returns false, signals := signals }
  | waitsEmpty (i : Fin conf.numberOfConsumers) (hn : s.numberOfElements = 0)
      (he : s.endOfFile = false) :
      Does conf s (.consumer i) { shared := s, exit := .waits .empty }
  | drains (i : Fin conf.numberOfConsumers) (hn : s.numberOfElements = 0)
      (he : s.endOfFile = true) (r : Bool) :
      Does conf s (.consumer i) { shared := s, exit := .returns r }
  | takes (i : Fin conf.numberOfConsumers) (hn : s.numberOfElements ≠ 0) :
      Does conf s (.consumer i)
        { shared := s.release conf
          exit := .returns false
          signals := if s.numberOfElements-1 = conf.bufferLength-1 then [.full] else []
          events := report conf (s.buffer s.consumerPos) ++
            [.removed (s.buffer s.consumerPos)] }

theorem producer_does (conf : Conf) (s : Shared) (i : Fin conf.numberOfProducers) :
    Does conf s (.producer i) (producerLogic conf s) := by
  by_cases hn : s.numberOfElements = conf.bufferLength
  · simpa [producerLogic, logic, addToBuffer, hn, Exit.map] using Does.waitsFull i hn
  cases hf : fgets 1000 s.source with
  | some p =>
    simpa [producerLogic, logic, addToBuffer, hn, hf, Exit.map] using
      Does.stores i hn p.1 p.2 hf _ rfl
  | none =>
    have hs := fgets_none.mp hf
    by_cases ht : conf.timeout = 0
    · simpa [producerLogic, logic, addToBuffer, hn, hf, ht, Exit.map] using Does.ends i hs
    · simpa [producerLogic, logic, addToBuffer, hn, hf, ht, Exit.map] using
        Does.idles i hs (if s.numberOfElements = 1 then [.empty] else [])

theorem consumer_does (conf : Conf) (s : Shared) (i : Fin conf.numberOfConsumers) :
    Does conf s (.consumer i) (consumerLogic conf s) := by
  by_cases hn : s.numberOfElements = 0
  · cases he : s.endOfFile with
    | false =>
      simpa [consumerLogic, logic, removeFromBuffer, hn, he, Exit.map] using
        Does.waitsEmpty i hn he
    | true =>
      simpa [consumerLogic, logic, removeFromBuffer, hn, he, Exit.map] using
        Does.drains i hn he (conf.timeout == 0)
  · simpa [consumerLogic, logic, removeFromBuffer, hn, Exit.map] using Does.takes i hn

theorem body_does (conf : Conf) (s : Shared) (t : Thread conf) :
    Does conf s t (body conf t s) := by
  cases t with
  | consumer i => exact consumer_does conf s i
  | producer i => exact producer_does conf s i

end Semestr4.BufferMachine
