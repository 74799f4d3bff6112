import Semestr4.BufferInvariant
import Semestr4.GatedSection

/-!
# Line search with semaphores

The search of `BufferMachine` with three semaphores in place of the mutex and
the conditions. A thread that finds the buffer full or empty leaves the section,
waits for a semaphore and posts it again for the next one.
-/

set_option autoImplicit false

namespace Semestr4.BufferGates
open Semestr4.ScheduledRun Semestr4.ByteText Semestr4.CircularBuffer Semestr4.BufferMachine
open Semestr4.GatedSection

inductive Gate where
  | emptySem
  | fullSem
  deriving DecidableEq, Repr

/-- The next statement of `addToBuffer` after `sem_wait(&sem)`. -/
inductive AddPc where
  | ifFull
  | fgets
  /-- the line is read and not yet in the buffer -/
  | store (buffer : Text)
  | count
  | setEndOfFile
  | ifOne
  /-- `sem_post(&emptySem)`, and the result to come -/
  | postEmpty (code : ℤ)
  /-- `sem_post(&sem)` -/
  | post (code : ℤ)
  /-- `sem_post(&sem)`, before the wait for `fullSem` -/
  | postFull
  deriving DecidableEq, Repr

inductive RemovePc where
  | ifEmpty
  | ifEnd
  | take
  | count
  | ifOneLess
  | postFull (code : ℤ)
  | post (code : ℤ)
  /-- `sem_post(&sem)`, before the wait for `emptySem` -/
  | postEmpty
  deriving DecidableEq, Repr

inductive SectionPc where
  | add (pc : AddPc)
  | remove (pc : RemovePc)
  deriving DecidableEq, Repr

/-- What is done to the records, and the observations that the gates are about. -/
inductive Event where
  | data (event : BufferMachine.Event)
  | endOfFile
  | found (gate : Gate)
  | passed (gate : Gate)
  deriving DecidableEq, Repr

/-- The loops of the threads return on `-1`, only without a timeout. -/
def result (conf : Conf) (code : ℤ) : Exit Gate :=
  if code = -1 ∧ conf.timeout = 0 then .stops else .again

def currentLine (s : Shared) (buffer : Text) : Line := ⟨some (strcpy buffer), s.lineNumber+1⟩

def storeLine (s : Shared) (buffer : Text) : Shared :=
  { s with
    buffer := Function.update s.buffer s.producerPos (currentLine s buffer)
    lineNumber := s.lineNumber+1 }

def countAdded (conf : Conf) (s : Shared) : Shared :=
  { s with
    numberOfElements := s.numberOfElements+1
    producerPos := advance conf.bufferLength s.producerPos }

def takeLine (s : Shared) : Shared :=
  { s with
    buffer :=
      Function.update s.buffer s.consumerPos { s.buffer s.consumerPos with text := none } }

def countRemoved (conf : Conf) (s : Shared) : Shared :=
  { s with
    consumerPos := advance conf.bufferLength s.consumerPos
    numberOfElements := s.numberOfElements-1 }

def addToBuffer (conf : Conf) (s : Shared) : AddPc → Statement Shared SectionPc Gate Event
  | .ifFull =>
    if s.numberOfElements = conf.bufferLength then .goes s (.add .postFull) [.found .fullSem]
    else .goes s (.add .fgets) []
  | .fgets => match ByteText.fgets 1000 s.source with
    | some (buffer, rest) =>
      .goes { s with source := rest } (.add (.store buffer)) [.data (.returned buffer)]
    | none => .goes s (.add (if conf.timeout = 0 then .setEndOfFile else .ifOne)) []
  | .store buffer =>
    .goes (storeLine s buffer) (.add .count)
      (.data (.stored (currentLine s buffer))::(announce conf (strcpy buffer)).map .data)
  | .count => .goes (countAdded conf s) (.add .ifOne) []
  | .setEndOfFile => .goes { s with endOfFile := true } (.add (.postEmpty (-1))) [.endOfFile]
  | .ifOne => .goes s (.add (if s.numberOfElements = 1 then .postEmpty 0 else .post 0)) []
  | .postEmpty code => .posts .emptySem (.add (.post code))
  | .post code => .leaves (result conf code)
  | .postFull => .leaves (.turns .fullSem)

def removeFromBuffer (conf : Conf) (s : Shared) :
    RemovePc → Statement Shared SectionPc Gate Event
  | .ifEmpty =>
    if s.numberOfElements = 0 ∧ s.endOfFile = false then
      .goes s (.remove .postEmpty) [.found .emptySem]
    else .goes s (.remove .ifEnd) []
  | .ifEnd =>
    .goes s (.remove
      (if s.endOfFile = true ∧ s.numberOfElements = 0 then .post (-1) else .take)) []
  | .take =>
    let line := s.buffer s.consumerPos
    .goes (takeLine s) (.remove .count)
      ((report conf line++[BufferMachine.Event.removed line]).map .data)
  | .count => .goes (countRemoved conf s) (.remove .ifOneLess) []
  | .ifOneLess =>
    .goes s (.remove
      (if s.numberOfElements = conf.bufferLength-1 then .postFull 0 else .post 0)) []
  | .postFull code => .posts .fullSem (.remove (.post code))
  | .post code => .leaves (result conf code)
  | .postEmpty => .leaves (.turns .emptySem)

def search (conf : Conf) : Program Shared (Thread conf) SectionPc Gate Event where
  entry
    | .producer _ => .add .ifFull
    | .consumer _ => .remove .ifEmpty
  body
    | .add pc, s => addToBuffer conf s pc
    | .remove pc, s => removeFromBuffer conf s pc
  passed := .passed

abbrev State (conf : Conf) := World Shared (Thread conf) SectionPc Gate

def initialValue : Gate → ℕ
  | .emptySem => 0
  | .fullSem => 1

def main (conf : Conf) (file : Text) : State conf := start (initial file) initialValue

abbrev machine (conf : Conf) : Step (State conf) (Thread conf) (Thread conf × Event) :=
  step (search conf)

inductive Runs (conf : Conf) (s : Shared) :
    SectionPc → Statement Shared SectionPc Gate Event → Prop
  | full (hn : s.numberOfElements = conf.bufferLength) :
      Runs conf s (.add .ifFull) (.goes s (.add .postFull) [.found .fullSem])
  | room (hn : s.numberOfElements ≠ conf.bufferLength) :
      Runs conf s (.add .ifFull) (.goes s (.add .fgets) [])
  | reads (buffer rest : Text) (hf : ByteText.fgets 1000 s.source = some (buffer, rest)) :
      Runs conf s (.add .fgets)
        (.goes { s with source := rest } (.add (.store buffer)) [.data (.returned buffer)])
  | ends (hs : s.source = []) : Runs conf s (.add .fgets) (.goes s (.add .setEndOfFile) [])
  | idles (hs : s.source = []) : Runs conf s (.add .fgets) (.goes s (.add .ifOne) [])
  | stores (buffer : Text) :
      Runs conf s (.add (.store buffer)) (.goes (storeLine s buffer) (.add .count)
        (.data (.stored (currentLine s buffer))::(announce conf (strcpy buffer)).map .data))
  | added : Runs conf s (.add .count) (.goes (countAdded conf s) (.add .ifOne) [])
  | raises : Runs conf s (.add .setEndOfFile)
      (.goes { s with endOfFile := true } (.add (.postEmpty (-1))) [.endOfFile])
  | one (hn : s.numberOfElements = 1) :
      Runs conf s (.add .ifOne) (.goes s (.add (.postEmpty 0)) [])
  | more : Runs conf s (.add .ifOne) (.goes s (.add (.post 0)) [])
  | postsEmpty (code : ℤ) :
      Runs conf s (.add (.postEmpty code)) (.posts .emptySem (.add (.post code)))
  | returnsAdd (code : ℤ) : Runs conf s (.add (.post code)) (.leaves (result conf code))
  | turnsFull : Runs conf s (.add .postFull) (.leaves (.turns .fullSem))
  | empty (hn : s.numberOfElements = 0) (he : s.endOfFile = false) :
      Runs conf s (.remove .ifEmpty) (.goes s (.remove .postEmpty) [.found .emptySem])
  | present (h : ¬ (s.numberOfElements = 0 ∧ s.endOfFile = false)) :
      Runs conf s (.remove .ifEmpty) (.goes s (.remove .ifEnd) [])
  | drained (h : s.endOfFile = true ∧ s.numberOfElements = 0) :
      Runs conf s (.remove .ifEnd) (.goes s (.remove (.post (-1))) [])
  | continues (h : ¬ (s.endOfFile = true ∧ s.numberOfElements = 0)) :
      Runs conf s (.remove .ifEnd) (.goes s (.remove .take) [])
  | takes : Runs conf s (.remove .take) (.goes (takeLine s) (.remove .count)
      ((report conf (s.buffer s.consumerPos)++
        [BufferMachine.Event.removed (s.buffer s.consumerPos)]).map .data))
  | removed :
      Runs conf s (.remove .count) (.goes (countRemoved conf s) (.remove .ifOneLess) [])
  | oneLess : Runs conf s (.remove .ifOneLess) (.goes s (.remove (.postFull 0)) [])
  | less : Runs conf s (.remove .ifOneLess) (.goes s (.remove (.post 0)) [])
  | postsFull (code : ℤ) :
      Runs conf s (.remove (.postFull code)) (.posts .fullSem (.remove (.post code)))
  | returnsRemove (code : ℤ) : Runs conf s (.remove (.post code)) (.leaves (result conf code))
  | turnsEmpty : Runs conf s (.remove .postEmpty) (.leaves (.turns .emptySem))

section Statements
variable {conf : Conf} {s : Shared} {p q : SectionPc} {x : Statement Shared SectionPc Gate Event}

theorem add_runs (conf : Conf) (s : Shared) (pc : AddPc) :
    Runs conf s (.add pc) (addToBuffer conf s pc) := by
  cases pc with
  | ifFull =>
    simp only [addToBuffer]
    split
    · exact .full ‹_›
    · exact .room ‹_›
  | fgets =>
    simp only [addToBuffer]
    split
    · exact .reads _ _ ‹_›
    · rename_i hf
      split
      · exact .ends (fgets_none.mp hf)
      · exact .idles (fgets_none.mp hf)
  | store buffer => exact .stores buffer
  | count => exact .added
  | setEndOfFile => exact .raises
  | ifOne =>
    simp only [addToBuffer]
    split
    · exact .one ‹_›
    · exact .more
  | postEmpty code => exact .postsEmpty code
  | post code => exact .returnsAdd code
  | postFull => exact .turnsFull

theorem remove_runs (conf : Conf) (s : Shared) (pc : RemovePc) :
    Runs conf s (.remove pc) (removeFromBuffer conf s pc) := by
  cases pc with
  | ifEmpty =>
    simp only [removeFromBuffer]
    split
    · rename_i h
      exact .empty h.1 h.2
    · exact .present ‹_›
  | ifEnd =>
    simp only [removeFromBuffer]
    split
    · exact .drained ‹_›
    · exact .continues ‹_›
  | take => exact .takes
  | count => exact .removed
  | ifOneLess =>
    simp only [removeFromBuffer]
    split
    · exact .oneLess
    · exact .less
  | postFull code => exact .postsFull code
  | post code => exact .returnsRemove code
  | postEmpty => exact .turnsEmpty

theorem runs (h : (search conf).body p s = x) : Runs conf s p x := by
  subst h
  cases p with
  | add pc => exact add_runs conf s pc
  | remove pc => exact remove_runs conf s pc

theorem goes_ended {s' : Shared} {fs : List Event} (h : (search conf).body p s = .goes s' q fs) :
    s'.endOfFile = s.endOfFile ∨ s'.endOfFile = true ∧ q = .add (.postEmpty (-1)) := by
  cases runs h with
  | raises => exact Or.inr ⟨rfl, rfl⟩
  | _ => exact Or.inl rfl

/-- Producers run `addToBuffer` and wait for `fullSem` only, consumers run
`removeFromBuffer` and wait for `emptySem` only. -/
def Fits : Thread conf → Pc SectionPc Gate → Prop
  | .producer _, .inside (.remove _) => False
  | .producer _, .wait .emptySem => False
  | .consumer _, .inside (.add _) => False
  | .consumer _, .wait .fullSem => False
  | _, _ => True

theorem result_fits (t : Thread conf) (code : ℤ) : Fits t (result conf code).pc := by
  unfold result
  split <;> cases t <;> trivial

theorem fits {file : Text} {w : State conf} (hr : Reachable (machine conf) (main conf file) w)
    (t : Thread conf) : Fits t (w.pc t) := by
  refine pc_induction Fits (initial file) initialValue ?_ ?_ ?_ ?_ ?_ ?_ hr t
  · intro t
    cases t <;> trivial
  · intro t
    cases t <;> trivial
  · intro t p s s' q fs hp hb
    cases runs hb <;> cases t <;> exact hp
  · intro t p s gate q hp hb
    cases runs hb <;> cases t <;> exact hp
  · intro t p s exit hp hb
    cases runs hb with
    | returnsAdd code => exact result_fits t code
    | returnsRemove code => exact result_fits t code
    | turnsFull => cases t <;> exact hp
    | turnsEmpty => cases t <;> exact hp
  · intro t gate _
    cases t <;> trivial

end Statements

end Semestr4.BufferGates
