import Semestr4.DecimalText
import Semestr4.NamedPipe
import Semestr4.ScheduledRun

/-!
# A logger behind a named pipe

Slaves write records of 255 bytes to a named pipe, each a line followed by
whatever else is in the buffer. The master opens the pipe for every line anew:
it reads a block into the buffer of a stream, prints the first line of it, and
closes the stream with the rest of the block.
-/

set_option autoImplicit false

namespace Semestr4.FifoLogger
open Semestr4.ByteText Semestr4.DecimalText Semestr4.NamedPipe Semestr4.ScheduledRun

/-- The next call of the master: `fopen`, the read inside `getline` with the
part of the line that it has, `printf` or `fclose`. A stream that was read
ahead keeps the bytes behind the line. -/
inductive Master where
  | closed
  | opening
  | reading (begun : Text)
  | printing (line ahead : Text)
  | closing (ahead : Text)
  deriving DecidableEq, Repr

inductive SlavePhase where
  | idle
  | opening
  | opened
  | written
  /-- by `SIGPIPE` -/
  | killed
  deriving DecidableEq, Repr

structure Slave where
  pid : ℕ
  phase : SlavePhase
  left : ℕ
  deriving DecidableEq, Repr

structure State where
  pipe : Pipe
  master : Master
  slaves : List Slave
  printed : List Text
  written : List Text
  deriving DecidableEq, Repr

/-- A step of the master, of a slave, or the write of a slave with what `date`
gave and what the buffer holds behind the line. -/
inductive Choice where
  | master
  | slave (i : ℕ)
  | write (i : ℕ) (date rest : Text)
  deriving DecidableEq, Repr

def recordSize : ℕ := 255

def blockSize : ℕ := 4096

def capacity : ℕ := 65536

def message (pid : ℕ) (date : Text) : Text := decimal pid++9::date++[newline]

/-- What `date` can give, and a buffer of the right size. -/
def WellFormed (pid : ℕ) (date rest : Text) : Prop :=
  newline ∉ date ∧ 0 ∉ date ∧ (message pid date).length+rest.length = recordSize

instance (pid : ℕ) (date rest : Text) : Decidable (WellFormed pid date rest) :=
  inferInstanceAs (Decidable (_ ∧ _ ∧ _))

/-- An open that waits returns when the other end is opened. -/
def Master.arrived : Master → Master
  | .opening => .reading []
  | m => m

def Slave.arrived (slave : Slave) : Slave :=
  { slave with phase := if slave.phase = .opening then .opened else slave.phase }

/-- `getline` after a read, which gave nothing at the end of the file. -/
def received (begun data : Text) : Master :=
  if newline ∈ data then
    .printing (begun++(readLine data.length data).1) (readLine data.length data).2
  else if data = [] then if begun = [] then .closing [] else .printing begun []
  else .reading (begun++data)

def masterStep (s : State) : Option State :=
  match s.master with
  | .closed => some { s with
      pipe := s.pipe.openRead
      master := if 0 < s.pipe.writers then .reading [] else .opening
      slaves := s.slaves.map Slave.arrived }
  | .opening => none
  | .reading begun => (s.pipe.read blockSize).map fun (data, pipe) =>
      { s with pipe := pipe, master := received begun data }
  | .printing line ahead =>
    some { s with printed := s.printed++[cstring line], master := .closing ahead }
  | .closing _ => some { s with pipe := s.pipe.closeRead, master := .closed }

/-- `fopen`, or the end of `fclose` after the write in it. -/
def slaveStep (s : State) (i : ℕ) : Option State :=
  match s.slaves[i]? with
  | some ⟨pid, .idle, left+1⟩ =>
    let phase := if 0 < s.pipe.readers then .opened else .opening
    some { s with
      pipe := s.pipe.openWrite
      master := s.master.arrived
      slaves := s.slaves.set i ⟨pid, phase, left+1⟩ }
  | some ⟨pid, .written, left+1⟩ =>
    some { s with pipe := s.pipe.closeWrite, slaves := s.slaves.set i ⟨pid, .idle, left⟩ }
  | _ => none

/-- The write in `fclose`. Without a reader it ends the slave. -/
def writeStep (s : State) (i : ℕ) (date rest : Text) : Option State :=
  match s.slaves[i]? with
  | some ⟨pid, .opened, left⟩ =>
    if WellFormed pid date rest then
      if s.pipe.readers = 0 then
        some { s with
          pipe := s.pipe.closeWrite
          slaves := s.slaves.set i ⟨pid, .killed, left⟩ }
      else if s.pipe.content.length+recordSize ≤ capacity then
        some { s with
          pipe := s.pipe.write (message pid date++rest)
          slaves := s.slaves.set i ⟨pid, .written, left⟩
          written := s.written++[message pid date] }
      else none
    else none
  | _ => none

def next : State → Choice → Option State
  | s, .master => masterStep s
  | s, .slave i => slaveStep s i
  | s, .write i date rest => writeStep s i date rest

def step : Step State Choice Empty := fun s a => (next s a).map fun t => (t, [])

def initial (slaves : List (ℕ × ℕ)) : State where
  pipe := .unused
  master := .closed
  slaves := slaves.map fun slave => ⟨slave.1, .idle, slave.2⟩
  printed := []
  written := []

def Master.held : Master → List Text
  | .printing line _ => [cstring line]
  | _ => []

structure Record where
  text : Text
  rest : Text
  line : ∃ body, text = body++[newline] ∧ newline ∉ body
  string : 0 ∉ text
  size : text.length+rest.length = recordSize

def Record.bytes (r : Record) : Text := r.text++r.rest

/-- Every record written is printed, read, or in the pipe as a whole, once. -/
def Delivered (s : State) : Prop :=
  ∃ waiting : List Record, s.pipe.content = (waiting.map Record.bytes).flatten ∧
    s.written = s.printed++s.master.held++waiting.map Record.text

/-- The master reads when at most one record is in the pipe, and the last end
is closed when there is none. -/
def Unhurried (s : State) : Choice → Prop
  | .master => match s.master with
    | .reading _ => s.pipe.content.length ≤ recordSize
    | .closing _ => s.pipe.KeepsOnCloseRead
    | _ => True
  | .slave i => (s.slaves[i]?).map Slave.phase = some .written → s.pipe.KeepsOnCloseWrite
  | .write _ _ _ => s.pipe.readers = 0 → s.pipe.KeepsOnCloseWrite

end Semestr4.FifoLogger
