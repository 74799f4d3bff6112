import Semestr4.BatchInterpreter
import Semestr4.StringHeap

/-!
# The programs of a pipeline

A line is cut into programs at its bars, and every program into words at its
spaces. A string that holds a newline is copied without its last character into a
block of its own. Blocks are not given back, and what the arrays of pointers take
up is not modelled. Forks succeed.
-/

set_option autoImplicit false

namespace Semestr4.PipelineParsing
open Semestr4.ByteText Semestr4.StrtokMemory Semestr4.StringHeap
open Semestr4.DecimalText hiding strtok
open Semestr4.BatchInterpreter (Word ScriptLine space spaces)

def bar : UInt8 := 124

/-- A string with a newline is replaced by a copy. -/
def deleteNewline (p : ℕ) (m : Memory) : ℕ × Memory :=
  let s := m.string p
  if newline ∈ s then (m.bytes.length, grow (s.take (s.length-1)++[0, 0]) m) else (p, m)

def deleteNewlines : List ℕ → Memory → List ℕ × Memory
  | [], m => ([], m)
  | p::ps, m =>
    let (q, m) := deleteNewline p m
    let (qs, m) := deleteNewlines ps m
    (q::qs, m)

/-- The array of pointers with the number of tokens. No string has more tokens
than memory has bytes. -/
def prepareArguments (program : Option ℕ) (separator : Text) (asciiz : Bool) (m : Memory) :
    Option ((List (Option ℕ) × ℕ) × Memory) :=
  let p := strtok separator program m
  (rest separator m.bytes.length p.1 p.2).map fun (found, m) =>
    let (arguments, m) := deleteNewlines found m
    ((arguments.map some++(if asciiz then [none] else []), found.length), m)

/-- The vectors that the children see, a null pointer as `none`. -/
def children : List (Option ℕ) → Memory → Option (List (List (Option Text)) × Memory)
  | [], m => some ([], m)
  | program::programs, m => do
    let ((arguments, _), m) ← prepareArguments program [space] true m
    let (vectors, m') ← children programs m
    return (arguments.map (Option.map m.string)::vectors, m')

structure Process where
  memory : Memory
  buffer : ℕ
  bufSize : ℕ

def Process.Room (s : Process) : Prop := s.buffer+s.bufSize ≤ s.memory.bytes.length

/-- A line that does not fit moves the buffer. -/
def getline (line : Text) (s : Process) : Process :=
  let m := s.memory
  if line.length < s.bufSize then { s with memory := write s.buffer line m }
  else { memory := grow (line++[0]) m, buffer := m.bytes.length, bufSize := line.length+1 }

def execute (line : Text) (s : Process) : Option (List (List (Option Text)) × Process) := do
  let s := getline line s
  let ((programs, n_spaces2), m) ← prepareArguments (some s.buffer) [bar] false s.memory
  let (vectors, m) ← children (programs.take n_spaces2) m
  return (vectors, { s with memory := m })

def readAndExecute : List Text → Process → Option (List (List (List (Option Text))))
  | [], _ => some []
  | line::lines, s => do
    let (vectors, s) ← execute line s
    let later ← readAndExecute lines s
    return vectors::later

def start : Process := ⟨⟨List.replicate 100 0, 0⟩, 0, 100⟩

structure Program extends ScriptLine where
  inside : ended = false
  barless : bar ∉ toScriptLine.text

structure PipeLine where
  first : Program
  others : List Program
  ended : Bool

def PipeLine.programs (s : PipeLine) : List Program := s.first::s.others

def piped (others : List Program) (ended : Bool) : Text :=
  others.flatMap (fun p => bar::p.text)++if ended then [newline] else []

def PipeLine.text (s : PipeLine) : Text := s.first.text++piped s.others s.ended

structure Parsed (s : PipeLine) (vectors : List (List (Option Text))) : Prop where
  words : vectors = s.programs.map fun p => p.words.map some++[none]
  plain : ∀ vector ∈ vectors, ∀ w, some w ∈ vector → newline ∉ w

def withoutNewline (s : Text) : Text := if newline ∈ s then s.take (s.length-1) else s

theorem deleteNewline_spec {p : ℕ} {ps : List ℕ} {m : Memory} (h : Separate m (p::ps)) :
    ∃ q m', deleteNewline p m = (q, m') ∧ m'.string q = withoutNewline (m.string p) ∧
      Separate m' (q::ps) ∧ Keeps m m' := by
  by_cases hmem : newline ∈ m.string p
  · refine ⟨_, _, if_pos hmem, ?_, h.tail.block _ [0], grow_keeps _ m⟩
    have hzero : 0 ∉ (m.string p).take ((m.string p).length-1) :=
      fun hmem => string_no_zero m p (List.mem_of_mem_take hmem)
    rw [string_block, cstring_self hzero, withoutNewline, if_pos hmem]
  · refine ⟨p, m, if_neg hmem, ?_, h, Keeps.refl m⟩
    rw [withoutNewline, if_neg hmem]

theorem deleteNewlines_spec {ps done : List ℕ} {m : Memory} (h : Separate m (ps++done)) :
    ∃ qs m', deleteNewlines ps m = (qs, m') ∧
      qs.map m'.string = ps.map (fun p => withoutNewline (m.string p)) ∧
      Separate m' (qs++done) ∧ Keeps m m' := by
  induction ps generalizing m done with
  | nil => exact ⟨[], m, rfl, rfl, h, Keeps.refl m⟩
  | cons p ps ih =>
    obtain ⟨q, m₁, hq, hstring, hseparate, hkeeps⟩ := deleteNewline_spec h
    obtain ⟨qs, m', hqs, hstrings, hall, hkeeps'⟩ := ih (hseparate.perm List.perm_middle.symm)
    refine ⟨q::qs, m', ?_, ?_, hall.perm List.perm_middle, hkeeps.trans hkeeps'⟩
    · rw [deleteNewlines, hq]
      simp only [hqs]
    · have hps : ∀ r ∈ ps, m₁.string r = m.string r := fun r hr => hkeeps.strings r
        (h.terminated r (List.mem_cons_of_mem _ (List.mem_append_left _ hr)))
      rw [List.map_cons, List.map_cons, hstrings,
        hkeeps'.strings q (hseparate.terminated q (List.mem_cons_self ..)), hstring]
      exact congrArg _ (List.map_congr_left fun r hr => by rw [hps r hr])

/-- The tokens without newlines, and nothing else in memory has changed. -/
theorem prepareArguments_spec {m : Memory} {p : ℕ} (h : Terminated m p) (separator : Text)
    (asciiz : Bool) : ∃ qs m', prepareArguments (some p) separator asciiz m =
        some ((qs.map some++(if asciiz then [none] else []), qs.length), m') ∧
      qs.map m'.string = (words separator (m.string p)).map withoutNewline ∧
      Separate m' qs ∧ Frame m m' p := by
  obtain ⟨ps, m₁, hpointers, hwords, hseparate, hframe⟩ := pointers_separate separator h
  rw [← List.append_nil ps] at hseparate
  obtain ⟨qs, m', hqs, hstrings, hall, hkeeps⟩ := deleteNewlines_spec hseparate
  rw [List.append_nil] at hall
  refine ⟨qs, m', ?_, ?_, hall, hframe.keeps hkeeps⟩
  · have hlength := congrArg List.length hstrings
    rw [List.length_map, List.length_map] at hlength
    rw [pointers] at hpointers
    rw [prepareArguments, hpointers, Option.map_some]
    simp only [hqs, hlength]
  · rw [hstrings, ← hwords, List.map_map]
    rfl

def vector (program : Text) : List (Option Text) :=
  ((words [space] program).map withoutNewline).map some++[none]

theorem children_spec {m : Memory} {ps : List ℕ} (h : Separate m ps) :
    ∃ m', children (ps.map some) m = some (ps.map fun p => vector (m.string p), m') ∧
      m.bytes.length ≤ m'.bytes.length := by
  induction ps generalizing m with
  | nil => exact ⟨m, rfl, le_refl _⟩
  | cons p ps ih =>
    obtain ⟨qs, m₁, hprepare, hstrings, -, hframe⟩ :=
      prepareArguments_spec (h.terminated p (List.mem_cons_self ..)) [space] true
    obtain ⟨hseparate, hkept⟩ := h.frame hframe
    obtain ⟨m', hchildren, hsize⟩ := ih hseparate
    refine ⟨m', ?_, hframe.size.trans hsize⟩
    have hvectors : (ps.map fun q => vector (m₁.string q)) = ps.map fun q => vector (m.string q) :=
      List.map_congr_left fun q hq => by rw [hkept q hq]
    rw [List.map_cons, children, hprepare, Option.bind_eq_bind, Option.bind_some]
    simp only [hchildren, Option.bind_eq_bind, Option.bind_some]
    rw [hvectors, List.map_cons, vector, ← hstrings]
    simp

theorem getline_spec {s : Process} (h : s.Room) (line : Text) :
    (getline line s).memory.string (getline line s).buffer = cstring line ∧
      Terminated (getline line s).memory (getline line s).buffer ∧ (getline line s).Room := by
  unfold Process.Room at h
  by_cases hfits : line.length < s.bufSize
  · have hroom : s.buffer+line.length < s.memory.bytes.length :=
      (Nat.add_lt_add_left hfits _).trans_le h
    rw [getline, if_pos hfits]
    refine ⟨string_write (by omega) line, write_terminated hroom, ?_⟩
    rw [Process.Room, write_size hroom]
    exact h
  · rw [getline, if_neg hfits]
    refine ⟨string_block line [] s.memory, block_terminated line [] s.memory, ?_⟩
    rw [Process.Room, grow_size, List.length_append]
    exact le_refl _

theorem execute_spec {s : Process} (h : s.Room) (line : Text) :
    ∃ s', execute line s =
      some (((words [bar] (cstring line)).map withoutNewline).map vector, s') ∧ s'.Room := by
  obtain ⟨hstring, hterminated, hroom⟩ := getline_spec h line
  obtain ⟨qs, m, hprepare, hstrings, hseparate, hframe⟩ :=
    prepareArguments_spec hterminated [bar] false
  obtain ⟨m', hchildren, hsize⟩ := children_spec hseparate
  have htake : (qs.map some++(if false then [none] else [])).take qs.length = qs.map some := by
    rw [if_neg Bool.false_ne_true, List.append_nil]
    exact List.take_of_length_le (List.length_map _).le
  refine ⟨{ getline line s with memory := m' }, ?_, hroom.trans (hframe.size.trans hsize)⟩
  rw [execute, hprepare, Option.bind_eq_bind, Option.bind_some]
  simp only [htake, hchildren, Option.bind_eq_bind, Option.bind_some]
  rw [← hstring, ← hstrings, List.map_map]
  rfl

theorem withoutNewline_self {s : Text} (h : newline ∉ s) : withoutNewline s = s := if_neg h

theorem withoutNewline_ended (s : Text) : withoutNewline (s++[newline]) = s := by
  rw [withoutNewline, if_pos (List.mem_append_right _ (List.mem_singleton_self _)),
    List.length_append]
  exact List.take_left

theorem withoutNewline_word (w : Word) : withoutNewline w.text = w.text :=
  withoutNewline_self fun h => (w.plain newline h).2 rfl

theorem words_no_newline {s : ScriptLine} {w : Text} (hw : w ∈ s.words) : newline ∉ w := by
  rcases List.mem_cons.mp hw with rfl | hw
  · exact fun h => (s.first.plain newline h).2 rfl
  · obtain ⟨o, -, rfl⟩ := List.mem_map.mp hw
    exact fun h => (o.2.plain newline h).2 rfl

namespace Program
variable (p : Program)

theorem no_newline : newline ∉ p.text := by
  intro h
  rcases BatchInterpreter.mem_text h with heq | ⟨-, hended⟩ | ⟨w, hw, hmem⟩
  · cases heq
  · rw [p.inside] at hended
    cases hended
  · exact words_no_newline hw hmem

theorem nonempty : p.text ≠ [] := fun h => by
  simp only [ScriptLine.text, List.append_eq_nil_iff] at h
  exact p.first.nonempty h.2.1

theorem no_bar : ∀ b ∈ p.text, b ∉ [bar] := by
  rintro b hb hbar
  exact p.barless (List.mem_singleton.mp hbar ▸ hb)

theorem words_text : (words [space] p.text).map withoutNewline = p.words := by
  have hrest : ∀ w : Word, (words [space] (w.text++p.rest)).map withoutNewline = [w.text] := by
    intro w
    have hwords : words [space] (w.text++(spaces p.after++[])) = [w.text] := by
      cases p.after with
      | zero =>
        change words [space] (w.text++[]) = _
        rw [List.append_nil, words_last w.nonempty w.no_space]
      | succ n =>
        rw [w.words_spaces]
        rfl
    rw [ScriptLine.rest, p.inside, if_neg Bool.false_ne_true, hwords, List.map_singleton,
      withoutNewline_word]
  rw [ScriptLine.text, BatchInterpreter.words_spaces,
    BatchInterpreter.words_following withoutNewline_word hrest, List.append_nil]
  rfl

end Program

theorem words_piped (p : Program) (others : List Program) (ended : Bool) :
    (words [bar] (p.text++piped others ended)).map withoutNewline =
      (p::others).map fun p => p.text := by
  induction others generalizing p with
  | nil =>
    cases ended with
    | false =>
      change (words [bar] (p.text++[])).map _ = _
      rw [List.append_nil, words_last p.nonempty p.no_bar]
      exact congrArg (· ::[]) (withoutNewline_self p.no_newline)
    | true =>
      have hplain : ∀ b ∈ p.text++[newline], b ∉ [bar] := by
        rw [List.forall_mem_append]
        exact ⟨p.no_bar, by simp [newline, bar]⟩
      change (words [bar] (p.text++[newline])).map _ = _
      rw [words_last (List.append_ne_nil_of_left_ne_nil p.nonempty _) hplain]
      exact congrArg (· ::[]) (withoutNewline_ended _)
  | cons q others ih =>
    have hpiped : piped (q::others) ended = bar::(q.text++piped others ended) := by
      simp [piped]
    rw [hpiped, words_token p.nonempty p.no_bar (List.mem_singleton_self _), List.map_cons, ih,
      withoutNewline_self p.no_newline]
    rfl

theorem execute_line {s : PipeLine} (hzero : 0 ∉ s.text) {process : Process} (h : process.Room) :
    ∃ process', execute s.text process =
      some (s.programs.map fun p => p.words.map some++[none], process') ∧ process'.Room := by
  obtain ⟨process', hexecute, hroom⟩ := execute_spec h s.text
  refine ⟨process', ?_, hroom⟩
  rw [hexecute, cstring_self hzero, PipeLine.text, words_piped, List.map_map]
  refine congrArg (fun vectors => some (vectors, process')) (List.map_congr_left fun p _ => ?_)
  rw [Function.comp, vector, p.words_text]

theorem children_no_zero {programs : List (Option ℕ)} {m m' : Memory}
    {vectors : List (List (Option Text))} (h : children programs m = some (vectors, m')) :
    ∀ vector ∈ vectors, ∀ w, some w ∈ vector → 0 ∉ w := by
  induction programs generalizing m vectors with
  | nil =>
    cases h
    simp
  | cons program programs ih =>
    obtain ⟨⟨⟨arguments, n⟩, m₁⟩, -, h⟩ := Option.bind_eq_some_iff.mp h
    obtain ⟨⟨later, m₂⟩, hlater, heq⟩ := Option.bind_eq_some_iff.mp h
    cases heq
    rw [List.forall_mem_cons]
    refine ⟨fun w hw => ?_, ih hlater⟩
    obtain ⟨p, -, hp⟩ := List.mem_map.mp hw
    obtain ⟨q, -, rfl⟩ := Option.map_eq_some_iff.mp hp
    exact string_no_zero m₁ q

theorem execute_no_zero {line : Text} {s s' : Process} {vectors : List (List (Option Text))}
    (h : execute line s = some (vectors, s')) :
    ∀ vector ∈ vectors, ∀ w, some w ∈ vector → 0 ∉ w := by
  obtain ⟨⟨⟨programs, n⟩, m⟩, -, h⟩ := Option.bind_eq_some_iff.mp h
  obtain ⟨⟨found, m'⟩, hchildren, heq⟩ := Option.bind_eq_some_iff.mp h
  cases heq
  exact children_no_zero hchildren

theorem mem_piped {others : List Program} {ended : Bool} (h : 0 ∈ piped others ended) :
    ∃ p ∈ others, 0 ∈ p.text := by
  rcases List.mem_append.mp h with h | h
  · obtain ⟨p, hp, h⟩ := List.mem_flatMap.mp h
    rcases List.mem_cons.mp h with heq | h
    · cases heq
    · exact ⟨p, hp, h⟩
  · cases ended with
    | false => cases h
    | true => cases List.mem_singleton.mp h

theorem zero_in_word {s : PipeLine} (h : 0 ∈ s.text) :
    ∃ p ∈ s.programs, ∃ w ∈ p.words, 0 ∈ w := by
  have hprogram : ∃ p ∈ s.programs, 0 ∈ p.text := by
    rcases List.mem_append.mp h with h | h
    · exact ⟨s.first, List.mem_cons_self .., h⟩
    · obtain ⟨p, hp, h⟩ := mem_piped h
      exact ⟨p, List.mem_cons_of_mem _ hp, h⟩
  obtain ⟨p, hp, h⟩ := hprogram
  rcases BatchInterpreter.mem_text h with heq | ⟨heq, -⟩ | hword
  · cases heq
  · cases heq
  · exact ⟨p, hp, hword⟩

theorem start_room : start.Room := (List.length_replicate ..).ge

/-- The vectors are those of the programs if and only if the line has no null byte. -/
theorem line_parsed_iff (s : PipeLine) (process : Process) (h : process.Room) :
    (∃ vectors process', execute s.text process = some (vectors, process') ∧ Parsed s vectors) ↔
      0 ∉ s.text := by
  constructor
  · rintro ⟨vectors, process', hexecute, hparsed⟩ hzero
    obtain ⟨p, hp, w, hw, hmem⟩ := zero_in_word hzero
    have hvector : p.words.map some++[none] ∈ vectors := by
      rw [hparsed.words]
      exact List.mem_map_of_mem hp
    exact execute_no_zero hexecute _ hvector w
      (List.mem_append_left _ (List.mem_map_of_mem hw)) hmem
  · intro hzero
    obtain ⟨process', hexecute, -⟩ := execute_line hzero h
    refine ⟨_, process', hexecute, rfl, fun vector hvector w hw => ?_⟩
    obtain ⟨p, -, rfl⟩ := List.mem_map.mp hvector
    have hmem : w ∈ p.words := by simpa using hw
    exact words_no_newline hmem

def ls : Program where
  before := 0
  first := BatchInterpreter.ls
  others := []
  after := 1
  ended := false
  inside := rfl
  barless := by decide

/-- `ls | ls`, where the second program has its newline behind a space. -/
theorem line_parsed_ls : (∃ vectors process',
    execute (PipeLine.text ⟨ls, [ls], true⟩) start = some (vectors, process') ∧
      Parsed ⟨ls, [ls], true⟩ vectors) ↔ 0 ∉ PipeLine.text ⟨ls, [ls], true⟩ :=
  line_parsed_iff ⟨ls, [ls], true⟩ start start_room

def cutOff : Program where
  before := 0
  first := ⟨[97, 0, 98], by simp, by simp [space, newline]⟩
  others := []
  after := 0
  ended := false
  inside := rfl
  barless := by decide

theorem null_byte_ends : ¬∀ (s : PipeLine) (process : Process), process.Room →
    ∃ vectors process', execute s.text process = some (vectors, process') ∧
      Parsed s vectors := by
  intro h
  obtain ⟨vectors, process', hexecute, hparsed⟩ := h ⟨cutOff, [], true⟩ start start_room
  have hrun : (execute (PipeLine.text ⟨cutOff, [], true⟩) start).map Prod.fst =
      some [[some [97], none]] := by decide +kernel
  rw [hexecute] at hrun
  obtain rfl : vectors = [[some [97], none]] := Option.some_inj.mp hrun
  exact absurd hparsed.words (by decide)

theorem script_parsed (lines : List PipeLine) (hzero : ∀ s ∈ lines, 0 ∉ s.text)
    {process : Process} (h : process.Room) :
    readAndExecute (lines.map PipeLine.text) process =
      some (lines.map fun s => s.programs.map fun p => p.words.map some++[none]) := by
  induction lines generalizing process with
  | nil => rfl
  | cons s lines ih =>
    rw [List.forall_mem_cons] at hzero
    obtain ⟨process', hexecute, hroom⟩ := execute_line hzero.1 h
    rw [List.map_cons, readAndExecute, hexecute, Option.bind_eq_bind, Option.bind_some]
    simp only [ih hzero.2 hroom]
    rfl

end Semestr4.PipelineParsing
