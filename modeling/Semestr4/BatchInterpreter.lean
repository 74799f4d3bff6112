import Semestr4.StrtokMemory

/-!
# The batch interpreter

Every line of a script is cut into words at its spaces, and then each word is cut
once more at a newline.
-/

set_option autoImplicit false

namespace Semestr4.BatchInterpreter
open Semestr4.ByteText Semestr4.DecimalText Semestr4.StrtokMemory

def space : UInt8 := 32

/-- The size of the buffer after `getline` has read a line into it. -/
def getline (bufSize : ℕ) (line : Text) : ℕ := max bufSize (line.length+1)

/-- `calloc` and `strcpy` of the buffer. -/
def bufferCopy (bufSize : ℕ) (line : Text) : Text :=
  strcpy line++List.replicate (bufSize-(strcpy line).length) 0

/-- The vector passed to `execv` up to its null pointer, which is cut as well. -/
def arguments (bufSize : ℕ) (line : Text) : Option (List Text) :=
  (pointers [space] bufSize 0 ⟨bufferCopy bufSize line, 0⟩).map fun found =>
    found.1.map (each [newline] (found.1.map some++[none]) found.2).string

/-- The vectors of the lines, up to a command that does not succeed. -/
def readAndExecute (succeeds : List Text → Bool) : ℕ → List Text → Option (List (List Text))
  | _, [] => some []
  | bufSize, line::lines => do
    let vector ← arguments (getline bufSize line) line
    if succeeds vector then
      (readAndExecute succeeds (getline bufSize line) lines).map (vector::·)
    else some [vector]

structure Word where
  text : Text
  nonempty : text ≠ []
  plain : ∀ b ∈ text, b ≠ space ∧ b ≠ newline

structure ScriptLine where
  before : ℕ
  first : Word
  others : List (ℕ × Word)
  after : ℕ
  ended : Bool

def spaces (n : ℕ) : Text := List.replicate n space

def ScriptLine.words (s : ScriptLine) : List Text := s.first.text::s.others.map fun o => o.2.text

def ScriptLine.rest (s : ScriptLine) : Text :=
  spaces s.after++if s.ended then [newline] else []

def following (others : List (ℕ × Word)) : Text :=
  others.flatMap fun o => spaces (o.1+1)++o.2.text

def ScriptLine.text (s : ScriptLine) : Text :=
  spaces s.before++(s.first.text++(following s.others++s.rest))

theorem strcpy_length_le (line : Text) : (strcpy line).length ≤ line.length :=
  (List.takeWhile_sublist _).length_le

theorem string_bufferCopy {bufSize : ℕ} {line : Text} (h : line.length < bufSize) (saved : ℕ) :
    Memory.string ⟨bufferCopy bufSize line, saved⟩ 0 = strcpy line := by
  have hle := strcpy_length_le line
  have hzero : 0 ∉ strcpy line := fun hmem => by simpa using List.mem_takeWhile_imp hmem
  obtain ⟨n, hn⟩ := Nat.exists_eq_succ_of_ne_zero (Nat.sub_ne_zero_of_lt (hle.trans_lt h))
  change cstring (strcpy line++List.replicate (bufSize-(strcpy line).length) 0) = _
  rw [hn, cstring_append hzero]
  exact List.append_nil _

theorem arguments_eq {bufSize : ℕ} {line : Text} (h : line.length < bufSize) :
    arguments bufSize line = some ((words [space] (strcpy line)).map (cut [newline])) := by
  have hstring := string_bufferCopy h 0
  obtain ⟨ps, m', hpointers, hcuts⟩ := pointers_cuts [space] bufSize 0
    ⟨bufferCopy bufSize line, 0⟩ (by rw [hstring]; exact (strcpy_length_le line).trans h.le)
  have heach := each_strings [newline] ps 1 m' hcuts.apart
  rw [arguments, hpointers, Option.map_some, Option.some_inj, ← hstring, ← hcuts.strings,
    List.map_map]
  exact heach

theorem words_spaces (n : ℕ) (s : Text) : words [space] (spaces n++s) = words [space] s := by
  induction n with
  | zero => rfl
  | succ n ih =>
    rw [spaces, List.replicate_succ, List.cons_append, words_delim (by simp)]
    exact ih

namespace Word
variable (w : Word)

theorem no_space : ∀ b ∈ w.text, b ∉ [space] := fun b hb => by
  simpa using (w.plain b hb).1

theorem no_newline : ∀ b ∈ w.text, b ∉ [newline] := fun b hb => by
  simpa using (w.plain b hb).2

theorem cut_text (s : Text) (hs : s.takeWhile (· ∉ [newline]) = []) :
    cut [newline] (w.text++s) = w.text := by
  have hcontinues : Continues [newline] (w.text++s) := by
    cases htext : w.text with
    | nil => exact absurd htext w.nonempty
    | cons b text => exact w.no_newline b (htext ▸ List.mem_cons_self ..)
  have hall : ∀ b ∈ w.text, decide (b ∉ [newline]) = true :=
    fun b hb => decide_eq_true (w.no_newline b hb)
  rw [cut_continues hcontinues, List.takeWhile_append_of_pos hall, hs, List.append_nil]

theorem cut_self : cut [newline] w.text = w.text := by
  have hcut := w.cut_text [] rfl
  rwa [List.append_nil] at hcut

theorem words_plain {s : Text} (h : ∀ b ∈ s, b ∉ [space]) :
    words [space] (w.text++s) = [w.text++s] :=
  words_last (List.append_ne_nil_of_left_ne_nil w.nonempty s)
    (List.forall_mem_append.mpr ⟨w.no_space, h⟩)

theorem words_spaces (n : ℕ) (s : Text) :
    words [space] (w.text++(spaces (n+1)++s)) = w.text::words [space] s := by
  rw [spaces, List.replicate_succ, List.cons_append,
    words_token w.nonempty w.no_space (List.mem_singleton.mpr rfl)]
  exact congrArg _ (BatchInterpreter.words_spaces n s)

end Word

/-- A newline that stands behind a space is a token of its own and is not cut off. -/
def extra (s : ScriptLine) : List Text := if s.ended ∧ 0 < s.after then [[newline]] else []

theorem words_rest (w : Word) (s : ScriptLine) :
    (words [space] (w.text++s.rest)).map (cut [newline]) = w.text::extra s := by
  rw [ScriptLine.rest, extra]
  cases hafter : s.after with
  | zero =>
    have hspace : ∀ b ∈ (if s.ended then [newline] else []), b ∉ [space] := by
      cases s.ended <;> simp [newline, space]
    have hstop : (if s.ended then [newline] else []).takeWhile (· ∉ [newline]) = [] := by
      cases s.ended <;> rfl
    change (words [space] (w.text++if s.ended then [newline] else [])).map _ = _
    rw [w.words_plain hspace, List.map_singleton, w.cut_text _ hstop]
    simp
  | succ n =>
    rw [w.words_spaces, List.map_cons, w.cut_self]
    cases s.ended <;> rfl

theorem words_following {rest : Text} {tail : List Text} {f : Text → Text}
    (hf : ∀ w : Word, f w.text = w.text)
    (hrest : ∀ w : Word, (words [space] (w.text++rest)).map f = w.text::tail)
    (w : Word) (others : List (ℕ × Word)) :
    (words [space] (w.text++(following others++rest))).map f =
      w.text::(others.map fun o => o.2.text)++tail := by
  induction others generalizing w with
  | nil => exact hrest w
  | cons o others ih =>
    rw [following, List.flatMap_cons, List.append_assoc, List.append_assoc, w.words_spaces,
      List.map_cons, hf]
    exact congrArg _ (ih o.2)

theorem words_text (s : ScriptLine) :
    (words [space] s.text).map (cut [newline]) = s.words++extra s := by
  rw [ScriptLine.text, words_spaces]
  exact words_following (fun w => w.cut_self) (fun w => words_rest w s) s.first s.others

theorem mem_text {s : ScriptLine} {b : UInt8} (h : b ∈ s.text) :
    b = space ∨ b = newline ∧ s.ended = true ∨ ∃ w ∈ s.words, b ∈ w := by
  have hspaces : ∀ n, b ∈ spaces n → b = space := fun n hb => List.eq_of_mem_replicate hb
  have hothers : b ∈ following s.others → b = space ∨ ∃ w ∈ s.words, b ∈ w := by
    intro hb
    obtain ⟨o, ho, hb⟩ := List.mem_flatMap.mp hb
    rcases List.mem_append.mp hb with hb | hb
    · exact Or.inl (hspaces _ hb)
    · exact Or.inr ⟨o.2.text, List.mem_cons_of_mem _ (List.mem_map_of_mem ho), hb⟩
  have hrest : b ∈ s.rest → b = space ∨ b = newline ∧ s.ended = true := by
    intro hb
    rcases List.mem_append.mp hb with hb | hb
    · exact Or.inl (hspaces _ hb)
    · cases hended : s.ended <;> simp [hended] at hb
      exact Or.inr ⟨hb, rfl⟩
  simp only [ScriptLine.text, List.mem_append] at h
  rcases h with hb | hb | hb | hb
  · exact Or.inl (hspaces _ hb)
  · exact Or.inr (Or.inr ⟨_, List.mem_cons_self .., hb⟩)
  · exact (hothers hb).imp_right Or.inr
  · exact (hrest hb).imp_right Or.inl

theorem extra_eq_nil {s : ScriptLine} : extra s = [] ↔ ¬(s.ended = true ∧ 0 < s.after) := by
  rw [extra]
  split <;> simp_all

theorem arguments_no_zero {bufSize : ℕ} {line : Text} {vector : List Text}
    (h : arguments bufSize line = some vector) : ∀ w ∈ vector, 0 ∉ w := by
  obtain ⟨found, -, rfl⟩ := Option.map_eq_some_iff.mp h
  intro w hw
  obtain ⟨p, -, rfl⟩ := List.mem_map.mp hw
  exact string_no_zero _ p

theorem arguments_words {s : ScriptLine} {bufSize : ℕ} (h : s.text.length < bufSize)
    (hzero : 0 ∉ s.text) : arguments bufSize s.text = some (s.words++extra s) := by
  rw [arguments_eq h, strcpy, cstring_self hzero, words_text]

/-- The vector consists of the words if and only if the line has no null byte and no
space directly before its newline. -/
theorem words_passed_iff (s : ScriptLine) (bufSize : ℕ) (h : s.text.length < bufSize) :
    arguments bufSize s.text = some s.words ↔
      0 ∉ s.text ∧ ¬(s.ended = true ∧ 0 < s.after) := by
  constructor
  · intro hwords
    have hzero : 0 ∉ s.text := by
      intro hmem
      rcases mem_text hmem with heq | ⟨heq, -⟩ | ⟨w, hw, hmem⟩
      · cases heq
      · cases heq
      · exact arguments_no_zero hwords w hw hmem
    rw [arguments_words h hzero, Option.some_inj] at hwords
    exact ⟨hzero, extra_eq_nil.mp (List.append_right_eq_self.mp hwords)⟩
  · rintro ⟨hzero, hafter⟩
    rw [arguments_words h hzero, extra_eq_nil.mpr hafter, List.append_nil]

def ls : Word := ⟨[108, 115], by simp, by simp [space, newline]⟩

theorem words_passed_ls :
    arguments 100 (ScriptLine.text ⟨1, ls, [(0, ls)], 0, true⟩) = some [[108, 115], [108, 115]] ↔
      0 ∉ ScriptLine.text ⟨1, ls, [(0, ls)], 0, true⟩ ∧ ¬(true = true ∧ 0 < 0) :=
  words_passed_iff ⟨1, ls, [(0, ls)], 0, true⟩ 100 (by decide)

/-- A space before the newline. -/
theorem newline_passed : ¬∀ (s : ScriptLine) (bufSize : ℕ), s.text.length < bufSize →
    arguments bufSize s.text = some s.words := by
  intro h
  have hls := h ⟨0, ls, [], 1, true⟩ 100 (by decide)
  rw [show arguments 100 (ScriptLine.text ⟨0, ls, [], 1, true⟩) = some [[108, 115], [10]] by decide]
    at hls
  exact absurd hls (by decide)

theorem script_executed {succeeds : List Text → Bool} (lines : List ScriptLine)
    (hlines : ∀ s ∈ lines, 0 ∉ s.text ∧ ¬(s.ended = true ∧ 0 < s.after))
    (hsucceeds : ∀ s ∈ lines, succeeds s.words = true) (bufSize : ℕ) :
    readAndExecute succeeds bufSize (lines.map ScriptLine.text) =
      some (lines.map ScriptLine.words) := by
  induction lines generalizing bufSize with
  | nil => rfl
  | cons s lines ih =>
    rw [List.forall_mem_cons] at hlines hsucceeds
    obtain ⟨hzero, hafter⟩ := hlines.1
    have hsize : s.text.length < getline bufSize s.text := Nat.lt_of_succ_le (le_max_right _ _)
    have hvector := arguments_words hsize hzero
    rw [extra_eq_nil.mpr hafter, List.append_nil] at hvector
    rw [List.map_cons, readAndExecute, hvector, Option.bind_eq_bind, Option.bind_some,
      if_pos hsucceeds.1, ih hlines.2 hsucceeds.2]
    rfl

end Semestr4.BatchInterpreter
