import Semestr4.DescriptorTable

/-!
# The descriptors of a pipeline

The interpreter reads a script line by line. For a line of `n` programs it
opens all the pipes between them, forks a child for each program and closes
nothing itself. A child puts its two ends in place of the standard input and
output and closes the pipes next to it, but no others.
-/

set_option autoImplicit false

namespace Semestr4.PipelineDescriptors
open Semestr4.DescriptorTable

/-- What the interpreter and its children have open, pipe `i` of each line. -/
inductive Opened where
  | stdin
  | stdout
  | stderr
  | script
  | readEnd (line i : ℕ)
  | writeEnd (line i : ℕ)
  deriving DecidableEq, Repr

def openPipes (line : ℕ) (t : Table Opened) : ℕ → Table Opened × List (ℕ × ℕ)
  | 0 => (t, [])
  | k+1 =>
    let (t', fd) := openPipes line t k
    let (t'', ends) := pipe t' (.readEnd line k) (.writeEnd line k)
    (t'', fd++[ends])

def readOf (fd : List (ℕ × ℕ)) (i : ℕ) : ℕ := (fd.getD i (0, 0)).1

def writeOf (fd : List (ℕ × ℕ)) (i : ℕ) : ℕ := (fd.getD i (0, 0)).2

/-- The output of the program before becomes the input. -/
def takeInput (t : Table Opened) (fd : List (ℕ × ℕ)) (i : ℕ) : Table Opened :=
  if i ≠ 0 then
    close (close (dup2 t (readOf fd (i-1)) 0) (readOf fd (i-1))) (writeOf fd (i-1))
  else t

/-- The output becomes the input of the program after. -/
def giveOutput (t : Table Opened) (fd : List (ℕ × ℕ)) (n i : ℕ) : Table Opened :=
  if i ≠ n-1 then
    close (close (dup2 t (writeOf fd i) 1) (readOf fd i)) (writeOf fd i)
  else t

def child (t : Table Opened) (fd : List (ℕ × ℕ)) (n i : ℕ) : Table Opened :=
  giveOutput (takeInput t fd i) fd n i

def start : Table Opened := [some .stdin, some .stdout, some .stderr, some .script]

def readLines : List ℕ → Table Opened
  | [] => start
  | n::earlier => (openPipes earlier.length (readLines earlier) (n-1)).1

def childAfter (earlier : List ℕ) (n i : ℕ) : Table Opened :=
  let (t, fd) := openPipes earlier.length (readLines earlier) (n-1)
  child t fd n i

def EndsHeldOnce (earlier : List ℕ) (n : ℕ) : Prop :=
  ∀ i, i < n-1 → ∀ c < n,
    (Holds (childAfter earlier n c) (.writeEnd earlier.length i) ↔ c = i) ∧
    (Holds (childAfter earlier n c) (.readEnd earlier.length i) ↔ c = i+1)

def InputsEnd (earlier : List ℕ) (n : ℕ) : Prop :=
  ∀ reader < n, ∀ i, look (childAfter earlier n reader) 0 = some (.readEnd earlier.length i) →
    ∀ later < n, reader < later →
      ¬ Holds (childAfter earlier n later) (.writeEnd earlier.length i)

def endAt (line j : ℕ) : Opened := if j%2 = 0 then .readEnd line (j/2) else .writeEnd line (j/2)

def ends (line k : ℕ) : List Opened := (List.range (2*k)).map (endAt line)

theorem openPipes_eq {t : Table Opened} (h : Full t) (line k : ℕ) :
    openPipes line t k = (t++(ends line k).map some,
      (List.range k).map fun i => (t.length+2*i, t.length+2*i+1)) := by
  induction k with
  | zero => simp [openPipes, ends]
  | succ k ih =>
    have hk : 2*(k+1) = 2*k+1+1 := by omega
    have he : endAt line (2*k) = .readEnd line k := by simp [endAt]
    have ho : endAt line (2*k+1) = .writeEnd line k := by
      simp [endAt, show (2*k+1)%2 = 1 by omega, show (2*k+1)/2 = k by omega]
    simp only [openPipes, ih, (h.append (ends line k)).pipe]
    simp [ends, hk, List.range_succ, he, ho]

theorem readLines_full (earlier : List ℕ) : Full (readLines earlier) := by
  induction earlier with
  | nil => simp [readLines, start, Full]
  | cons n earlier ih =>
    rw [readLines, openPipes_eq ih]
    exact ih.append _

theorem readLines_length (earlier : List ℕ) : 4 ≤ (readLines earlier).length := by
  induction earlier with
  | nil => exact Nat.le_refl 4
  | cons n earlier ih =>
    rw [readLines, openPipes_eq (readLines_full earlier), List.length_append]
    omega

def Opened.IsEnd (line i : ℕ) (x : Opened) : Prop := x = .readEnd line i ∨ x = .writeEnd line i

theorem mem_ends {line k l i : ℕ} {x : Opened} (hx : x.IsEnd l i) (h : x ∈ ends line k) :
    l = line := by
  obtain ⟨j, -, rfl⟩ := List.mem_map.mp h
  unfold endAt Opened.IsEnd at hx
  split at hx <;> simp at hx <;> exact hx.1.symm

theorem readLines_ends {earlier : List ℕ} {l i : ℕ} {x : Opened} (hx : x.IsEnd l i)
    (h : some x ∈ readLines earlier) : l < earlier.length := by
  induction earlier with
  | nil => rcases hx with rfl | rfl <;> simp [readLines, start] at h
  | cons n earlier ih =>
    rw [readLines, openPipes_eq (readLines_full earlier), List.mem_append] at h
    rcases h with h | h
    · exact Nat.lt_succ_of_lt (ih h)
    · obtain ⟨y, hy, hyx⟩ := List.mem_map.mp h
      cases hyx
      rw [mem_ends hx hy]
      exact Nat.lt_succ_self _

theorem look_mem {t : Table Opened} {fd : ℕ} {x : Opened} (h : look t fd = some x) :
    some x ∈ t := by
  unfold look at h
  exact List.mem_of_getElem? (Option.join_eq_some_iff.mp h)

theorem look_ends (line k j : ℕ) :
    look ((ends line k).map some) j = if j < 2*k then some (endAt line j) else none := by
  unfold look ends
  rw [List.map_map, List.getElem?_map]
  by_cases h : j < 2*k
  · rw [List.getElem?_range h, if_pos h]
    rfl
  · rw [List.getElem?_eq_none (by simpa using h), if_neg h]
    rfl

section
variable (earlier : List ℕ)

def base : ℕ := (readLines earlier).length

def parent (n : ℕ) : Table Opened :=
  readLines earlier++(ends earlier.length (n-1)).map some

def arrayFd (n : ℕ) : List (ℕ × ℕ) :=
  (List.range (n-1)).map fun i => (base earlier+2*i, base earlier+2*i+1)

variable {earlier} {n i : ℕ}

theorem childAfter_eq : childAfter earlier n i = child (parent earlier n) (arrayFd earlier n) n i := by
  rw [childAfter, openPipes_eq (readLines_full earlier)]
  rfl

theorem readOf_array (h : i < n-1) : readOf (arrayFd earlier n) i = base earlier+2*i := by
  simp [readOf, arrayFd, List.getElem?_range h]

theorem writeOf_array (h : i < n-1) : writeOf (arrayFd earlier n) i = base earlier+2*i+1 := by
  simp [writeOf, arrayFd, List.getElem?_range h]

theorem look_parent (f : ℕ) : look (parent earlier n) f =
    if f < base earlier then look (readLines earlier) f
    else if f-base earlier < 2*(n-1) then some (endAt earlier.length (f-base earlier))
    else none := by
  rw [parent, look_append, look_ends]
  rfl

theorem look_parent_read (h : i < n-1) :
    look (parent earlier n) (base earlier+2*i) = some (.readEnd earlier.length i) := by
  rw [look_parent, if_neg (by omega), if_pos (by omega)]
  simp [endAt]

theorem look_parent_write (h : i < n-1) :
    look (parent earlier n) (base earlier+2*i+1) = some (.writeEnd earlier.length i) := by
  rw [look_parent, if_neg (by omega), if_pos (by omega)]
  simp [endAt, show (base earlier+2*i+1-base earlier) = 2*i+1 by omega,
    show (2*i+1)%2 = 1 by omega, show (2*i+1)/2 = i by omega]

theorem look_takeInput (hi : i < n) (f : ℕ) :
    look (takeInput (parent earlier n) (arrayFd earlier n) i) f =
      if i = 0 then look (parent earlier n) f
      else if f = base earlier+2*(i-1)+1 ∨ f = base earlier+2*(i-1) then none
      else if f = 0 then some (.readEnd earlier.length (i-1))
      else look (parent earlier n) f := by
  unfold takeInput
  by_cases h : i = 0
  · simp [h]
  · have hp : i-1 < n-1 := by omega
    rw [if_pos h, if_neg h, readOf_array hp, writeOf_array hp, look_close, look_close,
      look_dup2 (look_parent_read hp)]
    split <;> split <;> simp_all

theorem look_child (hi : i < n) (f : ℕ) : look (childAfter earlier n i) f =
    if i ≠ n-1 ∧ (f = base earlier+2*i ∨ f = base earlier+2*i+1) then none
    else if i ≠ n-1 ∧ f = 1 then some (.writeEnd earlier.length i)
    else if i ≠ 0 ∧ (f = base earlier+2*(i-1) ∨ f = base earlier+2*(i-1)+1) then none
    else if i ≠ 0 ∧ f = 0 then some (.readEnd earlier.length (i-1))
    else look (parent earlier n) f := by
  have hin : ∀ f, look (takeInput (parent earlier n) (arrayFd earlier n) i) f = _ :=
    look_takeInput hi
  rw [childAfter_eq, child, giveOutput]
  by_cases h : i = n-1
  · rw [if_neg (by simpa using h), hin]
    grind
  · have hn : i < n-1 := by omega
    have hw : look (takeInput (parent earlier n) (arrayFd earlier n) i) (base earlier+2*i+1) =
        some (.writeEnd earlier.length i) := by
      have hb : 4 ≤ base earlier := readLines_length earlier
      rw [hin, look_parent_write hn]
      by_cases h0 : i = 0
      · rw [if_pos h0]
      · rw [if_neg h0, if_neg (by omega), if_neg (by omega)]
    rw [if_pos h, readOf_array hn, writeOf_array hn, look_close, look_close, look_dup2 hw, hin]
    grind

theorem look_child_other (hi : i < n) {k f : ℕ} (hf : f = base earlier+2*k ∨ f = base earlier+2*k+1)
    (hinput : k+1 ≠ i) (houtput : k ≠ i) :
    look (childAfter earlier n i) f = look (parent earlier n) f := by
  have hb : 4 ≤ base earlier := readLines_length earlier
  rw [look_child hi, if_neg (by omega), if_neg (by omega), if_neg (by omega), if_neg (by omega)]

theorem parent_end {f : ℕ} {x : Opened} (hx : x.IsEnd earlier.length i)
    (h : look (parent earlier n) f = some x) :
    base earlier ≤ f ∧ endAt earlier.length (f-base earlier) = x := by
  rw [look_parent] at h
  split at h
  · exact absurd (readLines_ends hx (look_mem h)) (Nat.lt_irrefl _)
  · rename_i hf
    split at h
    · exact ⟨Nat.le_of_not_lt hf, Option.some_inj.mp h⟩
    · cases h

theorem parent_write {f : ℕ} (h : look (parent earlier n) f = some (.writeEnd earlier.length i)) :
    f = base earlier+2*i+1 := by
  obtain ⟨hf, hend⟩ := parent_end (Or.inr rfl) h
  unfold endAt at hend
  split at hend
  · cases hend
  · simp only [Opened.writeEnd.injEq, true_and] at hend
    omega

theorem parent_read {f : ℕ} (h : look (parent earlier n) f = some (.readEnd earlier.length i)) :
    f = base earlier+2*i := by
  obtain ⟨hf, hend⟩ := parent_end (Or.inl rfl) h
  unfold endAt at hend
  split at hend
  · simp only [Opened.readEnd.injEq, true_and] at hend
    omega
  · cases hend

theorem holds_write {c : ℕ} (hc : c < n) (hi : i < n-1) :
    Holds (childAfter earlier n c) (.writeEnd earlier.length i) ↔ c ≠ i+1 := by
  have hb : 4 ≤ base earlier := readLines_length earlier
  constructor
  · rintro ⟨f, hf⟩ rfl
    rw [look_child hc] at hf
    split at hf
    · cases hf
    · split at hf
      · simp at hf
      · split at hf
        · cases hf
        · rename_i hclosed
          split at hf
          · simp at hf
          · have := parent_write hf
            omega
  · intro hne
    by_cases h : c = i
    · refine ⟨1, ?_⟩
      rw [look_child hc, if_neg (by omega), if_pos (by omega), h]
    · refine ⟨base earlier+2*i+1, ?_⟩
      rw [look_child_other hc (Or.inr rfl) (Ne.symm hne) (Ne.symm h), look_parent_write hi]

theorem holds_read {c : ℕ} (hc : c < n) (hi : i < n-1) :
    Holds (childAfter earlier n c) (.readEnd earlier.length i) ↔ c ≠ i := by
  have hb : 4 ≤ base earlier := readLines_length earlier
  constructor
  · rintro ⟨f, hf⟩ rfl
    rw [look_child hc] at hf
    split at hf
    · cases hf
    · rename_i hclosed
      split at hf
      · simp at hf
      · split at hf
        · cases hf
        · split at hf
          · simp only [Option.some.injEq, Opened.readEnd.injEq, true_and] at hf
            omega
          · have := parent_read hf
            omega
  · intro hne
    by_cases h : c = i+1
    · refine ⟨0, ?_⟩
      rw [look_child hc, if_neg (by omega), if_neg (by omega), if_neg (by omega),
        if_pos (by omega), h]
      rfl
    · refine ⟨base earlier+2*i, ?_⟩
      rw [look_child_other hc (Or.inl rfl) (Ne.symm h) (Ne.symm hne), look_parent_read hi]

theorem child_input {c : ℕ} (hc : c < n) :
    look (childAfter earlier n c) 0 = some (.readEnd earlier.length i) ↔ c = i+1 := by
  have hb : 4 ≤ base earlier := readLines_length earlier
  rw [look_child hc, if_neg (by omega), if_neg (by omega), if_neg (by omega)]
  by_cases h : c = 0
  · rw [if_neg (by omega)]
    constructor
    · intro hp
      have := parent_read hp
      omega
    · omega
  · rw [if_pos ⟨h, rfl⟩, Option.some.injEq, Opened.readEnd.injEq]
    omega

end

theorem endsHeldOnce_iff (earlier : List ℕ) {n : ℕ} (hn : 2 ≤ n) :
    EndsHeldOnce earlier n ↔ n = 2 := by
  constructor
  · intro h
    by_contra hne
    have h2 := (h 0 (by omega) 2 (by omega)).1
    rw [holds_write (by omega) (by omega)] at h2
    omega
  · rintro rfl i hi c hc
    rw [holds_write hc hi, holds_read hc hi]
    omega

theorem inputsEnd_iff (earlier : List ℕ) {n : ℕ} (hn : 2 ≤ n) :
    InputsEnd earlier n ↔ n = 2 := by
  constructor
  · intro h
    by_contra hne
    have hin : look (childAfter earlier n 1) 0 = some (.readEnd earlier.length 0) :=
      (child_input (by omega)).mpr rfl
    apply h 1 (by omega) 0 hin 2 (by omega) (by omega)
    exact (holds_write (by omega) (by omega)).mpr (by omega)
  · rintro rfl reader hreader i hin later hlater hlt
    have hi := (child_input hreader).mp hin
    omega

/-- Only in a pipeline of two programs is each end of each pipe left to one of
them, and only there do no programs wait for each other to close a pipe. -/
theorem pipes_apart_iff (earlier : List ℕ) (n : ℕ) (hn : 2 ≤ n) :
    (EndsHeldOnce earlier n ↔ n = 2) ∧ (InputsEnd earlier n ↔ n = 2) :=
  ⟨endsHeldOnce_iff earlier hn, inputsEnd_iff earlier hn⟩

theorem pipes_apart_two : 2 ≤ 2 ∧ EndsHeldOnce [3] 2 ∧ InputsEnd [3] 2 := by
  have h := pipes_apart_iff [3] 2 (Nat.le_refl 2)
  exact ⟨Nat.le_refl 2, h.1.mpr rfl, h.2.mpr rfl⟩

/-- The third of three programs keeps the pipe between the first two open. -/
theorem third_keeps_first_pipe : ¬ ∀ earlier n, 2 ≤ n →
    EndsHeldOnce earlier n ∧ InputsEnd earlier n := by
  intro h
  have hheld : Holds (childAfter [] 3 2) (.writeEnd 0 0) := ⟨5, by decide⟩
  have h2 := ((h [] 3 (by decide)).1 0 (by decide) 2 (by decide)).1.mp hheld
  cases h2

end Semestr4.PipelineDescriptors
