import Mathlib.Algebra.BigOperators.Intervals
import Mathlib.Data.Rat.Floor
import Semestr4.ImageColumns

/-!
# The accesses of the image filter

Each row and column is clamped below and tested above before the arrays are
read, so that a thread stays inside the three of them. What it assigns to a cell
is the rounded sum of the filter over the samples around it, those of the first
row and column repeated and those behind the last ones counted as zero.
-/

set_option autoImplicit false

namespace Semestr4.ImageBounds
open Semestr4.ScheduledRun Semestr4.SharedWrites Semestr4.ImageFilter Semestr4.ImageColumns

inductive Access where
  | input (r c : ℤ)
  | filter (i j : ℤ)
  | output (r c : ℤ)
  deriving DecidableEq, Repr

section
variable (g : Globals)

def reads (x y i j : ℕ) : List Access :=
  if clamped g x i-1 < g.height ∧ clamped g y j-1 < g.width then
    [.input (clamped g x i-1) (clamped g y j-1), .filter ((i : ℤ)-1) ((j : ℤ)-1)]
  else []

/-- The accesses for one cell of the output, the assignment last. -/
def accesses (x y : ℕ) : List Access :=
  ((List.range' 1 g.filterSize).flatMap fun i =>
    (List.range' 1 g.filterSize).flatMap fun j => reads g x y i j)++
  [.output ((x : ℤ)-1) ((y : ℤ)-1)]

def traced (segment : ℕ) : List (List Access × Assignment) :=
  (List.range' 1 g.height).flatMap fun x =>
    (List.range' (minWidth g segment+1) (maxWidth g segment-minWidth g segment)).map fun y =>
      (accesses g x y, { cell := (x-1, y-1), value := roundAway (result g x y) })

def Inside : Access → Prop
  | .input r c => (0 ≤ r ∧ r < g.height) ∧ 0 ≤ c ∧ c < g.width
  | .filter i j => (0 ≤ i ∧ i < g.filterSize) ∧ 0 ≤ j ∧ j < g.filterSize
  | .output r c => (0 ≤ r ∧ r < g.height) ∧ 0 ≤ c ∧ c < g.width

def half : ℤ := ⌈(g.filterSize : ℚ)/2⌉

def filterAt (i j : ℕ) : ℚ := g.filter (i-1) (j-1)

/-- A sample of the image, counted from one, and zero behind the last row and
column. -/
def inputAt (r c : ℤ) : ℚ :=
  if r ≤ g.height ∧ c ≤ g.width then g.input (r-1).toNat (c-1).toNat else 0

def weighted (x y : ℕ) : ℚ :=
  ∑ i ∈ Finset.Icc 1 g.filterSize, ∑ j ∈ Finset.Icc 1 g.filterSize,
    filterAt g i j*inputAt g (max 1 (x-half g+i)) (max 1 (y-half g+j))

end

theorem traced_calculate (g : Globals) (segment : ℕ) :
    (traced g segment).map Prod.snd = calculate g segment := by
  simp only [traced, calculate, List.map_flatMap, List.map_map]
  rfl

theorem clamped_pos (g : Globals) (x i : ℕ) : 1 ≤ clamped g x i := by
  unfold clamped
  split <;> omega

theorem reads_inside {g : Globals} {x y i j : ℕ} (hi : i ∈ List.range' 1 g.filterSize)
    (hj : j ∈ List.range' 1 g.filterSize) {a : Access} (ha : a ∈ reads g x y i j) :
    Inside g a := by
  rw [List.mem_range'_1] at hi hj
  unfold reads at ha
  split at ha
  · rename_i hguard
    have hrow := clamped_pos g x i
    have hcolumn := clamped_pos g y j
    simp only [List.mem_cons, List.not_mem_nil, or_false] at ha
    rcases ha with rfl | rfl
    · exact ⟨⟨by omega, hguard.1⟩, by omega, hguard.2⟩
    · exact ⟨⟨by omega, by omega⟩, by omega, by omega⟩
  · cases ha

theorem accesses_inside {g : Globals} {x y : ℕ} (hx : 1 ≤ x ∧ x ≤ g.height)
    (hy : 1 ≤ y ∧ y ≤ g.width) {a : Access} (ha : a ∈ accesses g x y) : Inside g a := by
  rcases List.mem_append.mp ha with ha | ha
  · obtain ⟨i, hi, ha⟩ := List.mem_flatMap.mp ha
    obtain ⟨j, hj, ha⟩ := List.mem_flatMap.mp ha
    exact reads_inside hi hj ha
  · rw [List.mem_singleton.mp ha]
    exact ⟨⟨by omega, by omega⟩, by omega, by omega⟩

theorem traced_cell {g : Globals} {segment : ℕ} (h : segment < g.numOfThreads)
    {p : List Access × Assignment} (hp : p ∈ traced g segment) :
    ∃ x y, (1 ≤ x ∧ x ≤ g.height) ∧ (1 ≤ y ∧ y ≤ g.width) ∧ p = (accesses g x y,
      { cell := (x-1, y-1), value := roundAway (result g x y) }) := by
  simp only [traced, List.mem_flatMap, List.mem_map, List.mem_range'_1] at hp
  obtain ⟨x, hx, y, hy, rfl⟩ := hp
  have hmax := maxWidth_le h
  exact ⟨x, y, ⟨hx.1, by omega⟩, ⟨by omega, by omega⟩, rfl⟩

theorem half_eq (g : Globals) : half g = centre g := by
  have hcentre : (2 : ℤ)*centre g = g.filterSize ∨ 2*centre g = g.filterSize+1 := by
    unfold centre
    omega
  rw [half, Int.ceil_eq_iff]
  rcases hcentre with h | h
  · have hq : (2 : ℚ)*centre g = g.filterSize := by exact_mod_cast h
    constructor <;> linarith
  · have hq : (2 : ℚ)*centre g = g.filterSize+1 := by exact_mod_cast h
    constructor <;> linarith

theorem clamped_eq (g : Globals) (x i : ℕ) : clamped g x i = max 1 (x-half g+i) := by
  rw [half_eq, clamped]
  split <;> omega

theorem term_eq (g : Globals) (x y i j : ℕ) : term g x y i j =
    filterAt g i j*inputAt g (max 1 (x-half g+i)) (max 1 (y-half g+j)) := by
  rw [← clamped_eq, ← clamped_eq, term, inputAt, filterAt]
  by_cases h : clamped g x i-1 < g.height ∧ clamped g y j-1 < g.width
  · rw [if_pos h, if_pos ⟨by omega, by omega⟩, mul_comm]
  · rw [if_neg h, if_neg (fun h' => h ⟨by omega, by omega⟩), mul_zero]

theorem foldl_sum (f : ℕ → ℚ) (a : ℚ) (n : ℕ) :
    (List.range' 1 n).foldl (fun sum i => sum+f i) a = a+∑ i ∈ Finset.Icc 1 n, f i := by
  have hlist : ∀ (l : List ℕ) (a : ℚ),
      l.foldl (fun sum i => sum+f i) a = a+(l.map f).sum := by
    intro l
    induction l with
    | nil => simp
    | cons i l ih => intro a; rw [List.foldl_cons, ih, List.map_cons, List.sum_cons, add_assoc]
  rw [hlist, Nat.Icc_eq_range', Nat.add_sub_cancel]
  rfl

theorem result_sum (g : Globals) (x y : ℕ) : result g x y =
    ∑ i ∈ Finset.Icc 1 g.filterSize, ∑ j ∈ Finset.Icc 1 g.filterSize, term g x y i j := by
  simp only [result, foldl_sum, zero_add]

theorem result_eq (g : Globals) (x y : ℕ) : result g x y = weighted g x y := by
  simp only [result_sum, term_eq]
  rfl

def Agrees (g : Globals) (input : ℕ → ℕ → ℤ) (filter : ℕ → ℕ → ℚ) : Access → Prop
  | .input r c => input r.toNat c.toNat = g.input r.toNat c.toNat
  | .filter i j => filter i.toNat j.toNat = g.filter i.toNat j.toNat
  | .output _ _ => True

theorem result_local {g : Globals} {x y : ℕ} {input : ℕ → ℕ → ℤ} {filter : ℕ → ℕ → ℚ}
    (h : ∀ a ∈ accesses g x y, Agrees g input filter a) :
    result { g with input := input, filter := filter } x y = result g x y := by
  rw [result_sum, result_sum]
  refine Finset.sum_congr rfl fun i hi => Finset.sum_congr rfl fun j hj => ?_
  have hread : ∀ a ∈ reads g x y i j, Agrees g input filter a := by
    intro a ha
    apply h a
    refine List.mem_append_left _ (List.mem_flatMap.mpr ⟨i, ?_, List.mem_flatMap.mpr ⟨j, ?_, ha⟩⟩)
    · rw [List.mem_range'_1]
      have := Finset.mem_Icc.mp hi
      omega
    · rw [List.mem_range'_1]
      have := Finset.mem_Icc.mp hj
      omega
  by_cases hguard : clamped g x i-1 < g.height ∧ clamped g y j-1 < g.width
  · rw [reads, if_pos hguard] at hread
    have hinput : input _ _ = g.input _ _ := hread _ (List.mem_cons_self ..)
    have hfilter : filter _ _ = g.filter _ _ :=
      hread _ (List.mem_cons_of_mem _ (List.mem_cons_self ..))
    have hi' : ((i : ℤ)-1).toNat = i-1 := by omega
    have hj' : ((j : ℤ)-1).toNat = j-1 := by omega
    rw [hi', hj'] at hfilter
    rw [term, term, if_pos hguard]
    refine (if_pos hguard).trans ?_
    exact congrArg₂ (fun (a : ℤ) (b : ℚ) => a*b) hinput hfilter
  · rw [term, term, if_neg hguard]
    exact if_neg hguard

theorem output_left {g : Globals} (hN : 0 < g.numOfThreads) {schedule : List Actor} {s : State}
    {trace : List (ℕ × Assignment)} (hr : run (step g) schedule initial = some (s, trace))
    (hleft : s.main = .left) {x y : ℕ} (hx : 1 ≤ x ∧ x ≤ g.height) (hy : 1 ≤ y ∧ y ≤ g.width) :
    s.output (x-1, y-1) = roundAway (weighted g x y) := by
  have hprogress := run_progress hr
  have hcolumn : y-1 < minWidth g g.numOfThreads := by
    rw [minWidth_last hN]
    omega
  obtain ⟨i, hi, hcovers⟩ := exists_covers (le_refl _) hcolumn
  have hcell := cell_left hprogress hleft hi (show x-1 < g.height by omega) hcovers
  have honce : hits (x-1, y-1) (trace.map Prod.snd) = [assignment g (x-1) (y-1)] := by
    rw [hits_map, hcell]
    rfl
  rw [hprogress.output, store_once honce, assignment, Nat.sub_add_cancel hx.1,
    Nat.sub_add_cancel hy.1, result_eq]

/-- Every access of a thread is inside the arrays, and what it assigns, and what
the output holds in the end, are the rounded sums. -/
theorem inside_and_weighted (g : Globals) (segment : ℕ) (h : segment < g.numOfThreads) :
    (∀ p ∈ traced g segment, ∀ a ∈ p.1, Inside g a) ∧
    (∀ w ∈ calculate g segment, ∃ x y, (1 ≤ x ∧ x ≤ g.height) ∧ (1 ≤ y ∧ y ≤ g.width) ∧
      w = { cell := (x-1, y-1), value := roundAway (weighted g x y) }) ∧
    (∀ schedule s trace, run (step g) schedule initial = some (s, trace) → s.main = .left →
      ∀ x y, 1 ≤ x ∧ x ≤ g.height → 1 ≤ y ∧ y ≤ g.width →
        s.output (x-1, y-1) = roundAway (weighted g x y)) := by
  refine ⟨fun p hp a ha => ?_, fun w hw => ?_, fun schedule s trace hr hleft x y hx hy => ?_⟩
  · obtain ⟨x, y, hx, hy, rfl⟩ := traced_cell h hp
    exact accesses_inside hx hy ha
  · rw [← traced_calculate] at hw
    obtain ⟨p, hp, rfl⟩ := List.mem_map.mp hw
    obtain ⟨x, y, hx, hy, rfl⟩ := traced_cell h hp
    exact ⟨x, y, hx, hy, by rw [result_eq]⟩
  · exact output_left (Nat.zero_lt_of_lt h) hr hleft hx hy

/-- An image of two rows and three columns, and the mean of nine cells. -/
def blurred : Globals where
  width := 3
  height := 2
  filterSize := 3
  numOfThreads := 2
  input r c := 10*r+c
  filter _ _ := 1/9

/-- The second thread, with two columns, is done before the first. -/
def blurredSchedule : List Actor :=
  List.replicate 3 .main++List.replicate 5 (.thread 1)++List.replicate 3 (.thread 0)++
    List.replicate 3 .main

theorem inside_and_weighted_small : ∃ s trace,
    run (step blurred) blurredSchedule initial = some (s, trace) ∧
      (∀ p ∈ traced blurred 1, ∀ a ∈ p.1, Inside blurred a) ∧
      (∀ w ∈ calculate blurred 1, ∃ x y, (1 ≤ x ∧ x ≤ 2) ∧ (1 ≤ y ∧ y ≤ 3) ∧
        w = { cell := (x-1, y-1), value := roundAway (weighted blurred x y) }) ∧
      ∀ x y, 1 ≤ x ∧ x ≤ 2 → 1 ≤ y ∧ y ≤ 3 →
        s.output (x-1, y-1) = roundAway (weighted blurred x y) := by
  have hr : run (step blurred) blurredSchedule initial = some (_, _) := rfl
  obtain ⟨hinside, hweighted, houtput⟩ := inside_and_weighted blurred 1 (by decide)
  exact ⟨_, _, hr, hinside, hweighted, houtput _ _ _ hr rfl⟩

end Semestr4.ImageBounds
