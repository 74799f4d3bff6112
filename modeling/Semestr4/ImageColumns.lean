import Semestr4.ImageFilter

/-!
# Every cell of the output is written once

The columns of the threads tile the image: the bounds come from one monotone
division. When the waiting loop is left every thread has made all its
assignments, so each cell has been assigned by the thread of its column, and
what the output holds does not depend on the number of threads or on how they
took turns.
-/

set_option autoImplicit false

namespace Semestr4.ImageColumns
open Semestr4.ScheduledRun Semestr4.SharedWrites Semestr4.ImageFilter

theorem maxWidth_eq (g : Globals) (i : ℕ) : maxWidth g i = minWidth g (i+1) := by
  unfold maxWidth minWidth
  by_cases hlast : i+1 = g.numOfThreads
  · rw [if_neg (not_not.mpr hlast), hlast, Nat.mul_div_cancel_left _ (by omega)]
  · rw [if_pos hlast]

theorem minWidth_mono (g : Globals) {i j : ℕ} (h : i ≤ j) : minWidth g i ≤ minWidth g j :=
  Nat.div_le_div_right (Nat.mul_le_mul_right _ h)

theorem minWidth_zero (g : Globals) : minWidth g 0 = 0 := by
  simp [minWidth]

theorem minWidth_last {g : Globals} (hN : 0 < g.numOfThreads) :
    minWidth g g.numOfThreads = g.width := Nat.mul_div_cancel_left _ hN

theorem maxWidth_le {g : Globals} {i : ℕ} (hi : i < g.numOfThreads) : maxWidth g i ≤ g.width := by
  rw [maxWidth_eq, ← minWidth_last (Nat.zero_lt_of_lt hi)]
  exact minWidth_mono g hi

def Covers (g : Globals) (i c : ℕ) : Prop := minWidth g i ≤ c ∧ c < maxWidth g i

theorem exists_covers {g : Globals} {n c : ℕ} (hn : n ≤ g.numOfThreads) (hc : c < minWidth g n) :
    ∃ i < n, Covers g i c := by
  induction n with
  | zero =>
    rw [minWidth_zero] at hc
    omega
  | succ n ih =>
    by_cases h : c < minWidth g n
    · obtain ⟨i, hi, hcovers⟩ := ih (by omega) h
      exact ⟨i, by omega, hcovers⟩
    · exact ⟨n, by omega, by omega, by rwa [maxWidth_eq]⟩

theorem covers_unique {g : Globals} {i j c : ℕ} (h : Covers g i c) (h' : Covers g j c) : i = j := by
  have hlt : ∀ {i j : ℕ}, Covers g i c → Covers g j c → ¬ i < j := by
    intro i j h h' hij
    have hmono : minWidth g (i+1) ≤ minWidth g j := minWidth_mono g hij
    have hmax := maxWidth_eq g i
    have := h.2
    have := h'.1
    omega
  have := hlt h h'
  have := hlt h' h
  omega

def assignment (g : Globals) (r c : ℕ) : Assignment :=
  { cell := (r, c), value := roundAway (result g (r+1) (c+1)) }

theorem mem_calculate {g : Globals} {i : ℕ} {w : Assignment} :
    w ∈ calculate g i ↔ ∃ r c, r < g.height ∧ Covers g i c ∧ w = assignment g r c := by
  simp only [calculate, List.mem_flatMap, List.mem_map, List.mem_range'_1, Covers, assignment]
  constructor
  · rintro ⟨x, hx, y, hy, rfl⟩
    obtain ⟨r, rfl⟩ : ∃ r, x = r+1 := ⟨x-1, by omega⟩
    obtain ⟨c, rfl⟩ : ∃ c, y = c+1 := ⟨y-1, by omega⟩
    exact ⟨r, c, by omega, by omega, rfl⟩
  · rintro ⟨r, c, hr, hc, rfl⟩
    exact ⟨r+1, by omega, c+1, by omega, rfl⟩

theorem calculate_apart (g : Globals) (i : ℕ) :
    (calculate g i).Pairwise fun x y => x.cell ≠ y.cell := by
  rw [calculate, List.pairwise_flatMap]
  constructor
  · intro x _
    rw [List.pairwise_map]
    refine (List.pairwise_lt_range' 1).imp_of_mem ?_
    intro y z hy hz hlt heq
    rw [List.mem_range'_1] at hy hz
    have hcolumn : y-1 = z-1 := congrArg Prod.snd heq
    omega
  · refine (List.pairwise_lt_range' 1).imp_of_mem ?_
    intro x z hx hz hlt a ha b hb heq
    rw [List.mem_range'_1] at hx hz
    obtain ⟨y, -, rfl⟩ := List.mem_map.mp ha
    obtain ⟨y', -, rfl⟩ := List.mem_map.mp hb
    have hrow : x-1 = z-1 := congrArg Prod.fst heq
    omega

theorem hits_covered {g : Globals} {i r c : ℕ} (hr : r < g.height) (hc : Covers g i c) :
    hits (r, c) (calculate g i) = [assignment g r c] :=
  hits_singleton (calculate_apart g i) (mem_calculate.mpr ⟨r, c, hr, hc, rfl⟩)

theorem hits_uncovered {g : Globals} {i r c : ℕ} (h : ¬ (r < g.height ∧ Covers g i c)) :
    hits (r, c) (calculate g i) = [] := by
  apply hits_nil
  rintro w hw heq
  obtain ⟨r', c', hr, hc, rfl⟩ := mem_calculate.mp hw
  obtain ⟨rfl, rfl⟩ := Prod.mk.inj heq
  exact h ⟨hr, hc⟩

def Fits (g : Globals) (i : ℕ) (done : List Assignment) : Thread → Prop
  | .absent => done = []
  | .writing rest => done++rest = calculate g i
  | .returned => done = calculate g i

def Knows (g : Globals) (threads : ℕ → Thread) : Main → Prop
  | .creating k => k ≤ g.numOfThreads ∧ ∀ i, threads i = .absent ↔ k ≤ i
  | .waiting k flag => k ≤ g.numOfThreads ∧ (∀ i, threads i = .absent ↔ g.numOfThreads ≤ i) ∧
    (flag = 1 → ∀ i < k, threads i = .returned)
  | .left => (∀ i, threads i = .absent ↔ g.numOfThreads ≤ i) ∧
    ∀ i < g.numOfThreads, threads i = .returned

structure Progress (g : Globals) (trace : List (ℕ × Assignment)) (s : State) : Prop where
  output : s.output = store (fun _ => 0) (trace.map Prod.snd)
  threads : ∀ i, Fits g i (own i trace) (s.threads i)
  flags : ∀ i, s.finished i ≠ 0 → s.threads i = .returned
  main : Knows g s.threads s.main

theorem initial_progress (g : Globals) : Progress g [] initial where
  output := rfl
  threads := fun _ => rfl
  flags := fun _ h => absurd rfl h
  main := ⟨Nat.zero_le _, fun i => ⟨fun _ => Nat.zero_le i, fun _ => rfl⟩⟩

theorem started_progress {g : Globals} {trace : List (ℕ × Assignment)} {s : State} {k : ℕ}
    (h : Progress g trace s) (hk : k < g.numOfThreads)
    (habsent : ∀ i, s.threads i = .absent ↔ k ≤ i) :
    Progress g trace { s with
      threads := Function.update s.threads k (.writing (calculate g k))
      main := .creating (k+1) } := by
  have hkabsent := (habsent k).mpr (le_refl k)
  have hnew : own k trace = [] := by
    have hfits := h.threads k
    rw [hkabsent] at hfits
    exact hfits
  refine ⟨h.output, fun i => ?_, fun i hi => ?_, ⟨hk, fun i => ?_⟩⟩
  · by_cases hik : i = k
    · subst hik
      simp only [Function.update_self]
      rw [hnew]
      rfl
    · simp only [Function.update_of_ne hik]
      exact h.threads i
  · have hret := h.flags i hi
    have hik : i ≠ k := by
      rintro rfl
      rw [hkabsent] at hret
      cases hret
    simpa only [Function.update_of_ne hik] using hret
  · by_cases hik : i = k
    · subst hik
      simp only [Function.update_self]
      simp
    · simp only [Function.update_of_ne hik, habsent]
      omega

theorem main_progress {g : Globals} {trace : List (ℕ × Assignment)} {s t : State}
    (h : Progress g trace s) (hs : doSomeWork g s = some t) : Progress g trace t := by
  have hmain := h.main
  unfold doSomeWork at hs
  split at hs
  · rename_i k hk
    rw [hk] at hmain
    obtain ⟨hle, habsent⟩ := hmain
    split at hs
    · rename_i hlt
      cases hs
      exact started_progress h hlt habsent
    · rename_i hnot
      cases hs
      have hN : k = g.numOfThreads := by omega
      subst hN
      exact ⟨h.output, h.threads, h.flags, Nat.zero_le _, habsent, fun _ i hi => by omega⟩
  · rename_i k flag hk
    rw [hk] at hmain
    obtain ⟨hle, habsent, hseen⟩ := hmain
    split at hs
    · rename_i hlt
      cases hs
      refine ⟨h.output, h.threads, h.flags, hlt, habsent, ?_⟩
      intro hflag i hi
      split at hflag
      · cases hflag
      · rename_i hup
        by_cases hik : i = k
        · exact hik ▸ h.flags k hup
        · exact hseen hflag i (by omega)
    · rename_i hnot
      split at hs
      · rename_i hflag
        cases hs
        exact ⟨h.output, h.threads, h.flags, habsent, fun i hi => hseen hflag i (by omega)⟩
      · cases hs
        exact ⟨h.output, h.threads, h.flags, Nat.zero_le _, habsent, fun _ i hi => by omega⟩
  · cases hs

theorem knows_update {g : Globals} {threads : ℕ → Thread} {m : Main} {i : ℕ} {pc : Thread}
    (h : Knows g threads m) (hi : threads i ≠ .absent) (hr : threads i ≠ .returned)
    (hpc : pc ≠ .absent) : Knows g (Function.update threads i pc) m := by
  have habsent : ∀ j, Function.update threads i pc j = .absent ↔ threads j = .absent := by
    intro j
    by_cases hj : j = i
    · subst hj
      simp [hi, hpc]
    · rw [Function.update_of_ne hj]
  have hreturned : ∀ j, threads j = .returned → Function.update threads i pc j = .returned := by
    intro j hj
    have hji : j ≠ i := by
      rintro rfl
      exact hr hj
    rwa [Function.update_of_ne hji]
  cases m with
  | creating k => exact ⟨h.1, fun j => (habsent j).trans (h.2 j)⟩
  | waiting k flag =>
    exact ⟨h.1, fun j => (habsent j).trans (h.2.1 j), fun hf j hj => hreturned j (h.2.2 hf j hj)⟩
  | left => exact ⟨fun j => (habsent j).trans (h.1 j), fun j hj => hreturned j (h.2 j hj)⟩

theorem thread_progress {g : Globals} {trace es : List (ℕ × Assignment)} {s t : State} {i : ℕ}
    (h : Progress g trace s) (hs : advance i s = some (t, es)) : Progress g (trace++es) t := by
  have hfits := h.threads i
  unfold advance at hs
  split at hs
  · cases hs
  · rename_i w rest hpc
    rw [hpc] at hfits
    have hup : ∀ j, s.finished j ≠ 0 → j ≠ i := by
      rintro j hj rfl
      have hret := h.flags j hj
      rw [hpc] at hret
      cases hret
    cases hs
    refine ⟨?_, fun j => ?_, fun j hj => ?_, ?_⟩
    · rw [h.output, List.map_append, List.map_singleton, store_snoc]
    · by_cases hj : j = i
      · subst hj
        simp only [Function.update_self, own_self]
        change own j trace++[w]++rest = calculate g j
        rw [List.append_assoc]
        exact hfits
      · simp only [Function.update_of_ne hj, own_other (Ne.symm hj)]
        exact h.threads j
    · simpa only [Function.update_of_ne (hup j hj)] using h.flags j hj
    · exact knows_update h.main (by simp [hpc]) (by simp [hpc]) (by simp)
  · rename_i hpc
    rw [hpc] at hfits
    cases hs
    rw [List.append_nil]
    refine ⟨h.output, fun j => ?_, fun j hj => ?_, ?_⟩
    · by_cases hj : j = i
      · subst hj
        simp only [Function.update_self]
        exact (List.append_nil _).symm.trans hfits
      · simp only [Function.update_of_ne hj]
        exact h.threads j
    · by_cases hji : j = i
      · subst hji
        simp only [Function.update_self]
      · simp only [Function.update_of_ne hji] at hj ⊢
        exact h.flags j hj
    · exact knows_update h.main (by simp [hpc]) (by simp [hpc]) (by simp)
  · cases hs

theorem run_progress {g : Globals} {schedule : List Actor} {s : State}
    {trace : List (ℕ × Assignment)} (hr : run (step g) schedule initial = some (s, trace)) :
    Progress g trace s := by
  refine run_induction (step g) initial (Progress g) (initial_progress g) ?_ schedule s trace hr
  intro es s a t fs hp hs
  cases a with
  | main =>
    obtain ⟨t', ht', heq⟩ := Option.map_eq_some_iff.mp hs
    cases heq
    rw [List.append_nil]
    exact main_progress hp ht'
  | thread i => exact thread_progress hp hs

theorem own_left {g : Globals} {trace : List (ℕ × Assignment)} {s : State}
    (h : Progress g trace s) (hleft : s.main = .left) (i : ℕ) :
    own i trace = if i < g.numOfThreads then calculate g i else [] := by
  have hmain := h.main
  have hfits := h.threads i
  rw [hleft] at hmain
  by_cases hi : i < g.numOfThreads
  · rw [if_pos hi]
    rw [hmain.2 i hi] at hfits
    exact hfits
  · rw [if_neg hi]
    rw [(hmain.1 i).mpr (by omega)] at hfits
    exact hfits

theorem trace_left {g : Globals} {trace : List (ℕ × Assignment)} {s : State}
    (h : Progress g trace s) (hleft : s.main = .left) {e : ℕ × Assignment} (he : e ∈ trace) :
    e.1 < g.numOfThreads ∧ ∃ r c, r < g.height ∧ Covers g e.1 c ∧ e.2 = assignment g r c := by
  have hown : e.2 ∈ own e.1 trace := mem_own.mpr he
  rw [own_left h hleft] at hown
  split at hown
  · rename_i hi
    exact ⟨hi, mem_calculate.mp hown⟩
  · cases hown

theorem cell_left {g : Globals} {trace : List (ℕ × Assignment)} {s : State}
    (h : Progress g trace s) (hleft : s.main = .left) {i r c : ℕ} (hi : i < g.numOfThreads)
    (hr : r < g.height) (hc : Covers g i c) :
    (trace.filter fun e => e.2.cell = (r, c)) = [(i, assignment g r c)] := by
  have honly : ∀ e ∈ trace, e.2.cell = (r, c) → e.1 = i := by
    intro e he hcell
    obtain ⟨-, r', c', -, hc', heq⟩ := trace_left h hleft he
    rw [heq] at hcell
    obtain ⟨rfl, rfl⟩ := Prod.mk.inj hcell
    exact covers_unique hc' hc
  rw [hits_own honly, own_left h hleft, if_pos hi, hits_covered hr hc]
  rfl

theorem hits_map {trace : List (ℕ × Assignment)} {k : Cell} :
    hits k (trace.map Prod.snd) = (trace.filter fun e => e.2.cell = k).map Prod.snd := by
  rw [hits, List.filter_map]
  rfl

def single (g : Globals) : Cell → ℤ :=
  store (fun _ => 0) (calculate { g with numOfThreads := 1 } 0)

theorem single_covers (g : Globals) {c : ℕ} :
    Covers { g with numOfThreads := 1 } 0 c ↔ c < g.width := by
  simp [Covers, minWidth, maxWidth]

theorem single_cell {g : Globals} {r c : ℕ} (hr : r < g.height) (hc : c < g.width) :
    single g (r, c) = (assignment g r c).value :=
  store_once (hits_covered (g := { g with numOfThreads := 1 }) hr (single_covers g |>.mpr hc))

theorem single_outside {g : Globals} {r c : ℕ} (h : ¬ (r < g.height ∧ c < g.width)) :
    single g (r, c) = 0 := by
  apply store_untouched
  apply hits_uncovered
  rwa [single_covers]

/-- However the threads take turns: when the waiting loop is left, each cell of
the output has been assigned once, by one thread, none outside has, and the
output is that of a single thread. -/
theorem output_of_single_thread (g : Globals) (hN : 0 < g.numOfThreads) (schedule : List Actor)
    (s : State) (trace : List (ℕ × Assignment))
    (hr : run (step g) schedule initial = some (s, trace)) (hleft : s.main = .left) :
    (∀ r c, r < g.height → c < g.width → ∃ i < g.numOfThreads, ∃ w,
      (trace.filter fun e => e.2.cell = (r, c)) = [(i, w)]) ∧
    (∀ e ∈ trace, e.2.cell.1 < g.height ∧ e.2.cell.2 < g.width) ∧
    s.output = single g := by
  have h := run_progress hr
  have hcovered : ∀ c < g.width, ∃ i < g.numOfThreads, Covers g i c := by
    intro c hc
    rw [← minWidth_last hN] at hc
    exact exists_covers (le_refl _) hc
  have hinside : ∀ e ∈ trace, e.2.cell.1 < g.height ∧ e.2.cell.2 < g.width := by
    intro e he
    obtain ⟨hi, r, c, hr, hc, heq⟩ := trace_left h hleft he
    rw [heq]
    exact ⟨hr, lt_of_lt_of_le hc.2 (maxWidth_le hi)⟩
  refine ⟨?_, hinside, ?_⟩
  · intro r c hr hc
    obtain ⟨i, hi, hcovers⟩ := hcovered c hc
    exact ⟨i, hi, _, cell_left h hleft hi hr hcovers⟩
  · funext ⟨r, c⟩
    rw [h.output]
    by_cases hrc : r < g.height ∧ c < g.width
    · obtain ⟨i, hi, hcovers⟩ := hcovered c hrc.2
      rw [single_cell hrc.1 hrc.2]
      apply store_once
      rw [hits_map, cell_left h hleft hi hrc.1 hcovers]
      rfl
    · rw [single_outside hrc]
      apply store_untouched
      apply hits_nil
      intro w hw hcell
      obtain ⟨e, he, rfl⟩ := List.mem_map.mp hw
      have hin := hinside e he
      rw [hcell] at hin
      exact hrc hin

def smallImage : Globals where
  width := 2
  height := 1
  filterSize := 1
  numOfThreads := 3
  input := fun _ c => c+7
  filter := fun _ _ => 1

def smallSchedule : List Actor :=
  [.main, .main, .main, .thread 2, .main, .thread 0, .main, .thread 1, .thread 1, .main, .main,
    .main, .thread 2, .main, .main, .main, .main]

theorem output_of_single_thread_small : ∃ s trace,
    run (step smallImage) smallSchedule initial = some (s, trace) ∧ trace.length = 2 ∧
      s.output = single smallImage := by
  have hr : run (step smallImage) smallSchedule initial = some (_, _) := rfl
  exact ⟨_, _, hr, rfl, (output_of_single_thread smallImage (by decide) _ _ _ hr rfl).2.2⟩

end Semestr4.ImageColumns
