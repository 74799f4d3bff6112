import Mathlib.Logic.Function.Basic
import Semestr4.ScheduledRun

/-!
# Sections under a semaphore, with gates

Threads run the statements of a section between a wait and a post on one
semaphore of value one. A section may post further semaphores, the gates, and
may send its thread to one of them: the thread leaves, waits there, posts the
permit it got back, and enters again. Every statement is a step of its own.
-/

set_option autoImplicit false

namespace Semestr4.GatedSection
open Semestr4.ScheduledRun

variable {σ ι π γ ε : Type*}

inductive Exit (γ : Type*) where
  | again
  | stops
  | turns (gate : γ)
  deriving DecidableEq, Repr

inductive Statement (σ π γ ε : Type*) where
  | goes (shared : σ) (next : π) (events : List ε)
  | posts (gate : γ) (next : π)
  | leaves (exit : Exit γ)

structure Program (σ ι π γ ε : Type*) where
  entry : ι → π
  body : π → σ → Statement σ π γ ε
  passed : γ → ε

inductive Pc (π γ : Type*) where
  | enter
  | inside (p : π)
  | wait (gate : γ)
  | repost (gate : γ)
  | returned
  deriving DecidableEq, Repr

structure World (σ ι π γ : Type*) where
  shared : σ
  sem : ℕ
  gates : γ → ℕ
  pc : ι → Pc π γ

def Exit.pc : Exit γ → Pc π γ
  | .again => .enter
  | .stops => .returned
  | .turns gate => .wait gate

def Blocked (w : World σ ι π γ) (t : ι) : Prop :=
  w.pc t = .enter ∧ w.sem = 0 ∨ ∃ gate, w.pc t = .wait gate ∧ w.gates gate = 0

/-- A permit is there or is about to be given back. -/
def Open (w : World σ ι π γ) (gate : γ) : Prop :=
  0 < w.gates gate ∨ ∃ t, w.pc t = .repost gate

section Go
variable [DecidableEq ι]

def World.go (w : World σ ι π γ) (t : ι) (pc : Pc π γ) : World σ ι π γ :=
  { w with pc := Function.update w.pc t pc }

@[simp] theorem go_shared (w : World σ ι π γ) (t : ι) (pc : Pc π γ) :
    (w.go t pc).shared = w.shared := rfl

@[simp] theorem go_sem (w : World σ ι π γ) (t : ι) (pc : Pc π γ) : (w.go t pc).sem = w.sem := rfl

@[simp] theorem go_gates (w : World σ ι π γ) (t : ι) (pc : Pc π γ) :
    (w.go t pc).gates = w.gates := rfl

@[simp] theorem go_same (w : World σ ι π γ) (t : ι) (pc : Pc π γ) : (w.go t pc).pc t = pc :=
  Function.update_self ..

theorem go_other (w : World σ ι π γ) {t u : ι} (pc : Pc π γ) (h : u ≠ t) :
    (w.go t pc).pc u = w.pc u :=
  Function.update_of_ne h ..

theorem go_congr (w : World σ ι π γ) {t : ι} {pc : Pc π γ} (hw : ∀ p, w.pc t ≠ .inside p)
    (hpc : ∀ p, pc ≠ .inside p) (u : ι) : (w.go t pc).pc u = w.pc u ∨
      (∀ p, w.pc u ≠ .inside p) ∧ ∀ p, (w.go t pc).pc u ≠ .inside p := by
  by_cases hut : u = t
  · subst hut
    rw [go_same]
    exact Or.inr ⟨hw, hpc⟩
  · exact Or.inl (go_other w pc hut)

theorem Open.go {w : World σ ι π γ} {t : ι} {gate : γ} {pc : Pc π γ} (ho : Open w gate)
    (ht : w.pc t ≠ .repost gate) : Open (w.go t pc) gate := by
  rcases ho with hpos | ⟨u, hu⟩
  · exact Or.inl hpos
  · have hut : u ≠ t := by
      rintro rfl
      exact ht hu
    exact Or.inr ⟨u, (go_other w pc hut).trans hu⟩

theorem open_of_go {w : World σ ι π γ} {t : ι} {gate : γ} {pc : Pc π γ} (hpc : pc ≠ .repost gate)
    (ho : Open (w.go t pc) gate) : Open w gate := by
  rcases ho with hpos | ⟨u, hu⟩
  · exact Or.inl hpos
  · by_cases hut : u = t
    · subst hut
      rw [go_same] at hu
      exact absurd hu hpc
    · rw [go_other w pc hut] at hu
      exact Or.inr ⟨u, hu⟩

end Go

section Give
variable [DecidableEq γ]

def World.give (w : World σ ι π γ) (gate : γ) (n : ℕ) : World σ ι π γ :=
  { w with gates := Function.update w.gates gate n }

@[simp] theorem give_shared (w : World σ ι π γ) (gate : γ) (n : ℕ) :
    (w.give gate n).shared = w.shared := rfl

@[simp] theorem give_sem (w : World σ ι π γ) (gate : γ) (n : ℕ) :
    (w.give gate n).sem = w.sem := rfl

@[simp] theorem give_pc (w : World σ ι π γ) (gate : γ) (n : ℕ) : (w.give gate n).pc = w.pc := rfl

@[simp] theorem give_same (w : World σ ι π γ) (gate : γ) (n : ℕ) :
    (w.give gate n).gates gate = n :=
  Function.update_self ..

theorem give_other (w : World σ ι π γ) {gate other : γ} (n : ℕ) (h : other ≠ gate) :
    (w.give gate n).gates other = w.gates other :=
  Function.update_of_ne h ..

theorem open_give {w : World σ ι π γ} {gate other : γ} {n : ℕ} (h : gate ≠ other) :
    Open (w.give other n) gate ↔ Open w gate := by
  rw [Open, Open, give_other w n h, give_pc]

end Give

section Machine
variable [DecidableEq ι] [DecidableEq γ]

def step (c : Program σ ι π γ ε) : Step (World σ ι π γ) ι (ι × ε)
  | w, t => match w.pc t with
    | .enter =>
      if w.sem = 0 then none
      else some ({ w.go t (.inside (c.entry t)) with sem := w.sem-1 }, [])
    | .inside p => match c.body p w.shared with
      | .goes shared next events =>
        some ({ w.go t (.inside next) with shared := shared }, events.map fun e => (t, e))
      | .posts gate next => some ((w.give gate (w.gates gate+1)).go t (.inside next), [])
      | .leaves exit => some ({ w.go t exit.pc with sem := w.sem+1 }, [])
    | .wait gate =>
      if w.gates gate = 0 then none
      else some ((w.give gate (w.gates gate-1)).go t (.repost gate), [(t, c.passed gate)])
    | .repost gate => some ((w.give gate (w.gates gate+1)).go t .enter, [])
    | .returned => none

end Machine

def start (s : σ) (gates : γ → ℕ) : World σ ι π γ := ⟨s, 1, gates, fun _ => .enter⟩

/-- The thread inside the section, with its next statement, or none. -/
def Inside (w : World σ ι π γ) : Option (ι × π) → Prop
  | none => w.sem = 1 ∧ ∀ t p, w.pc t ≠ .inside p
  | some (t, p) => w.sem = 0 ∧ w.pc t = .inside p ∧ ∀ u, u ≠ t → ∀ q, w.pc u ≠ .inside q

section Holder
variable {w v : World σ ι π γ} {o : Option (ι × π)}

theorem start_inside (s : σ) (gates : γ → ℕ) : Inside (start s gates : World σ ι π γ) none :=
  ⟨rfl, fun _ _ h => by cases h⟩

theorem Inside.eq {t : ι} {p : π} (hi : Inside w o) (hpc : w.pc t = .inside p) :
    o = some (t, p) := by
  cases o with
  | none => exact absurd hpc (hi.2 t p)
  | some x =>
    obtain ⟨u, q⟩ := x
    obtain ⟨-, hu, hothers⟩ := hi
    by_cases hut : t = u
    · subst hut
      rw [hpc] at hu
      cases hu
      rfl
    · exact absurd hpc (hothers t hut p)

theorem Inside.unique {o' : Option (ι × π)} (hi : Inside w o) (hi' : Inside w o') : o = o' := by
  cases o with
  | some x => exact (hi'.eq hi.2.1).symm
  | none => cases o' with
    | none => rfl
    | some x => exact absurd hi'.2.1 (hi.2 x.1 x.2)

theorem Inside.congr (hi : Inside w o) (hsem : v.sem = w.sem)
    (hpc : ∀ u, v.pc u = w.pc u ∨ (∀ p, w.pc u ≠ .inside p) ∧ ∀ p, v.pc u ≠ .inside p) :
    Inside v o := by
  have hout : ∀ u, (∀ p, w.pc u ≠ .inside p) → ∀ p, v.pc u ≠ .inside p := by
    intro u h
    rcases hpc u with heq | hne
    · rwa [heq]
    · exact hne.2
  cases o with
  | none => exact ⟨hsem.trans hi.1, fun u => hout u (hi.2 u)⟩
  | some x =>
    obtain ⟨t, p⟩ := x
    obtain ⟨hzero, ht, hothers⟩ := hi
    refine ⟨hsem.trans hzero, ?_, fun u hut => hout u (hothers u hut)⟩
    rcases hpc t with heq | hne
    · rwa [heq]
    · exact absurd ht (hne.1 p)

theorem one_inside (hi : Inside w o) {t u : ι} {p q : π}
    (ht : w.pc t = .inside p) (hu : w.pc u = .inside q) : t = u := by
  have heq := (hi.eq ht).symm.trans (hi.eq hu)
  cases heq
  rfl

/-- If all threads are blocked that have not returned, they wait for gates where
no permit is given back. -/
theorem all_blocked (hi : Inside w o) (hall : ∀ t, w.pc t ≠ .returned → Blocked w t) (t : ι)
    (ht : w.pc t ≠ .returned) : ∃ gate, w.pc t = .wait gate ∧ ¬ Open w gate := by
  have hsem : w.sem ≠ 0 := by
    cases o with
    | none => simp [hi.1]
    | some x =>
      obtain ⟨u, p⟩ := x
      have hu := hall u (by simp [hi.2.1])
      simp [Blocked, hi.2.1] at hu
  rcases hall t ht with ⟨-, hzero⟩ | ⟨gate, hpc, hgate⟩
  · exact absurd hzero hsem
  · refine ⟨gate, hpc, ?_⟩
    rintro (hpos | ⟨u, hu⟩)
    · omega
    · have hb := hall u (by simp [hu])
      simp [Blocked, hu] at hb

end Holder

inductive Moves (c : Program σ ι π γ ε) (s : σ) :
    Option (ι × π) → Option (ι × π) → σ → List (ι × ε) → Prop
  | enters (t : ι) : Moves c s none (some (t, c.entry t)) s []
  | goes (t : ι) {p q : π} {s' : σ} {events : List ε} (h : c.body p s = .goes s' q events) :
      Moves c s (some (t, p)) (some (t, q)) s' (events.map fun e => (t, e))
  | posts (t : ι) {p q : π} {gate : γ} (h : c.body p s = .posts gate q) :
      Moves c s (some (t, p)) (some (t, q)) s []
  | leaves (t : ι) {p : π} {exit : Exit γ} (h : c.body p s = .leaves exit) :
      Moves c s (some (t, p)) none s []
  | passes (o : Option (ι × π)) (t : ι) (gate : γ) : Moves c s o o s [(t, c.passed gate)]
  | rests (o : Option (ι × π)) : Moves c s o o s []

section Steps
variable [DecidableEq ι] [DecidableEq γ] {c : Program σ ι π γ ε} {w v : World σ ι π γ} {t : ι}
  {es fs : List (ι × ε)}

inductive Does (c : Program σ ι π γ ε) (w : World σ ι π γ) (t : ι) :
    World σ ι π γ → List (ι × ε) → Prop
  | enters (hpc : w.pc t = .enter) (hsem : w.sem ≠ 0) :
      Does c w t { w.go t (.inside (c.entry t)) with sem := w.sem-1 } []
  | goes {p q : π} {s : σ} {events : List ε} (hpc : w.pc t = .inside p)
      (hb : c.body p w.shared = .goes s q events) :
      Does c w t { w.go t (.inside q) with shared := s } (events.map fun e => (t, e))
  | posts {p q : π} {gate : γ} (hpc : w.pc t = .inside p)
      (hb : c.body p w.shared = .posts gate q) :
      Does c w t ((w.give gate (w.gates gate+1)).go t (.inside q)) []
  | leaves {p : π} {exit : Exit γ} (hpc : w.pc t = .inside p)
      (hb : c.body p w.shared = .leaves exit) :
      Does c w t { w.go t exit.pc with sem := w.sem+1 } []
  | passes {gate : γ} (hpc : w.pc t = .wait gate) (hgate : w.gates gate ≠ 0) :
      Does c w t ((w.give gate (w.gates gate-1)).go t (.repost gate)) [(t, c.passed gate)]
  | reposts {gate : γ} (hpc : w.pc t = .repost gate) :
      Does c w t ((w.give gate (w.gates gate+1)).go t .enter) []

theorem step_does (h : step c w t = some (v, es)) : Does c w t v es := by
  cases hpc : w.pc t with
  | enter =>
    simp only [step, hpc, Option.ite_none_left_eq_some, Option.some.injEq, Prod.mk.injEq] at h
    obtain ⟨hsem, rfl, rfl⟩ := h
    exact .enters hpc hsem
  | inside p =>
    simp only [step, hpc] at h
    cases hb : c.body p w.shared with
    | goes s q events =>
      simp only [hb, Option.some.injEq, Prod.mk.injEq] at h
      obtain ⟨rfl, rfl⟩ := h
      exact .goes hpc hb
    | posts gate q =>
      simp only [hb, Option.some.injEq, Prod.mk.injEq] at h
      obtain ⟨rfl, rfl⟩ := h
      exact .posts hpc hb
    | leaves exit =>
      simp only [hb, Option.some.injEq, Prod.mk.injEq] at h
      obtain ⟨rfl, rfl⟩ := h
      exact .leaves hpc hb
  | wait gate =>
    simp only [step, hpc, Option.ite_none_left_eq_some, Option.some.injEq, Prod.mk.injEq] at h
    obtain ⟨hgate, rfl, rfl⟩ := h
    exact .passes hpc hgate
  | repost gate =>
    simp only [step, hpc, Option.some.injEq, Prod.mk.injEq] at h
    obtain ⟨rfl, rfl⟩ := h
    exact .reposts hpc
  | returned => simp [step, hpc] at h

theorem Does.other (hd : Does c w t v es) {u : ι} (h : u ≠ t) : v.pc u = w.pc u := by
  cases hd <;> simp only [go_other _ _ h, give_pc]

theorem Does.tagged (hd : Does c w t v es) (e : ι × ε) (he : e ∈ es) : e.1 = t := by
  cases hd with
  | goes hpc hb =>
    obtain ⟨f, -, rfl⟩ := List.mem_map.mp he
    rfl
  | passes hpc hgate => rw [List.mem_singleton.mp he]
  | enters | posts | leaves | reposts => cases he

theorem blocked_of_none (h : step c w t = none) (hpc : w.pc t ≠ .returned) : Blocked w t := by
  cases hw : w.pc t with
  | enter =>
    simp only [step, hw, ite_eq_left_iff, reduceCtorEq, imp_false, not_not] at h
    exact Or.inl ⟨hw, h⟩
  | inside p =>
    simp only [step, hw] at h
    cases hb : c.body p w.shared <;> simp [hb] at h
  | wait gate =>
    simp only [step, hw, ite_eq_left_iff, reduceCtorEq, imp_false, not_not] at h
    exact Or.inr ⟨gate, hw, h⟩
  | repost gate => simp [step, hw] at h
  | returned => exact absurd hw hpc

/-- The machine runs the section as a single process would. -/
theorem inside_step {o : Option (ι × π)} (hi : Inside w o) (hd : Does c w t v es) :
    ∃ o', Inside v o' ∧ Moves c w.shared o o' v.shared es := by
  cases hd with
  | enters hpc hsem =>
    cases o with
    | some x => exact absurd hi.1 hsem
    | none =>
      refine ⟨some (t, c.entry t), ⟨?_, go_same .., fun u hut q => ?_⟩, .enters t⟩
      · rw [hi.1]
      · rw [go_other w _ hut]
        exact hi.2 u q
  | @goes p q s events hpc hb =>
    cases hi.eq hpc
    refine ⟨some (t, q), ⟨hi.1, go_same .., fun u hut r => ?_⟩, .goes t hb⟩
    rw [go_other w _ hut]
    exact hi.2.2 u hut r
  | @posts p q gate hpc hb =>
    cases hi.eq hpc
    refine ⟨some (t, q), ⟨hi.1, go_same .., fun u hut r => ?_⟩, .posts t hb⟩
    rw [go_other _ _ hut]
    exact hi.2.2 u hut r
  | @leaves p exit hpc hb =>
    cases hi.eq hpc
    refine ⟨none, ⟨?_, fun u q => ?_⟩, .leaves t hb⟩
    · exact congrArg (·+1) hi.1
    · by_cases hut : u = t
      · subst hut
        rw [go_same]
        cases exit <;> simp [Exit.pc]
      · rw [go_other w _ hut]
        exact hi.2.2 u hut q
  | @passes gate hpc hgate =>
    refine ⟨o, hi.congr rfl (go_congr _ ?_ ?_), .passes o t gate⟩ <;> simp [hpc]
  | @reposts gate hpc =>
    refine ⟨o, hi.congr rfl (go_congr _ ?_ ?_), .rests o⟩ <;> simp [hpc]

/-- What every statement keeps, whoever executes it, holds after every schedule. -/
theorem section_induction (P : List (ι × ε) → Option (ι × π) → σ → Prop) (s₀ : σ)
    (gates : γ → ℕ) (h0 : P [] none s₀)
    (hmove : ∀ es o o' s s' fs, P es o s → Moves c s o o' s' fs → P (es++fs) o' s')
    {as : List ι} {w : World σ ι π γ} {es : List (ι × ε)}
    (hr : run (step c) as (start s₀ gates) = some (w, es)) :
    ∃ o, Inside w o ∧ P es o w.shared := by
  refine run_induction (step c) (start s₀ gates) (fun es w => ∃ o, Inside w o ∧ P es o w.shared)
    ⟨none, start_inside s₀ gates, h0⟩ ?_ as w es hr
  rintro es w t v fs ⟨o, hi, hp⟩ hs
  obtain ⟨o', hi', hm⟩ := inside_step hi (step_does hs)
  exact ⟨o', hi', hmove es o o' w.shared v.shared fs hp hm⟩

theorem posts_open (w : World σ ι π γ) (t : ι) (pc : Pc π γ) (gate : γ) :
    Open ((w.give gate (w.gates gate+1)).go t pc) gate := by
  left
  simp

theorem open_step {gate : γ} (ho : Open w gate) (hd : Does c w t v es) : Open v gate := by
  cases hd with
  | enters hpc hsem => exact ho.go (by simp [hpc])
  | goes hpc hb => exact ho.go (by simp [hpc])
  | @posts p q other hpc hb =>
    by_cases h : gate = other
    · subst h
      exact posts_open w t _ gate
    · exact ((open_give h).mpr ho).go (by simp [hpc])
  | leaves hpc hb => exact ho.go (by simp [hpc])
  | @passes other hpc hgate =>
    by_cases h : gate = other
    · subst h
      exact Or.inr ⟨t, go_same ..⟩
    · exact ((open_give h).mpr ho).go (by simp [hpc])
  | @reposts other hpc =>
    by_cases h : gate = other
    · subst h
      exact posts_open w t _ gate
    · exact ((open_give h).mpr ho).go (by simp [hpc, Ne.symm h])

theorem opens_by_post {gate : γ} (ho : ¬ Open w gate) (hd : Does c w t v es) (hv : Open v gate) :
    ∃ p q, w.pc t = .inside p ∧ c.body p w.shared = .posts gate q := by
  cases hd with
  | @enters hpc hsem =>
    exact absurd (open_of_go (by simp) (show Open (w.go t (.inside (c.entry t))) gate from hv)) ho
  | @goes p q s events hpc hb =>
    exact absurd (open_of_go (by simp) (show Open (w.go t (.inside q)) gate from hv)) ho
  | @posts p q other hpc hb =>
    by_cases h : gate = other
    · subst h
      exact ⟨p, q, hpc, hb⟩
    · exact absurd ((open_give h).mp (open_of_go (by simp) hv)) ho
  | @leaves p exit hpc hb =>
    have hexit : (exit.pc : Pc π γ) ≠ .repost gate := by cases exit <;> simp [Exit.pc]
    exact absurd (open_of_go hexit (show Open (w.go t exit.pc) gate from hv)) ho
  | @passes other hpc hgate =>
    by_cases h : gate = other
    · subst h
      exact absurd (Or.inl (Nat.pos_of_ne_zero hgate)) ho
    · exact absurd ((open_give h).mp (open_of_go (by simpa using Ne.symm h) hv)) ho
  | @reposts other hpc =>
    by_cases h : gate = other
    · subst h
      exact absurd (Or.inr ⟨t, hpc⟩) ho
    · exact absurd ((open_give h).mp (open_of_go (by simp) hv)) ho

theorem pass_alone {gate : γ} (hpc : w.pc t = .wait gate) (hgate : w.gates gate ≠ 0) :
    ∃ v, step c w t = some (v, [(t, c.passed gate)]) := by
  refine ⟨(w.give gate (w.gates gate-1)).go t (.repost gate), ?_⟩
  simp only [step, hpc, if_neg hgate]

theorem pass_open {gate : γ} (hpc : w.pc t = .wait gate) (ho : Open w gate) :
    ∃ bs v, run (step c) bs w = some (v, [(t, c.passed gate)]) := by
  by_cases hgate : w.gates gate = 0
  · obtain ⟨u, hu⟩ : ∃ u, w.pc u = .repost gate := by
      rcases ho with hpos | hu
      · omega
      · exact hu
    have hne : t ≠ u := by
      rintro rfl
      rw [hpc] at hu
      cases hu
    have hrepost : step c w u = some ((w.give gate (w.gates gate+1)).go u .enter, []) := by
      simp only [step, hu]
    obtain ⟨v, hv⟩ := @pass_alone σ ι π γ ε _ _ c ((w.give gate (w.gates gate+1)).go u .enter) t
      gate (by rw [go_other _ _ hne, give_pc, hpc]) (by simp)
    exact ⟨[u, t], v, run_cons.mpr ⟨_, [], _, hrepost, run_cons.mpr ⟨v, _, [], hv, rfl, rfl⟩, rfl⟩⟩
  · obtain ⟨v, hv⟩ := @pass_alone σ ι π γ ε _ _ c w t gate hpc hgate
    exact ⟨[t], v, run_cons.mpr ⟨v, _, [], hv, rfl, rfl⟩⟩

/-- What the statements of a thread keep of its own control point. -/
theorem pc_induction (F : ι → Pc π γ → Prop) (s₀ : σ) (gates : γ → ℕ)
    (henter : ∀ t, F t .enter) (hentry : ∀ t, F t (.inside (c.entry t)))
    (hgoes : ∀ t p s s' q fs, F t (.inside p) → c.body p s = .goes s' q fs → F t (.inside q))
    (hposts : ∀ t p s gate q, F t (.inside p) → c.body p s = .posts gate q → F t (.inside q))
    (hleaves : ∀ t p s exit, F t (.inside p) → c.body p s = .leaves exit → F t exit.pc)
    (hrepost : ∀ t gate, F t (.wait gate) → F t (.repost gate))
    {w : World σ ι π γ} (hr : Reachable (step c) (start s₀ gates) w) (t : ι) : F t (w.pc t) := by
  refine hr.induction (P := fun w => ∀ t, F t (w.pc t)) henter ?_ t
  intro w u v fs hf hs t
  have hu := hf u
  by_cases htu : t = u
  · subst htu
    cases step_does hs with
    | enters hpc hsem => simpa only [go_same] using hentry t
    | goes hpc hb =>
      rw [hpc] at hu
      simpa only [go_same] using hgoes t _ _ _ _ _ hu hb
    | posts hpc hb =>
      rw [hpc] at hu
      simpa only [go_same] using hposts t _ _ _ _ hu hb
    | leaves hpc hb =>
      rw [hpc] at hu
      simpa only [go_same] using hleaves t _ _ _ hu hb
    | passes hpc hgate =>
      rw [hpc] at hu
      simpa only [go_same] using hrepost t _ hu
    | reposts hpc => simpa only [go_same] using henter t
  · rw [(step_does hs).other htu]
    exact hf t

theorem returns {u : ι} (hd : Does c w t v es) (hw : w.pc u ≠ .returned)
    (hv : v.pc u = .returned) :
    u = t ∧ v.shared = w.shared ∧ v.sem ≠ 0 ∧
      ∃ p, w.pc t = .inside p ∧ c.body p w.shared = .leaves .stops := by
  have hut : u = t := by
    by_contra hut
    exact hw ((hd.other hut).symm.trans hv)
  subst hut
  cases hd with
  | @leaves p exit hpc hb =>
    simp only [go_same] at hv
    cases exit with
    | stops => exact ⟨rfl, rfl, Nat.succ_ne_zero _, p, hpc, hb⟩
    | again => cases hv
    | turns gate => cases hv
  | _ => simp at hv

/-- A thread has returned only once `Q` holds of the section, when leaving it for
good needs `Q` and no statement makes `Q` false. The statements may use an
invariant `P`, and what is known of the control points. -/
theorem returned_induction (K : ι → Prop) (F : ι → Pc π γ → Prop) (P Q : Option (ι × π) → σ → Prop)
    (s₀ : σ) (gates : γ → ℕ) (h0 : P none s₀)
    (hF : ∀ w, Reachable (step c) (start s₀ gates) w → ∀ t, F t (w.pc t))
    (hP : ∀ o o' s s' fs, P o s → Moves c s o o' s' fs → P o' s')
    (hQ : ∀ o o' s s' fs, P o s → Q o s → Moves c s o o' s' fs → Q o' s')
    (hstops : ∀ t p s, K t → F t (.inside p) → P (some (t, p)) s → c.body p s = .leaves .stops →
      Q none s)
    {w : World σ ι π γ} (hr : Reachable (step c) (start s₀ gates) w) :
    ∃ o, Inside w o ∧ P o w.shared ∧ ∀ t, K t → w.pc t = .returned → Q o w.shared := by
  have hall : Reachable (step c) (start s₀ gates) w ∧
      ∃ o, Inside w o ∧ P o w.shared ∧ ∀ t, K t → w.pc t = .returned → Q o w.shared := by
    refine hr.induction (P := fun w => Reachable (step c) (start s₀ gates) w ∧
      ∃ o, Inside w o ∧ P o w.shared ∧ ∀ t, K t → w.pc t = .returned → Q o w.shared)
      ⟨.start .., none, start_inside s₀ gates, h0, fun t _ ht => by cases ht⟩ ?_
    rintro w t v fs ⟨hw, o, hi, hp, hq⟩ hs
    have hd := step_does hs
    obtain ⟨o', hi', hm⟩ := inside_step hi hd
    refine ⟨hw.next hs, o', hi', hP o o' _ _ _ hp hm, fun u hk hu => ?_⟩
    by_cases hold : w.pc u = .returned
    · exact hQ o o' _ _ _ hp (hq u hk hold) hm
    · obtain ⟨rfl, hshared, hsem, p, hpc, hb⟩ := returns hd hold hu
      cases hi.eq hpc
      have ho : o' = none := by
        cases o' with
        | none => rfl
        | some x => exact absurd hi'.1 hsem
      subst ho
      rw [hshared]
      exact hstops u p w.shared hk (hpc ▸ hF w hw u) hp hb
  exact hall.2

end Steps

end Semestr4.GatedSection
