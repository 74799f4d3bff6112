import Mathlib.Data.List.Induction

/-!
# Runs of a system under a scheduler

A system is a partial step function: a state and one choice of the scheduler
give the next state with the events of that step, or nothing where the choice
is not enabled. A schedule is a finite list of choices. No fairness is assumed
of it, so what holds after every schedule holds in every reachable state.
-/

set_option autoImplicit false

namespace Semestr4.ScheduledRun

variable {σ α ε τ : Type*}

abbrev Step (σ α ε : Type*) := σ → α → Option (σ × List ε)

def run (step : Step σ α ε) : List α → σ → Option (σ × List ε)
  | [], s => some (s, [])
  | a::as, s => (step s a).bind fun p => (run step as p.1).map fun q => (q.1, p.2++q.2)

def Reachable (step : Step σ α ε) (s₀ s : σ) : Prop :=
  ∃ as es, run step as s₀ = some (s, es)

/-- Every choice of the schedule is made in a state where `C` holds of it. -/
def Meets (step : Step σ α ε) (C : σ → α → Prop) (s₀ : σ) (as : List α) : Prop :=
  ∀ before a after s es, as = before ++ a::after → run step before s₀ = some (s, es) → C s a

/-- Every state the schedule passes through satisfies `P`, the first and the
last included. -/
def Throughout (step : Step σ α ε) (P : σ → Prop) (s₀ : σ) (as : List α) : Prop :=
  ∀ before after s es, as = before ++ after → run step before s₀ = some (s, es) → P s

theorem run_cons {step : Step σ α ε} {a : α} {as : List α} {s u : σ} {es : List ε} :
    run step (a::as) s = some (u, es) ↔
      ∃ t fs gs, step s a = some (t, fs) ∧ run step as t = some (u, gs) ∧ es = fs++gs := by
  simp only [run, Option.bind_eq_some_iff, Option.map_eq_some_iff, Prod.mk.injEq, Prod.exists]
  constructor
  · rintro ⟨t, fs, hs, v, gs, hr, rfl, rfl⟩
    exact ⟨t, fs, gs, hs, hr, rfl⟩
  · rintro ⟨t, fs, gs, hs, hr, rfl⟩
    exact ⟨t, fs, hs, u, gs, hr, rfl, rfl⟩

theorem run_append {step : Step σ α ε} {as bs : List α} {s u : σ} {es : List ε} :
    run step (as++bs) s = some (u, es) ↔
      ∃ t fs gs, run step as s = some (t, fs) ∧ run step bs t = some (u, gs) ∧ es = fs++gs := by
  induction as generalizing s es with
  | nil => simp [run]
  | cons a as ih =>
    rw [List.cons_append, run_cons]
    constructor
    · rintro ⟨t, fs, gs, hs, hr, rfl⟩
      obtain ⟨v, fs', gs', hv, hw, rfl⟩ := ih.mp hr
      exact ⟨v, fs++fs', gs', run_cons.mpr ⟨t, fs, fs', hs, hv, rfl⟩, hw, by simp⟩
    · rintro ⟨v, fs, gs, hv, hw, rfl⟩
      obtain ⟨t, fs', gs', hs, hr, rfl⟩ := run_cons.mp hv
      exact ⟨t, fs', gs'++gs, hs, ih.mpr ⟨v, gs', gs, hr, hw, rfl⟩, by simp⟩

theorem run_snoc {step : Step σ α ε} {as : List α} {a : α} {s u : σ} {es : List ε} :
    run step (as++[a]) s = some (u, es) ↔
      ∃ t fs gs, run step as s = some (t, fs) ∧ step t a = some (u, gs) ∧ es = fs++gs := by
  have hlast : ∀ t v gs, run step [a] t = some (v, gs) ↔ step t a = some (v, gs) := by
    intro t v gs
    cases h : step t a <;> simp [run, h, Prod.ext_iff]
  simp only [run_append, hlast]

/-- Where no choice is ever disabled, every schedule runs to its end. -/
theorem run_total {step : Step σ α ε} (h : ∀ s a, ∃ t fs, step s a = some (t, fs)) (as : List α)
    (s : σ) : ∃ t es, run step as s = some (t, es) := by
  induction as generalizing s with
  | nil => exact ⟨s, [], rfl⟩
  | cons a as ih =>
    obtain ⟨t, fs, ht⟩ := h s a
    obtain ⟨u, es, hu⟩ := ih t
    exact ⟨u, fs++es, run_cons.mpr ⟨t, fs, es, ht, hu, rfl⟩⟩

theorem Meets.nil {step : Step σ α ε} {C : σ → α → Prop} {s₀ : σ} : Meets step C s₀ [] := by
  intro before a after s es h
  simp at h

theorem Meets.init {step : Step σ α ε} {C : σ → α → Prop} {s₀ : σ} {as : List α} {a : α}
    (h : Meets step C s₀ (as++[a])) : Meets step C s₀ as := by
  intro before b after s es has hr
  exact h before b (after++[a]) s es (by simp [has]) hr

theorem Meets.last {step : Step σ α ε} {C : σ → α → Prop} {s₀ s : σ} {as : List α} {a : α}
    {es : List ε} (h : Meets step C s₀ (as++[a])) (hr : run step as s₀ = some (s, es)) : C s a :=
  h as a [] s es rfl hr

theorem Meets.snoc {step : Step σ α ε} {C : σ → α → Prop} {s₀ : σ} {as : List α} {a : α}
    (h : Meets step C s₀ as) (ha : ∀ t fs, run step as s₀ = some (t, fs) → C t a) :
    Meets step C s₀ (as++[a]) := by
  intro before b after t fs has hr
  rcases List.eq_nil_or_concat after with rfl | ⟨rest, c, rfl⟩
  · obtain ⟨rfl, hb⟩ := List.append_inj' has rfl
    cases hb
    exact ha t fs hr
  · rw [List.concat_eq_append, ← List.cons_append, ← List.append_assoc] at has
    obtain ⟨hinit, -⟩ := List.append_inj' has rfl
    exact h before b rest t fs hinit hr

theorem Throughout.last {step : Step σ α ε} {P : σ → Prop} {s₀ s : σ} {as : List α}
    {es : List ε} (h : Throughout step P s₀ as) (hr : run step as s₀ = some (s, es)) : P s :=
  h as [] s es (by simp) hr

/-- An invariant of runs that may speak of the events so far. The step
hypothesis also receives the condition met by the schedule. -/
theorem run_induction_meets (step : Step σ α ε) (C : σ → α → Prop) (s₀ : σ)
    (P : List ε → σ → Prop) (start : P [] s₀)
    (next : ∀ es s a t fs, P es s → C s a → step s a = some (t, fs) → P (es++fs) t)
    (as : List α) (hC : Meets step C s₀ as) (s : σ) (es : List ε)
    (hr : run step as s₀ = some (s, es)) : P es s := by
  induction as using List.reverseRecOn generalizing s es with
  | nil =>
    simp only [run, Option.some.injEq, Prod.mk.injEq] at hr
    obtain ⟨rfl, rfl⟩ := hr
    exact start
  | append_singleton as a ih =>
    obtain ⟨t, fs, gs, ht, hs, rfl⟩ := run_snoc.mp hr
    exact next fs t a s gs (ih hC.init t fs ht) (hC.last ht) hs

theorem run_induction (step : Step σ α ε) (s₀ : σ) (P : List ε → σ → Prop) (start : P [] s₀)
    (next : ∀ es s a t fs, P es s → step s a = some (t, fs) → P (es++fs) t)
    (as : List α) (s : σ) (es : List ε) (hr : run step as s₀ = some (s, es)) : P es s :=
  run_induction_meets step (fun _ _ => True) s₀ P start
    (fun es s a t fs hp _ hs => next es s a t fs hp hs) as
    (fun _ _ _ _ _ _ _ => trivial) s es hr

theorem Reachable.induction {step : Step σ α ε} {s₀ : σ} {P : σ → Prop} (start : P s₀)
    (next : ∀ s a t fs, P s → step s a = some (t, fs) → P t) {s : σ}
    (h : Reachable step s₀ s) : P s := by
  obtain ⟨as, es, hr⟩ := h
  exact run_induction step s₀ (fun _ s => P s) start
    (fun _ s a t fs hp hs => next s a t fs hp hs) as s es hr

theorem Reachable.start (step : Step σ α ε) (s₀ : σ) : Reachable step s₀ s₀ :=
  ⟨[], [], rfl⟩

theorem Reachable.next {step : Step σ α ε} {s₀ s t : σ} {a : α} {fs : List ε}
    (h : Reachable step s₀ s) (hs : step s a = some (t, fs)) : Reachable step s₀ t := by
  obtain ⟨as, es, hr⟩ := h
  exact ⟨as++[a], es++fs, run_snoc.mpr ⟨s, es, fs, hr, hs, rfl⟩⟩

/-- Where the condition keeps an invariant `I` that implies `P`, and a step
against the condition ends outside `P`, a run stays in `P` exactly if all its
choices meet the condition. -/
theorem throughout_iff_meets {step : Step σ α ε} {C : σ → α → Prop} {P I : σ → Prop} {s₀ : σ}
    (start : I s₀) (holds : ∀ s, I s → P s)
    (keep : ∀ s a t fs, I s → C s a → step s a = some (t, fs) → I t)
    (lost : ∀ s a t fs, Reachable step s₀ s → step s a = some (t, fs) → P t → C s a)
    {as : List α} {u : σ} {es : List ε} (hr : run step as s₀ = some (u, es)) :
    Throughout step P s₀ as ↔ Meets step C s₀ as := by
  constructor
  · intro hall before a after s fs has hs
    subst has
    obtain ⟨v, gs, ks, hv, hrest, -⟩ := run_append.mp hr
    rw [hs] at hv
    obtain ⟨rfl, rfl⟩ := Prod.mk.inj (Option.some.inj hv)
    obtain ⟨t, gs, ls, hstep, -, -⟩ := run_cons.mp hrest
    apply lost s a t gs ⟨before, fs, hs⟩ hstep
    exact hall (before++[a]) after t (fs++gs) (by simp)
      (run_snoc.mpr ⟨s, fs, gs, hs, hstep, rfl⟩)
  · intro hmeets before after s fs has hs
    subst has
    have hfirst : Meets step C s₀ before := fun b a c v gs hb => hmeets b a (c++after) v gs (by
      rw [hb, List.append_assoc, List.cons_append])
    apply holds
    exact run_induction_meets step C s₀ (fun _ s => I s) start
      (fun _ s a t gs hi hC hstep => keep s a t gs hi hC hstep) before hfirst s fs hs

/-- The same where a step against the condition, from a state in which the
invariant holds, ends outside `P`. -/
theorem throughout_iff_meets_kept {step : Step σ α ε} {C : σ → α → Prop} {P I : σ → Prop} {s₀ : σ}
    (start : I s₀) (holds : ∀ s, I s → P s)
    (keep : ∀ s a t fs, I s → C s a → step s a = some (t, fs) → I t)
    (lost : ∀ s a t fs, I s → step s a = some (t, fs) → P t → C s a)
    {as : List α} {u : σ} {es : List ε} (hr : run step as s₀ = some (u, es)) :
    Throughout step P s₀ as ↔ Meets step C s₀ as := by
  have hkept : ∀ before s fs, Meets step C s₀ before → run step before s₀ = some (s, fs) → I s :=
    fun before s fs hmeets hs => run_induction_meets step C s₀ (fun _ s => I s) start
      (fun _ s a t gs hi hC hstep => keep s a t gs hi hC hstep) before hmeets s fs hs
  constructor
  · intro hall
    induction as using List.reverseRecOn generalizing u es with
    | nil => exact Meets.nil
    | append_singleton as a ih =>
      obtain ⟨t, fs, gs, ht, hs, -⟩ := run_snoc.mp hr
      have hfirst : Meets step C s₀ as := ih ht fun before after v ks has hv =>
        hall before (after++[a]) v ks (by rw [has, List.append_assoc]) hv
      refine hfirst.snoc fun v ks hv => ?_
      rw [ht] at hv
      cases hv
      exact lost t a u gs (hkept as t fs hfirst ht) hs (hall.last hr)
  · intro hmeets before after s fs has hs
    subst has
    apply holds
    refine hkept before s fs (fun b a c v gs hb hv => ?_) hs
    exact hmeets b a (c++after) v gs (by rw [hb, List.append_assoc, List.cons_append]) hv

/-- The same for a property `P` of the events so far and the state, where `I` holds
after every run: it holds at each moment of a run exactly if all choices meet
the condition. -/
theorem history_iff_meets {step : Step σ α ε} {C : σ → α → Prop} {P I : List ε → σ → Prop} {s₀ : σ}
    (hI : ∀ as s es, run step as s₀ = some (s, es) → I es s) (start : P [] s₀)
    (keep : ∀ es s a t fs, I es s → P es s → C s a → step s a = some (t, fs) → P (es++fs) t)
    (lost : ∀ es s a t fs, I es s → P es s → step s a = some (t, fs) → P (es++fs) t → C s a)
    {as : List α} {u : σ} {es : List ε} (hr : run step as s₀ = some (u, es)) :
    (∀ before after s es, as = before++after → run step before s₀ = some (s, es) → P es s) ↔
      Meets step C s₀ as := by
  constructor
  · intro hall before a after s fs has hs
    subst has
    obtain ⟨v, gs, ks, hv, hrest, -⟩ := run_append.mp hr
    rw [hs] at hv
    cases hv
    obtain ⟨t, gs, ls, hstep, -, -⟩ := run_cons.mp hrest
    refine lost fs s a t gs (hI before s fs hs) (hall before (a::after) s fs rfl hs) hstep ?_
    exact hall (before++[a]) after t (fs++gs) (by simp) (run_snoc.mpr ⟨s, fs, gs, hs, hstep, rfl⟩)
  · intro hmeets before after s fs has hs
    subst has
    induction before using List.reverseRecOn generalizing s fs after with
    | nil =>
      cases hs
      exact start
    | append_singleton before a ih =>
      obtain ⟨t, gs, ks, ht, hstep, rfl⟩ := run_snoc.mp hs
      have hP := ih ([a]++after) t gs ht (by rwa [← List.append_assoc]) (by rwa [← List.append_assoc])
      refine keep gs t a s ks (hI before t gs ht) hP ?_ hstep
      exact hmeets before a after t gs (by simp) ht

theorem meets_cons {step : Step σ α ε} {C : σ → α → Prop} {s : σ} {a : α} {as : List α} :
    Meets step C s (a::as) ↔
      C s a ∧ ∀ t fs, step s a = some (t, fs) → Meets step C t as := by
  constructor
  · intro h
    refine ⟨h [] a as s [] rfl rfl, ?_⟩
    intro t fs hs before b after u es has hr
    exact h (a::before) b after u (fs++es) (by rw [has, List.cons_append])
      (run_cons.mpr ⟨t, fs, es, hs, hr, rfl⟩)
  · rintro ⟨hC, hrest⟩ before b after u es has hr
    cases before with
    | nil =>
      obtain ⟨rfl, rfl⟩ := List.cons.inj has
      obtain ⟨rfl, rfl⟩ := Prod.mk.inj (Option.some.inj hr)
      exact hC
    | cons c before =>
      obtain ⟨rfl, rfl⟩ := List.cons.inj has
      obtain ⟨t, gs, ks, hs, hv, rfl⟩ := run_cons.mp hr
      exact hrest t gs hs before b after u ks rfl hv

theorem Meets.cons {step : Step σ α ε} {C : σ → α → Prop} {s t : σ} {a : α} {as : List α}
    {fs : List ε} (hC : C s a) (hs : step s a = some (t, fs)) (h : Meets step C t as) :
    Meets step C s (a::as) := by
  refine meets_cons.mpr ⟨hC, ?_⟩
  intro u gs hu
  rw [hs] at hu
  cases hu
  exact h

instance decidableMeets {step : Step σ α ε} {C : σ → α → Prop} [∀ s a, Decidable (C s a)] :
    (s : σ) → (as : List α) → Decidable (Meets step C s as)
  | _, [] => isTrue Meets.nil
  | s, a::as =>
    match h : step s a with
    | none => decidable_of_iff (C s a) (by simp [meets_cons, h])
    | some (t, fs) =>
      let _ : Decidable (Meets step C t as) := decidableMeets t as
      decidable_of_iff (C s a ∧ Meets step C t as) (by simp [meets_cons, h])

/-- Two conditions that agree where an invariant holds, if the first keeps it,
are met by the same schedules. -/
theorem meets_congr {step : Step σ α ε} {C D : σ → α → Prop} {I : σ → Prop} {s : σ} (start : I s)
    (keep : ∀ s a t fs, I s → C s a → step s a = some (t, fs) → I t)
    (same : ∀ s a, I s → (C s a ↔ D s a)) (as : List α) :
    Meets step C s as ↔ Meets step D s as := by
  induction as generalizing s with
  | nil => exact iff_of_true Meets.nil Meets.nil
  | cons a as ih =>
    rw [meets_cons, meets_cons, ← same s a start]
    apply and_congr_right
    intro hC
    constructor
    · intro h t fs hs
      exact (ih (keep s a t fs start hC hs)).mp (h t fs hs)
    · intro h t fs hs
      exact (ih (keep s a t fs start hC hs)).mpr (h t fs hs)

/-- Where a step against the condition shows in its events, and only such a step,
the events of the run tell whether its schedule met the condition. -/
theorem meets_iff_events {step : Step σ α ε} {C : σ → α → Prop} {bad : ε → Prop}
    (shows : ∀ s a t fs, step s a = some (t, fs) → (C s a ↔ ∀ e ∈ fs, ¬ bad e))
    {as : List α} {s u : σ} {es : List ε} (hr : run step as s = some (u, es)) :
    Meets step C s as ↔ ∀ e ∈ es, ¬ bad e := by
  induction as generalizing s es with
  | nil =>
    cases hr
    exact iff_of_true Meets.nil (fun e he => by cases he)
  | cons a as ih =>
    obtain ⟨t, fs, gs, hs, hrest, rfl⟩ := run_cons.mp hr
    have hnext : (∀ v ks, step s a = some (v, ks) → Meets step C v as) ↔ Meets step C t as := by
      constructor
      · exact fun h => h t fs hs
      · intro h v ks hv
        rw [hs] at hv
        cases hv
        exact h
    rw [meets_cons, shows s a t fs hs, hnext, ih hrest, List.forall_mem_append]

/-- The events of a run drive an abstract automaton. `view` reads the abstract
state off the concrete one, and each step has to be followed exactly. -/
theorem run_followed (step : Step σ α ε) (follow : τ → ε → Option τ) (s₀ : σ) (I : σ → Prop)
    (view : σ → τ) (start : I s₀)
    (next : ∀ s a t fs, I s → step s a = some (t, fs) →
      I t ∧ fs.foldlM follow (view s) = some (view t))
    (as : List α) (s : σ) (es : List ε) (hr : run step as s₀ = some (s, es)) :
    es.foldlM follow (view s₀) = some (view s) := by
  have h := run_induction step s₀
    (fun es s => I s ∧ es.foldlM follow (view s₀) = some (view s)) ⟨start, rfl⟩
    (fun es s a t fs hp hs => by
      obtain ⟨ht, hf⟩ := next s a t fs hp.1 hs
      refine ⟨ht, ?_⟩
      rw [List.foldlM_append, hp.2]
      exact hf) as s es hr
  exact h.2

end Semestr4.ScheduledRun
