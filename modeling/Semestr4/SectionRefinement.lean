import Semestr4.ConditionMonitor
import Semestr4.GatedSection

/-!
# Sections as calls under a mutex

Where every passage through a section does what one call of a body does, a run of
the sections under their semaphore and gates is a run of the bodies under one
mutex with conditions. A call is made when the passage ends, so that the shared
data of the mutex stand where the thread inside the section found them.
-/

set_option autoImplicit false

namespace Semestr4.SectionRefinement
open Semestr4.ScheduledRun Semestr4.GatedSection
open Semestr4.ConditionMonitor (Outcome)

variable {σ ι π γ ε κ δ : Type*}

/-- The statements from one point of the section to another, by a thread that is
not disturbed. -/
inductive Path (c : Program σ ι π γ ε) (p : π) (s : σ) : List ε → π → σ → Prop
  | start : Path c p s [] p s
  | goes {q r : π} {t u : σ} {es fs : List ε} (h : Path c p s es q t)
      (hb : c.body q t = .goes u r fs) : Path c p s (es++fs) r u
  | posts {q r : π} {t : σ} {es : List ε} {gate : γ} (h : Path c p s es q t)
      (hb : c.body q t = .posts gate r) : Path c p s es r t

/-- Every passage is a call of the body, in what can be observed of both. -/
structure Refines (c : Program σ ι π γ ε) (body : ι → σ → Outcome σ κ Bool δ)
    (observe : ε → Option δ) : Prop where
  passed : ∀ gate, observe (c.passed gate) = none
  call : ∀ {t s es p s' exit}, Path c (c.entry t) s es p s' → c.body p s' = .leaves exit →
    (body t s).shared = s' ∧ (body t s).events = es.filterMap observe ∧
      ((body t s).exit = .returns true ↔ exit = .stops)

def observed (observe : ε → Option δ) (es : List (ι × ε)) : List δ :=
  es.filterMap fun e => observe e.2

theorem observed_append (observe : ε → Option δ) (es fs : List (ι × ε)) :
    observed observe (es++fs) = observed observe es++observed observe fs :=
  List.filterMap_append

theorem observed_tagged (observe : ε → Option δ) (t : ι) (es : List ε) :
    observed observe (es.map fun e => (t, e)) = es.filterMap observe := by
  rw [observed, List.filterMap_map]
  rfl

def Begun (c : Program σ ι π γ ε) (observe : ε → Option δ) (s : σ) :
    Option (ι × π) → σ → List δ → Prop
  | none, s', gs => s' = s ∧ gs = []
  | some (t, p), s', gs => ∃ es, Path c (c.entry t) s es p s' ∧ gs = es.filterMap observe

structure Simulates (c : Program σ ι π γ ε) (observe : ε → Option δ) (w : World σ ι π γ)
    (es : List (ι × ε)) (v : ConditionMonitor.World σ ι κ) (fs : List δ) : Prop where
  passage : ∃ o gs, Inside w o ∧ Begun c observe v.shared o w.shared gs ∧
    observed observe es = fs++gs
  returned : ∀ t, w.pc t = .returned ↔ v.phase t = .returned

section Machine
variable {c : Program σ ι π γ ε} {body : ι → σ → Outcome σ κ Bool δ} {observe : ε → Option δ}
  {w w' : World σ ι π γ} {es es' : List (ι × ε)} {v : ConditionMonitor.World σ ι κ} {fs : List δ}

theorem Simulates.observed_prefix (h : Simulates c observe w es v fs) :
    fs <+: observed observe es := by
  obtain ⟨o, gs, -, -, heq⟩ := h.passage
  exact ⟨gs, heq.symm⟩

theorem Simulates.between (h : Simulates c observe w es v fs) (hsem : w.sem ≠ 0) :
    v.shared = w.shared ∧ fs = observed observe es := by
  obtain ⟨o, gs, hi, hbegun, heq⟩ := h.passage
  cases o with
  | some x => exact absurd hi.1 hsem
  | none =>
    obtain ⟨hshared, rfl⟩ := hbegun
    exact ⟨hshared.symm, by rw [heq, List.append_nil]⟩

theorem simulates_start (s : σ) (gates : γ → ℕ) :
    Simulates c observe (start s gates : World σ ι π γ) []
      (ConditionMonitor.start s : ConditionMonitor.World σ ι κ) [] where
  passage := ⟨none, [], start_inside s gates, ⟨rfl, rfl⟩, rfl⟩
  returned _ := iff_of_false (by simp [start]) (by simp [ConditionMonitor.start])

variable [DecidableEq ι] [DecidableEq κ]

theorem ready_run (body : ι → σ → Outcome σ κ Bool δ) (v : ConditionMonitor.World σ ι κ) (t : ι)
    (h : v.phase t ≠ .returned) :
    ∃ bs v', run (ConditionMonitor.step body) bs v = some (v', []) ∧ v'.shared = v.shared ∧
      v'.phase = Function.update v.phase t .ready := by
  have hresume : ∀ u : ConditionMonitor.World σ ι κ, u.phase t = .woken →
      ConditionMonitor.step body u (.resume t) =
        some ({ u with phase := Function.update u.phase t .ready }, []) := fun u hu => if_pos hu
  cases hphase : v.phase t with
  | ready => exact ⟨[], v, rfl, rfl, by rw [← hphase, Function.update_eq_self]⟩
  | woken =>
    exact ⟨[.resume t], _, run_cons.mpr ⟨_, [], [], hresume v hphase, rfl, rfl⟩, rfl, rfl⟩
  | asleep k =>
    let u : ConditionMonitor.World σ ι κ :=
      { v with phase := Function.update v.phase t .woken }
    have hwake : ConditionMonitor.step body v (.wake t) = some (u, []) := by
      simp only [ConditionMonitor.step, hphase, u]
    refine ⟨[.wake t, .resume t], _, run_cons.mpr ⟨u, [], [], hwake, run_cons.mpr
      ⟨_, [], [], hresume u (Function.update_self ..), rfl, rfl⟩, rfl⟩, rfl, ?_⟩
    exact Function.update_idem ..
  | returned => exact absurd hphase h

/-- One call of a thread that has not returned. -/
theorem call_run (body : ι → σ → Outcome σ κ Bool δ) (v : ConditionMonitor.World σ ι κ) (t : ι)
    (h : v.phase t ≠ .returned) :
    ∃ bs v', run (ConditionMonitor.step body) bs v = some (v', (body t v.shared).events) ∧
      v'.shared = (body t v.shared).shared ∧
      (v'.phase t = .returned ↔ (body t v.shared).exit = .returns true) ∧
      ∀ u, u ≠ t → (v'.phase u = .returned ↔ v.phase u = .returned) := by
  obtain ⟨bs, v', hrun, hshared, hphase⟩ := ready_run body v t h
  have hready : v'.phase t = .ready := by rw [hphase, Function.update_self]
  have henter : ConditionMonitor.step body v' (.enter t) =
      some (ConditionMonitor.enter v' t (body t v.shared), (body t v.shared).events) := by
    rw [← hshared]
    exact if_pos hready
  refine ⟨bs++[.enter t], _, run_snoc.mpr ⟨v', [], _, hrun, henter, rfl⟩, rfl, ?_, fun u hu => ?_⟩
  · simp only [ConditionMonitor.enter, Function.update_self]
    exact ConditionMonitor.phase_returned
  · simp only [ConditionMonitor.enter, Function.update_of_ne hu,
      ConditionMonitor.signalled_returned, hphase]

theorem go_returned {t : ι} {pc : Pc π γ} (u : ι) (hw : w.pc t ≠ .returned)
    (hpc : pc ≠ .returned) : (w.go t pc).pc u = .returned ↔ w.pc u = .returned := by
  by_cases hut : u = t
  · subst hut
    rw [go_same]
    exact iff_of_false hpc hw
  · rw [go_other w pc hut]

variable [DecidableEq γ]

theorem Simulates.step (href : Refines c body observe) (h : Simulates c observe w es v fs) {t : ι}
    (hd : Does c w t w' es') :
    ∃ bs v' fs', run (ConditionMonitor.step body) bs v = some (v', fs') ∧
      Simulates c observe w' (es++es') v' (fs++fs') := by
  obtain ⟨o, gs, hi, hbegun, heq⟩ := h.passage
  obtain ⟨o', hi', -⟩ := inside_step hi hd
  -- every step but the last one of a passage leaves the calls as they are
  have hquiet : (∃ gs', Begun c observe v.shared o' w'.shared gs' ∧
        observed observe (es++es') = fs++gs') →
      (∀ u, w'.pc u = .returned ↔ w.pc u = .returned) →
      ∃ bs v' fs', run (ConditionMonitor.step body) bs v = some (v', fs') ∧
        Simulates c observe w' (es++es') v' (fs++fs') := by
    rintro ⟨gs', hbegun', heq'⟩ hreturned
    refine ⟨[], v, [], rfl, ⟨o', gs', hi', hbegun', ?_⟩, fun u => ?_⟩
    · rw [heq', List.append_nil]
    · exact (hreturned u).trans (h.returned u)
  cases hd with
  | enters hpc hsem =>
    cases hi'.eq (go_same ..)
    cases o with
    | some x => exact absurd hi.1 hsem
    | none =>
      obtain ⟨hshared, rfl⟩ := hbegun
      refine hquiet ⟨[], ⟨[], ?_, rfl⟩, by rw [List.append_nil, heq]⟩ fun u => ?_
      · change Path c (c.entry t) v.shared [] (c.entry t) w.shared
        rw [hshared]
        exact .start
      · exact go_returned u (by simp [hpc]) (by simp)
  | @goes p q s events hpc hb =>
    cases hi.eq hpc
    cases hi'.eq (go_same ..)
    obtain ⟨path, hpath, rfl⟩ := hbegun
    refine hquiet ⟨_, ⟨path++events, hpath.goes hb, rfl⟩, ?_⟩ fun u => ?_
    · rw [observed_append, heq, observed_tagged, List.filterMap_append, List.append_assoc]
    · exact go_returned u (by simp [hpc]) (by simp)
  | @posts p q gate hpc hb =>
    cases hi.eq hpc
    cases hi'.eq (go_same ..)
    obtain ⟨path, hpath, rfl⟩ := hbegun
    refine hquiet ⟨_, ⟨path, hpath.posts hb, rfl⟩, by rw [List.append_nil, heq]⟩ fun u => ?_
    exact go_returned u (by simp [hpc]) (by simp)
  | @leaves p exit hpc hb =>
    cases hi.eq hpc
    obtain ⟨path, hpath, rfl⟩ := hbegun
    obtain ⟨hshared, hevents, hexit⟩ := href.call hpath hb
    have ht : v.phase t ≠ .returned := fun hv => by
      have hw := (h.returned t).mpr hv
      rw [hpc] at hw
      cases hw
    obtain ⟨bs, v', hrun, hv, hreturned, hothers⟩ := call_run body v t ht
    refine ⟨bs, v', _, hrun, ⟨none, [], ?_, ⟨?_, rfl⟩, ?_⟩, fun u => ?_⟩
    · cases o' with
      | some x => exact absurd hi'.1 (Nat.succ_ne_zero _)
      | none => exact hi'
    · exact (hv.trans hshared).symm
    · rw [List.append_nil, List.append_nil, heq, hevents]
    · by_cases hut : u = t
      · subst hut
        rw [hreturned, hexit]
        simp only [go_same]
        cases exit <;> simp [Exit.pc]
      · rw [hothers u hut, ← h.returned u]
        simp only [go_other w _ hut]
  | @passes gate hpc hgate =>
    have ho : o' = o := hi'.unique (hi.congr rfl (go_congr _ (by simp [hpc]) (by simp)))
    subst ho
    refine hquiet ⟨gs, hbegun, ?_⟩ fun u => ?_
    · rw [observed_append, heq]
      simp [observed, href.passed]
    · exact go_returned u (by simp [hpc]) (by simp)
  | @reposts gate hpc =>
    have ho : o' = o := hi'.unique (hi.congr rfl (go_congr _ (by simp [hpc]) (by simp)))
    subst ho
    refine hquiet ⟨gs, hbegun, by rw [List.append_nil, heq]⟩ fun u => ?_
    exact go_returned u (by simp [hpc]) (by simp)

/-- Whatever the order of the statements, the section is run as by calls one after
the other, each of them at the moment at which its thread leaves. -/
theorem run_simulates (href : Refines c body observe) (s : σ) (gates : γ → ℕ) {as : List ι}
    (hr : run (GatedSection.step c) as (start s gates) = some (w, es)) :
    ∃ bs v fs, run (ConditionMonitor.step body) bs (ConditionMonitor.start s) = some (v, fs) ∧
      Simulates c observe w es v fs := by
  refine run_induction (GatedSection.step c) (start s gates)
    (fun es w => ∃ bs v fs, run (ConditionMonitor.step body) bs (ConditionMonitor.start s) =
      some (v, fs) ∧ Simulates c observe w es v fs)
    ⟨[], _, [], rfl, simulates_start s gates⟩ ?_ as w es hr
  rintro es w t w' es' ⟨bs, v, fs, hrun, hsim⟩ hs
  obtain ⟨bs', v', fs', hrun', hsim'⟩ := hsim.step href (step_does hs)
  exact ⟨bs++bs', v', fs++fs', run_append.mpr ⟨v, fs, fs', hrun, hrun', rfl⟩, hsim'⟩

end Machine

end Semestr4.SectionRefinement
