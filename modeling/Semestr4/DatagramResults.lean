import Semestr4.DatagramTable

/-!
# The results of the datagram cluster

What a node has still to answer and the answers that the server has still to read are
under way. A node registers once, so that it has one number, and its results are
among the answers to the lines it was sent.
-/

set_option autoImplicit false

namespace Semestr4.DatagramResults
open Semestr4.ByteText Semestr4.DecimalText Semestr4.CharArray Semestr4.ScheduledRun
open Semestr4.ClusterServer (clusterSize accepted refused)
open Semestr4.ClusterClient (calculate recv reply)
open Semestr4.NodeNumbers (nodeOf)
open Semestr4.DatagramCluster Semestr4.DatagramTable Semestr4.MessageSoup

variable {ι : Type*} {es fs : List (Event ι)}

def history {β : Type*} (f : Event ι → Option β) (es : List (Event ι)) : Multiset β :=
  (es : Multiset (Event ι)).filterMap f

theorem history_snoc {β : Type*} (f : Event ι → Option β) (es : List (Event ι)) (e : Event ι) :
    history f (es++[e]) = (e::ₘ(es : Multiset (Event ι))).filterMap f := by
  rw [history, ← Multiset.coe_add, Multiset.add_comm, ← Multiset.cons_coe, Multiset.coe_nil,
    Multiset.cons_add, Multiset.zero_add]

theorem history_none {β : Type*} {f : Event ι → Option β} {e : Event ι} (h : f e = none) :
    history f (es++[e]) = history f es := by
  rw [history_snoc, Multiset.filterMap_cons_none _ _ h]
  rfl

theorem history_some {β : Type*} {f : Event ι → Option β} {e : Event ι} {b : β}
    (h : f e = some b) : history f (es++[e]) = b::ₘhistory f es := by
  rw [history_snoc, Multiset.filterMap_cons_some _ _ _ h]
  rfl

variable [DecidableEq ι] {isLocal : ι → Bool} {names : ι → Text} {w w' : World ι}

def yields (t : ι) : Message ι → Option Text
  | .toServer u bytes =>
    if u = t ∧ bytes.head? = some 51 then terminated ((readBuff bytes).drop 2) else none
  | .toClient u bytes =>
    if u = t ∧ bytes.head? = some 51 then (terminated ((bytes.take 128).drop 2)).bind answer
    else none

def registers (t : ι) : Message ι → Option Unit
  | .toServer u bytes => if u = t ∧ bytes.head? = some 49 then some () else none
  | .toClient _ _ => none

def resultOf (t : ι) : Event ι → Option Text
  | .result u text _ => if u = t then some text else none
  | _ => none

def answerFor (t : ι) : Event ι → Option Text
  | .asked u line => if u = t then answer line else none
  | _ => none

def upOf (t : ι) : Event ι → Option Unit
  | .up _ u => if u = t then some () else none
  | _ => none

def Answered (t : ι) (es : List (Event ι)) (w : World ι) : Prop :=
  Covered (yields t) w.soup (history (resultOf t) es) (history (answerFor t) es)

def Once (t : ι) (es : List (Event ι)) (w : World ι) : Prop :=
  Covered (registers t) w.soup (history (upOf t) es)
    (if (w.nodes t).phase = .starting then 0 else {()})

theorem yields_other {t u : ι} (h : u ≠ t) (bytes : Text) :
    yields t (.toServer u bytes) = none ∧ yields t (.toClient u bytes) = none :=
  ⟨if_neg fun heq => h heq.1, if_neg fun heq => h heq.1⟩

theorem answered_asks {t u : ι} {p : Fin clusterSize} {line : Text} {msg : Chars 130}
    (framed : request p line = some msg) (h : Answered t es w) :
    Answered t (es++[.asked u (cstring line)]) w ∧
      Answered t (es++[.asked u (cstring line)]) (w.post (.toClient u msg.bytes)) := by
  have hresults : history (resultOf t) (es++[.asked u (cstring line)]) = history (resultOf t) es :=
    history_none rfl
  rw [Answered, Answered, hresults]
  by_cases hu : u = t
  · subst hu
    obtain ⟨rest, hbytes⟩ := request_bytes framed
    have hyields : yields u (.toClient u msg.bytes) =
        (terminated ((msg.bytes.take 128).drop 2)).bind answer := by
      rw [yields, if_pos ⟨rfl, by rw [hbytes, List.head?_cons]⟩]
    have hfor : answerFor u (.asked u (cstring line)) = answer (cstring line) := if_pos rfl
    cases hanswer : answer (cstring line) with
    | none =>
      have hnone : yields u (.toClient u msg.bytes) = none := by
        rw [hyields]
        cases hterm : terminated ((msg.bytes.take 128).drop 2) with
        | none => rfl
        | some e => rw [request_text framed hterm, Option.bind_some, hanswer]
      rw [history_none (hfor.trans hanswer)]
      exact ⟨h, Covered.post h hnone⟩
    | some z =>
      rw [history_some (hfor.trans hanswer)]
      refine ⟨Covered.grant h z, ?_⟩
      cases hterm : terminated ((msg.bytes.take 128).drop 2) with
      -- the node would read on behind its buffer, so that no answer comes of the line
      | none => exact Covered.post (Covered.grant h z) (by rw [hyields, hterm, Option.bind_none])
      | some e =>
        refine Covered.send h ?_
        rw [hyields, hterm, request_text framed hterm, Option.bind_some, hanswer]
  · have hfor : answerFor t (.asked u (cstring line)) = none := if_neg hu
    rw [history_none hfor]
    exact ⟨h, Covered.post h (yields_other hu _).2⟩

theorem Answered.next {t : ι} (hsound : Sound names es w) (h : Answered t es w)
    (hturn : Turn isLocal w w' fs) : Answered t (es++fs) w' := by
  cases hturn with
  | stays => rwa [List.append_nil]
  | starts u phase short =>
    rw [List.append_nil]
    exact Covered.post h (if_neg fun heq => absurd heq.2 (by rw [List.head?_cons]; decide))
  | loses m =>
    rw [List.append_nil]
    exact Covered.lose h m
  | hears u bytes c name phase next =>
    rw [List.append_nil]
    exact Covered.lose h _
  | writes u bytes c msg mem phase written =>
    obtain ⟨p, line, frame, e, z, -, hframe, rfl, he, hanswer, hfits, rfl⟩ :=
      written_answer hsound mem written
    rw [List.append_nil]
    -- the answer takes the place of the request
    refine Covered.relay h mem ?_
    by_cases hu : u = t
    · obtain ⟨rest, hbytes⟩ := request_bytes hframe
      rw [yields, yields, if_pos ⟨hu, by rw [NodeNumbers.answer_bytes, List.head?_cons]⟩,
        if_pos ⟨hu, by rw [hbytes, List.head?_cons]⟩, answer_text p hfits, he, Option.bind_some,
        hanswer]
    · rw [(yields_other hu _).1, (yields_other hu _).2]
  | refuses u bytes =>
    rw [List.append_nil]
    exact Covered.post (Covered.lose h _) (if_neg fun heq => absurd heq.2 (by decide))
  | registers u bytes read2 mem head text unknown =>
    rw [Answered, history_none rfl, history_none rfl]
    exact Covered.lose h _
  | reports u bytes text mem head found =>
    have hfor : history (answerFor t) (es++[.result u text (nodeOf (readBuff bytes))]) =
        history (answerFor t) es := history_none rfl
    rw [Answered, hfor]
    by_cases hu : u = t
    · rw [history_some (if_pos hu)]
      refine Covered.take h mem ?_
      rw [yields, if_pos ⟨hu, head⟩, found]
    · rw [history_none (if_neg hu)]
      exact Covered.lose h _
  | accepts u =>
    rw [List.append_nil]
    exact Covered.post h (if_neg fun heq => absurd heq.2 (by decide))
  | asks p line node u msg slot used addr framed =>
    rw [hsound.table] at slot
    obtain ⟨hp, -⟩ := slots_num slot used
    obtain ⟨hunsent, hsent⟩ := answered_asks (p := ⟨p, hp⟩) framed h
    cases isLocal u
    · exact hsent
    · exact hunsent

theorem Once.next {t : ι} (hsound : Sound names es w) (h : Once t es w)
    (hturn : Turn isLocal w w' fs) : Once t (es++fs) w' := by
  -- what a node that is not starting does leaves it so
  have hphase : ∀ (v : World ι) {u : ι} {c : Client}, v.nodes = w.nodes →
      (w.nodes u).phase ≠ .starting → c.phase ≠ .starting →
      (((v.setNode u c).nodes t).phase = .starting ↔ (w.nodes t).phase = .starting) := by
    intro v u c hnodes hold hnew
    change (Function.update v.nodes u c t).phase = .starting ↔ _
    rw [hnodes]
    by_cases hu : t = u
    · subst hu
      rw [Function.update_self]
      exact iff_of_false hnew hold
    · rw [Function.update_of_ne hu]
  cases hturn with
  | stays => rwa [List.append_nil]
  | starts u phase short =>
    rw [List.append_nil, Once]
    change Covered _ _ _ (if (Function.update w.nodes u _ t).phase = .starting then _ else _)
    by_cases hu : u = t
    · subst hu
      rw [Once, if_pos phase] at h
      rw [Function.update_self, if_neg (fun hstart => by cases hstart)]
      exact Covered.send h (if_pos ⟨rfl, rfl⟩)
    · rw [Function.update_of_ne (Ne.symm hu)]
      exact Covered.post h (if_neg fun heq => hu heq.1)
  | loses m =>
    rw [List.append_nil]
    exact Covered.lose h m
  | hears u bytes c name phase next =>
    rw [List.append_nil, Once, if_congr (hphase (w.erase _) rfl phase next) rfl rfl]
    exact Covered.lose h _
  | writes u bytes c msg mem phase written =>
    obtain ⟨p, line, frame, e, z, -, -, -, -, -, -, rfl⟩ := written_answer hsound mem written
    have hmember : (w.nodes u).phase ≠ .starting := by rw [phase]; decide
    have hkept : c.phase ≠ .starting := by rw [(round_kept written).2, phase]; decide
    have hsame : ((((w.erase (.toClient u bytes)).setNode u c).post
        (.toServer u (NodeNumbers.answer p z))).nodes t).phase = .starting ↔
        (w.nodes t).phase = .starting := hphase (w.erase _) rfl hmember hkept
    rw [List.append_nil, Once, if_congr hsame rfl rfl]
    refine Covered.post (Covered.lose h _) (if_neg fun heq => ?_)
    rw [NodeNumbers.answer_bytes, List.head?_cons] at heq
    exact absurd heq.2 (by decide)
  | refuses u bytes =>
    rw [List.append_nil]
    exact Covered.post (Covered.lose h _) rfl
  | registers u bytes read2 mem head text unknown =>
    rw [Once]
    by_cases hu : u = t
    · rw [history_some (if_pos hu)]
      exact Covered.take h mem (if_pos ⟨hu, head⟩)
    · rw [history_none (if_neg hu)]
      exact Covered.lose h _
  | reports u bytes text mem head found =>
    rw [Once, history_none rfl]
    exact Covered.lose h _
  | accepts u =>
    rw [List.append_nil]
    exact Covered.post h rfl
  | asks p line node u msg slot used addr framed =>
    rw [Once, history_none rfl]
    cases isLocal u
    · exact Covered.post h rfl
    · exact h

variable {buffers : ι → Text} {as : List (Choice ι)}

theorem ledgers_run (hr : run (step isLocal) as (main names buffers) = some (w, es)) (t : ι) :
    Answered t es w ∧ Once t es w := by
  have h := run_induction (step isLocal) (main names buffers)
    (fun es w => Sound names es w ∧ Answered t es w ∧ Once t es w)
    ⟨sound_start names buffers, Covered.start _, Covered.start _⟩
    (fun _ _ _ _ _ hkeeps hstep =>
      ⟨hkeeps.1.next (step_turn hstep), hkeeps.2.1.next hkeeps.1 (step_turn hstep),
        hkeeps.2.2.next hkeeps.1 (step_turn hstep)⟩) as w es hr
  exact h.2

/-- A result is printed with the one number that was printed for its node, and the results
of a node are among the answers to the lines it was sent, each once. -/
theorem results_attributed (isLocal : ι → Bool) (names buffers : ι → Text)
    (as : List (Choice ι)) (w : World ι) (es : List (Event ι))
    (hr : run (step isLocal) as (main names buffers) = some (w, es)) (t : ι) :
    (∀ text (k : ℤ), .result t text k ∈ es →
      ∃ num : ℕ, k = num ∧ .up num t ∈ es ∧ ∀ m, .up m t ∈ es → m = num) ∧
    history (resultOf t) es ≤ history (answerFor t) es := by
  obtain ⟨hanswered, honce⟩ := ledgers_run hr t
  refine ⟨?_, hanswered.bounded⟩
  intro text k hresult
  obtain ⟨p, hup, hk⟩ := (sound_run hr).results t text k hresult
  refine ⟨p, hk, hup, ?_⟩
  intro m hm
  by_contra hne
  have htwice : ({.up m t, .up p t} : Multiset (Event ι)) ≤ (es : Multiset (Event ι)) := by
    have hnodup : ({.up m t, .up p t} : Multiset (Event ι)).Nodup := by
      rw [Multiset.insert_eq_cons, Multiset.nodup_cons, Multiset.mem_singleton]
      refine ⟨fun heq => ?_, Multiset.nodup_singleton _⟩
      cases heq
      exact hne rfl
    rw [Multiset.le_iff_subset hnodup]
    intro e he
    rw [Multiset.insert_eq_cons, Multiset.mem_cons, Multiset.mem_singleton] at he
    rcases he with rfl | rfl
    · exact hm
    · exact hup
  have hups : ({(), ()} : Multiset Unit) ≤ history (upOf t) es := by
    have hmap := Multiset.filterMap_le_filterMap (upOf t) htwice
    have hvalue : ∀ n : ℕ, upOf t (.up n t) = some () := fun n => if_pos rfl
    rw [Multiset.insert_eq_cons, Multiset.filterMap_cons_some _ _ _ (hvalue m),
      ← Multiset.cons_zero, Multiset.filterMap_cons_some _ _ _ (hvalue p)] at hmap
    exact hmap
  have hcard := Multiset.card_le_card (hups.trans honce.bounded)
  split at hcard
  · exact absurd hcard (by decide)
  · exact absurd hcard (by decide)

theorem results_attributed_two : ∃ w es,
    run (step fun _ => false) oneRequest (main twoNodes fun _ => []) = some (w, es) ∧
    (.result true [51] 0 ∈ es ∧ ∃ num : ℕ, (0 : ℤ) = num ∧ .up num true ∈ es ∧
      ∀ m, .up m true ∈ es → m = num) ∧
    history (resultOf true) es ≤ history (answerFor true) es := by
  obtain ⟨w, hr⟩ := oneRequest_runs
  obtain ⟨hnumbers, hanswers⟩ := results_attributed (fun _ => false) twoNodes (fun _ => [])
    oneRequest w _ hr true
  exact ⟨w, _, hr, ⟨by decide, hnumbers [51] 0 (by decide)⟩, hanswers⟩

end Semestr4.DatagramResults
