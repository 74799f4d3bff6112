import Semestr4.BufferProgress
import Semestr4.NumberedPieces
import Semestr4.TextLines

/-!
# The lines that are found

Records are counted as lines and the length of a text is taken with its newline.
So a last line without newline is one character too short, a line of more than 999
characters is several, and the numbers of all lines behind it are too large.
-/

set_option autoImplicit false

namespace Semestr4.LineSearch
open Semestr4.ScheduledRun Semestr4.ByteText Semestr4.ConditionMonitor Semestr4.BufferMachine
open Semestr4.BufferInvariant Semestr4.BufferProgress Semestr4.TextLines Semestr4.NumberedPieces

def withoutNewline (line : Text) : Text := line.takeWhile (· ≠ newline)

def Matches (conf : Conf) (length : ℕ) : Prop :=
  conf.searchMode = searchModeEqual ∧ (length : ℤ) = conf.stringLength ∨
  conf.searchMode = searchModeLesser ∧ (length : ℤ) < conf.stringLength ∨
  conf.searchMode = searchModeGreater ∧ conf.stringLength < length

def Asked (conf : Conf) (file : Text) (lineNumber : ℤ) (text : Text) : Prop :=
  ∃ i : ℕ, lineNumber = i+1 ∧ (lines file)[i]? = some text ∧ Matches conf (withoutNewline text).length

/-- The length of the string is in the range of `int` and not negative. -/
structure Searchable (conf : Conf) : Prop where
  place : 1 ≤ conf.bufferLength
  lower : 0 ≤ conf.stringLength
  upper : conf.stringLength < 2^31

def Reported (conf : Conf) (es : List Event) : Prop :=
  ∀ n text, Event.found n text ∈ es ↔
    ∃ line ∈ removed es, line.lineNumber = n ∧ line.text.getD [] = text ∧ wanted conf text = true

theorem removed_append (es fs : List Event) : removed (es++fs) = removed es++removed fs :=
  List.filterMap_append

theorem reported_append {conf : Conf} {es fs : List Event} (hes : Reported conf es)
    (hfs : Reported conf fs) : Reported conf (es++fs) := by
  intro n text
  rw [List.mem_append, hes n text, hfs n text, removed_append]
  simp only [List.mem_append, or_and_right, exists_or]

theorem reported_nil (conf : Conf) : Reported conf [] := by
  intro n text
  simp [removed]

theorem reported_none {conf : Conf} {es : List Event} (hfound : ∀ n text, Event.found n text ∉ es)
    (hremoved : removed es = []) : Reported conf es := by
  intro n text
  rw [hremoved]
  exact iff_of_false (hfound n text) (by simp)

theorem report_reported (conf : Conf) (line : Line) :
    Reported conf (report conf line++[.removed line]) := by
  have hremoved : removed (report conf line++[.removed line]) = [line] := by
    rw [removed_append, (printed_values (report_printed conf line)).2.2]
    rfl
  intro n text
  rw [hremoved]
  have hverbal : Event.found n text ∉
      (if conf.verbalMode ≠ 0 then [Event.removing (line.text.getD [])] else []) := by
    split <;> simp
  simp only [report, List.mem_append, List.mem_singleton, hverbal, false_or, exists_eq_left,
    reduceCtorEq, or_false]
  constructor
  · intro hmem
    split at hmem
    · rename_i hwanted
      obtain ⟨rfl, rfl⟩ := Event.found.inj (List.mem_singleton.mp hmem)
      exact ⟨rfl, rfl, hwanted⟩
    · cases hmem
  · rintro ⟨rfl, rfl, hwanted⟩
    rw [if_pos hwanted]
    exact List.mem_singleton_self _

theorem announce_found (conf : Conf) (text : Text) (n : ℤ) (found : Text) :
    Event.found n found ∉ announce conf text := by
  rw [announce]
  split <;> simp

theorem body_reported (conf : Conf) (t : Thread conf) (s : Shared) :
    Reported conf (body conf t s).events := by
  have hd := body_does conf s t
  generalize body conf t s = o at hd
  cases hd with
  | stores i hn buffer rest hf line hl =>
    refine reported_none (fun n text hmem => ?_) (printed_values (announce_printed conf _)).2.2
    simp only [List.mem_cons, reduceCtorEq, false_or] at hmem
    exact announce_found conf _ n text hmem
  | takes i hn => exact report_reported conf _
  | _ => exact reported_nil conf

theorem run_reported (conf : Conf) (file : Text) (as : List (Action (Thread conf)))
    (w : State conf) (es : List Event)
    (hr : run (machine conf) as (main conf file) = some (w, es)) : Reported conf es :=
  shared_induction (fun es _ => Reported conf es) (initial file) (reported_nil conf)
    (fun _ s t hes => reported_append hes (body_reported conf t s)) as w es hr

theorem sizeT_natCast {n : ℕ} (h : n < 2^64) : sizeT n = n := by
  rw [sizeT]
  omega

theorem wanted_iff {conf : Conf} (h : Searchable conf) {text : Text} (hzero : 0 ∉ text)
    (hne : text ≠ []) (hlength : text.length ≤ 999) :
    wanted conf text = true ↔ Matches conf (text.length-1) := by
  have hlower := h.lower
  have hupper := h.upper
  have hpos := List.length_pos_iff.mpr hne
  have hstrlen : strlen text = text.length := by rw [strlen, cstring_self hzero]
  obtain ⟨k, hk⟩ := Int.eq_ofNat_of_zero_le h.lower
  have hlast : ((text.length : ℤ)-1) = (text.length-1 : ℕ) := by omega
  simp only [wanted, hstrlen, hlast, hk, Matches]
  rw [sizeT_natCast (by omega), sizeT_natCast (by omega)]
  simp only [Bool.or_eq_true, Bool.and_eq_true, beq_iff_eq, decide_eq_true_eq]
  omega

theorem found_iff {conf : Conf} (h : Searchable conf) {file : Text} (hzero : 0 ∉ file)
    {as : List (Action (Thread conf))} {w : State conf} {es : List Event}
    (hr : run (machine conf) as (main conf file) = some (w, es))
    {i : Fin conf.numberOfConsumers} (ht : w.phase (.consumer i) = .returned) (n : ℤ) (text : Text) :
    Event.found n text ∈ es ↔ ∃ k : ℕ, n = k+1 ∧ (records 1000 file)[k]? = some text ∧
      Matches conf (text.length-1) := by
  have hremoved := consumer_returns_drained conf h.place file as w es hr i ht
  have hwanted : ∀ record ∈ records 1000 file,
      strcpy record = record ∧ (wanted conf record = true ↔ Matches conf (record.length-1)) := by
    intro record hmem
    obtain ⟨hne, hlength, hpart⟩ := record_part (by decide) hmem
    have hzero' : 0 ∉ record := fun h0 => hzero (hpart 0 h0)
    exact ⟨cstring_self hzero', wanted_iff h hzero' hne hlength⟩
  rw [run_reported conf file as w es hr n text, hremoved]
  constructor
  · rintro ⟨line, hline, rfl, rfl, hwant⟩
    obtain ⟨k, hk, rfl⟩ := List.mem_mapIdx.mp hline
    obtain ⟨hcopy, hiff⟩ := hwanted _ (List.getElem_mem hk)
    simp only [Option.getD_some, hcopy] at hwant ⊢
    exact ⟨k, rfl, List.getElem?_eq_getElem hk, hiff.mp hwant⟩
  · rintro ⟨k, rfl, hk, hmatches⟩
    obtain ⟨hlt, rfl⟩ := List.getElem?_eq_some_iff.mp hk
    obtain ⟨hcopy, hiff⟩ := hwanted _ (List.getElem_mem hlt)
    refine ⟨_, List.mem_mapIdx.mpr ⟨k, hlt, rfl⟩, rfl, hcopy, hiff.mpr hmatches⟩

theorem file_pieces (file : Text) :
    Pieces (fun line : Text => line.length ≤ 999) (records 1000) (lines file) where
  nonempty line hline hnil := by
    rw [records_line (by decide) (lines_line file line hline)] at hnil
    cases hnil
  one line hline hwhole := records_short (by decide) (lines_line file line hline) hwhole
  more line hline hlong := records_long (by decide) (lines_line file line hline) (not_le.mp hlong)
  piece line _ record hrecord := (record_part (by decide) hrecord).2.1

/-- The lines before the first one of more than 999 characters are asked for if and
only if they are with one character less counted than they have; behind that no line is asked
for and no piece is wanted. -/
structure Unaffected (conf : Conf) (file : Text) : Prop where
  before : ∀ line ∈ (lines file).takeWhile (·.length ≤ 999),
    Matches conf (withoutNewline line).length ↔ Matches conf (line.length-1)
  behind : ∀ line ∈ (lines file).dropWhile (·.length ≤ 999),
    ¬Matches conf (withoutNewline line).length ∧
      ∀ piece ∈ records 1000 line, ¬Matches conf (piece.length-1)

/-- When a consumer has returned, the lines printed are those asked for if and only if
the file is unaffected. -/
theorem finds_lines_iff (conf : Conf) (h : Searchable conf) (file : Text) (hzero : 0 ∉ file)
    (as : List (Action (Thread conf))) (w : State conf) (es : List Event)
    (hr : run (machine conf) as (main conf file) = some (w, es))
    (i : Fin conf.numberOfConsumers) (ht : w.phase (.consumer i) = .returned) :
    (∀ n text, Event.found n text ∈ es ↔ Asked conf file n text) ↔ Unaffected conf file := by
  have hsame : Same (records 1000) (fun piece => Matches conf (piece.length-1))
      (fun line => Matches conf (withoutNewline line).length) (lines file) ↔ _ :=
    same_iff (file_pieces file)
  rw [Same, ← records_lines (by decide)] at hsame
  have hfound := found_iff h hzero hr ht
  constructor
  · intro hasked
    obtain ⟨hbefore, hbehind⟩ := hsame.mp fun k text => by
      have hpair := (hfound (k+1) text).symm.trans (hasked (k+1) text)
      simpa only [Asked, add_left_inj, Nat.cast_inj, exists_eq_left'] using hpair
    exact ⟨hbefore, hbehind⟩
  · intro hfile n text
    rw [hfound n text, Asked]
    refine exists_congr fun k => and_congr_right fun _ => ?_
    exact hsame.mpr ⟨hfile.before, hfile.behind⟩ k text

/-- A line of one character, which is asked for, and one of two, which is not. -/
def twoLines : Text := [97, 10, 98, 98, 10]

def twoSchedule : List (Action (Thread smallConf)) :=
  [.enter smallConsumer, .enter smallProducer, .resume smallConsumer, .enter smallConsumer,
    .enter smallProducer, .enter smallConsumer, .enter smallProducer, .enter smallConsumer]

theorem finds_lines_small : ∃ w es,
    run (machine smallConf) twoSchedule (main smallConf twoLines) = some (w, es) ∧
    w.phase smallConsumer = .returned ∧
    ((∀ n text, Event.found n text ∈ es ↔ Asked smallConf twoLines n text) ↔
      Unaffected smallConf twoLines) := by
  have hrun : (run (machine smallConf) twoSchedule (main smallConf twoLines)).map
      (fun r => r.1.phase smallConsumer) = some .returned := rfl
  obtain ⟨⟨w, es⟩, hr, ht⟩ := Option.map_eq_some_iff.mp hrun
  exact ⟨w, es, hr, ht, finds_lines_iff smallConf ⟨by decide, by decide, by decide⟩ twoLines
    (by decide) twoSchedule w es hr ⟨0, by decide⟩ ht⟩

/-- A last line of one character that has no newline. -/
theorem last_line_missed : ¬∀ (conf : Conf), Searchable conf → ∀ (file : Text), 0 ∉ file →
    ∀ (as : List (Action (Thread conf))) (w : State conf) (es : List Event),
    run (machine conf) as (main conf file) = some (w, es) →
    ∀ i : Fin conf.numberOfConsumers, w.phase (.consumer i) = .returned →
    ∀ n text, Event.found n text ∈ es ↔ Asked conf file n text := by
  intro h
  have hrun : (run (machine smallConf) smallSchedule (main smallConf [97])).map
      (fun r => (r.1.phase smallConsumer, r.2)) = some (.returned,
        [.returned [97], .stored ⟨some [97], 1⟩, .removed ⟨some [97], 1⟩]) := rfl
  obtain ⟨⟨w, es⟩, hr, hpair⟩ := Option.map_eq_some_iff.mp hrun
  obtain ⟨ht, rfl⟩ := Prod.mk.inj hpair
  have hasked : Asked smallConf [97] 1 [97] := ⟨0, rfl, rfl, Or.inl ⟨rfl, rfl⟩⟩
  have hfound := (h smallConf ⟨by decide, by decide, by decide⟩ [97] (by decide) smallSchedule w _ hr
    ⟨0, by decide⟩ ht 1 [97]).mpr hasked
  simp at hfound

end Semestr4.LineSearch
