import Semestr4.FifoLogger
import Semestr4.RecordFile

/-!
# The records that the logger delivers

A block read from the pipe is dropped up to its first line, so that a record is
lost with every read of more than one. The records that nobody reads are lost
when the last end is closed.
-/

set_option autoImplicit false

namespace Semestr4.LoggerDelivery
open Semestr4.ByteText Semestr4.DecimalText Semestr4.NamedPipe Semestr4.ScheduledRun
open Semestr4.RecordFile Semestr4.FifoLogger

variable {s t : State}

theorem bytes_length (r : Record) : r.bytes.length = recordSize := by
  rw [Record.bytes, List.length_append, r.size]

theorem waiting_length (waiting : List Record) :
    (waiting.map Record.bytes).flatten.length = recordSize*waiting.length := by
  have hsized : Sized recordSize (waiting.map Record.bytes) := by
    intro b hb
    obtain ⟨r, -, rfl⟩ := List.mem_map.mp hb
    exact bytes_length r
  rw [hsized.flatten_length, List.length_map]

theorem waiting_nil {waiting : List Record} (h : (waiting.map Record.bytes).flatten = []) :
    waiting = [] := by
  have hlen := waiting_length waiting
  rw [h, List.length_nil, recordSize] at hlen
  exact List.length_eq_zero_iff.mp (by omega)

theorem not_mem_line {b : UInt8} (hdigit : isDigit b = false) (htab : b ≠ 9) {date : Text}
    (hdate : b ∉ date) (pid : ℕ) : b ∉ decimal pid++9::date := by
  intro hmem
  rcases List.mem_append.mp hmem with hmem | hmem
  · rw [decimal_natCast] at hmem
    rw [digits_isDigit pid b hmem] at hdigit
    cases hdigit
  · rcases List.mem_cons.mp hmem with heq | hmem
    · exact htab heq
    · exact hdate hmem

theorem message_record {pid : ℕ} {date rest : Text} (h : WellFormed pid date rest) :
    ∃ r : Record, r.text = message pid date ∧ r.bytes = message pid date++rest := by
  obtain ⟨hline, hzero, hsize⟩ := h
  have hbody : newline ∉ decimal pid++9::date :=
    not_mem_line (by decide) (by decide) hline pid
  have hstring : (0:UInt8) ∉ message pid date := by
    intro hmem
    rcases List.mem_append.mp hmem with hmem | hmem
    · exact not_mem_line (by decide) (by decide) hzero pid hmem
    · exact absurd (List.mem_singleton.mp hmem) (by decide)
  exact ⟨⟨message pid date, rest, ⟨decimal pid++9::date, rfl, hbody⟩, hstring, hsize⟩,
    rfl, rfl⟩

theorem received_record (r : Record) (waiting : List Record) :
    ∃ ahead, received [] ((((r::waiting).map Record.bytes).flatten).take blockSize) =
      .printing r.text ahead := by
  obtain ⟨body, htext, hbody⟩ := r.line
  have hsize := r.size
  have hlen : body.length+1 ≤ recordSize := by
    rw [htext, List.length_append, List.length_singleton] at hsize
    omega
  obtain ⟨after, hafter⟩ : ∃ after, (((r::waiting).map Record.bytes).flatten).take blockSize =
      body++newline::after := by
    refine ⟨(r.rest++(waiting.map Record.bytes).flatten).take (blockSize-(body.length+1)), ?_⟩
    have hfits : (body++[newline]).length ≤ blockSize := by
      rw [List.length_append, List.length_singleton]
      exact hlen.trans (by decide)
    rw [List.map_cons, List.flatten_cons, Record.bytes, htext, List.append_assoc, List.take_append,
      List.take_of_length_le hfits, List.length_append, List.length_singleton, List.append_assoc]
    rfl
  refine ⟨after, ?_⟩
  have hmem : newline ∈ body++newline::after := by simp
  have hread := readLine_line hbody (n := (body++newline::after).length)
    (by rw [List.length_append]; simp) after
  rw [hafter, received, if_pos hmem, hread, htext, List.nil_append]

structure Kept (s : State) : Prop where
  delivered : Delivered s
  whole : ∀ begun, s.master = .reading begun → begun = []

theorem kept_initial (slaves : List (ℕ × ℕ)) : Kept (initial slaves) where
  delivered := ⟨[], rfl, rfl⟩
  whole begun h := by cases h

theorem Kept.same (h : Kept s) (hc : t.pipe.content = s.pipe.content) (hp : t.printed = s.printed)
    (hw : t.written = s.written) (hm : t.master.held = s.master.held)
    (hr : ∀ begun, t.master = .reading begun → begun = []) : Kept t := by
  obtain ⟨waiting, hcontent, hwritten⟩ := h.delivered
  refine ⟨⟨waiting, hc.trans hcontent, ?_⟩, hr⟩
  rw [hw, hp, hm]
  exact hwritten

theorem arrived_held (m : Master) : m.arrived.held = m.held := by
  cases m <;> rfl

theorem arrived_whole {m : Master} (h : ∀ begun, m = .reading begun → begun = []) :
    ∀ begun, m.arrived = .reading begun → begun = [] := by
  cases m with
  | opening =>
    intro begun hbegun
    cases hbegun
    rfl
  | closed => exact h
  | reading _ => exact h
  | printing _ _ => exact h
  | closing _ => exact h

theorem cstring_record (r : Record) : cstring r.text = r.text := cstring_self r.string

theorem held_reading {begun : Text} (hm : s.master = .reading begun) : s.master.held = [] := by
  rw [hm]
  rfl

theorem reading_step (h : Kept s) {begun : Text} (hm : s.master = .reading begun)
    (hs : masterStep s = some t) :
    (s.pipe.content = [] ∧ t = { s with master := .closing [] }) ∨
    ∃ r waiting ahead, s.pipe.content = ((r::waiting).map Record.bytes).flatten ∧
      s.written = s.printed++(r::waiting).map Record.text ∧
      t = { s with
        pipe := { s.pipe with content := s.pipe.content.drop blockSize }
        master := .printing r.text ahead } := by
  obtain ⟨waiting, hcontent, hwritten⟩ := h.delivered
  have hbegun := h.whole begun hm
  subst hbegun
  rw [held_reading hm, List.append_nil] at hwritten
  unfold masterStep at hs
  rw [hm] at hs
  obtain ⟨⟨data, pipe⟩, hread, rfl⟩ := Option.map_eq_some_iff.mp hs
  by_cases hnil : s.pipe.content = []
  · rw [Pipe.read, if_pos hnil] at hread
    split at hread
    · cases hread
      exact Or.inl ⟨hnil, rfl⟩
    · cases hread
  · rw [Pipe.read, if_neg hnil] at hread
    cases hread
    cases waiting with
    | nil => exact absurd hcontent hnil
    | cons r waiting =>
      obtain ⟨ahead, hahead⟩ := received_record r waiting
      rw [← hcontent] at hahead
      exact Or.inr ⟨r, waiting, ahead, hcontent, hwritten, by simp only [hahead]⟩

theorem reading_kept (h : Kept s) {begun : Text} (hm : s.master = .reading begun)
    (hC : s.pipe.content.length ≤ recordSize) (hs : masterStep s = some t) : Kept t := by
  rcases reading_step h hm hs with ⟨-, rfl⟩ | ⟨r, waiting, ahead, hcontent, hwritten, rfl⟩
  · refine h.same rfl rfl rfl ?_ (fun begun hbegun => by cases hbegun)
    rw [hm]
    rfl
  · have hlen := waiting_length (r::waiting)
    rw [← hcontent, List.length_cons] at hlen
    have hnone : waiting = [] := by
      rw [hlen, recordSize] at hC
      exact List.length_eq_zero_iff.mp (by omega)
    have hdrop : s.pipe.content.drop blockSize = [] := by
      rw [List.drop_eq_nil_iff]
      exact hC.trans (by decide)
    refine ⟨⟨[], hdrop, ?_⟩, fun begun hbegun => by cases hbegun⟩
    show s.written = s.printed++[cstring r.text]++[]
    rw [hwritten, hnone, cstring_record, List.append_nil, List.map_singleton]

theorem master_kept (h : Kept s) (hC : Unhurried s .master) (hs : masterStep s = some t) :
    Kept t := by
  unfold masterStep at hs
  unfold Unhurried at hC
  cases hm : s.master with
  | closed =>
    rw [hm] at hs
    cases hs
    refine h.same rfl rfl rfl ?_ ?_
    · rw [hm]
      simp only
      split <;> rfl
    · intro begun hbegun
      simp only at hbegun
      split at hbegun
      · cases hbegun
        rfl
      · cases hbegun
  | opening =>
    rw [hm] at hs
    cases hs
  | reading begun =>
    rw [hm] at hC
    exact reading_kept h hm hC hs
  | printing line ahead =>
    rw [hm] at hs
    cases hs
    obtain ⟨waiting, hcontent, hwritten⟩ := h.delivered
    refine ⟨⟨waiting, hcontent, ?_⟩, fun begun hbegun => by cases hbegun⟩
    rw [hm] at hwritten
    simpa [Master.held] using hwritten
  | closing ahead =>
    rw [hm] at hs hC
    cases hs
    refine h.same (closeRead_keeps.mpr hC) rfl rfl ?_ (fun begun hbegun => by cases hbegun)
    rw [hm]
    rfl

theorem slave_kept (h : Kept s) {i : ℕ} (hC : Unhurried s (.slave i))
    (hs : slaveStep s i = some t) : Kept t := by
  unfold slaveStep at hs
  unfold Unhurried at hC
  split at hs
  · cases hs
    exact h.same rfl rfl rfl (arrived_held _) (arrived_whole h.whole)
  · rename_i hi
    cases hs
    exact h.same (closeWrite_keeps.mpr (hC (by rw [hi]; rfl))) rfl rfl rfl h.whole
  · cases hs

theorem write_kept (h : Kept s) {i : ℕ} {date rest : Text} (hC : Unhurried s (.write i date rest))
    (hs : writeStep s i date rest = some t) : Kept t := by
  unfold writeStep at hs
  unfold Unhurried at hC
  split at hs
  · rename_i pid left hi
    split at hs
    · rename_i hformed
      split at hs
      · rename_i hreaders
        cases hs
        exact h.same (closeWrite_keeps.mpr (hC hreaders)) rfl rfl rfl h.whole
      · split at hs
        · cases hs
          obtain ⟨r, htext, hbytes⟩ := message_record hformed
          obtain ⟨waiting, hcontent, hwritten⟩ := h.delivered
          refine ⟨⟨waiting++[r], ?_, ?_⟩, h.whole⟩
          · rw [write_content, hcontent, ← hbytes]
            simp
          · rw [hwritten, ← htext]
            simp
        · cases hs
    · cases hs
  · cases hs

theorem kept_next {a : Choice} (h : Kept s) (hC : Unhurried s a) (hs : next s a = some t) :
    Kept t := by
  cases a with
  | master => exact master_kept h hC hs
  | slave i => exact slave_kept h hC hs
  | write i date rest => exact write_kept h hC hs

theorem delivered_count (h : Delivered s) :
    recordSize*s.written.length =
      recordSize*(s.printed.length+s.master.held.length)+s.pipe.content.length := by
  obtain ⟨waiting, hcontent, hwritten⟩ := h
  rw [hcontent, waiting_length, hwritten, List.length_append, List.length_append, List.length_map,
    ← Nat.mul_add]

theorem same_length (h : Kept s) (ht : Delivered t) (hp : t.printed = s.printed)
    (hw : t.written = s.written) (hm : t.master.held = s.master.held) :
    t.pipe.content.length = s.pipe.content.length := by
  have hbefore := delivered_count h.delivered
  have hafter := delivered_count ht
  rw [hp, hw, hm] at hafter
  omega

theorem reading_lost (h : Kept s) {begun : Text} (hm : s.master = .reading begun)
    (hs : masterStep s = some t) (ht : Delivered t) : s.pipe.content.length ≤ recordSize := by
  rcases reading_step h hm hs with ⟨hnil, -⟩ | ⟨r, waiting, ahead, hcontent, hwritten, rfl⟩
  · rw [hnil]
    exact Nat.zero_le _
  · have hbefore := delivered_count h.delivered
    have hafter := delivered_count ht
    rw [held_reading hm, List.length_nil] at hbefore
    simp only [Master.held, List.length_singleton, List.length_drop] at hafter
    rw [recordSize, blockSize] at hafter
    rw [recordSize] at hbefore ⊢
    omega

theorem unhurried_of_delivered {a : Choice} (h : Kept s) (hs : next s a = some t)
    (ht : Delivered t) : Unhurried s a := by
  cases a with
  | master =>
    unfold Unhurried
    cases hm : s.master with
    | closed => trivial
    | opening => trivial
    | printing _ _ => trivial
    | reading begun => exact reading_lost h hm hs ht
    | closing ahead =>
      replace hs : masterStep s = some t := hs
      unfold masterStep at hs
      rw [hm] at hs
      cases hs
      refine closeRead_keeps.mp (settle_whole (same_length h ht rfl rfl ?_))
      rw [hm]
      rfl
  | slave i =>
    intro hphase
    replace hs : slaveStep s i = some t := hs
    unfold slaveStep at hs
    split at hs
    · rename_i hi
      rw [hi] at hphase
      cases hphase
    · cases hs
      exact closeWrite_keeps.mp (settle_whole (same_length h ht rfl rfl rfl))
    · cases hs
  | write i date rest =>
    intro hreaders
    replace hs : writeStep s i date rest = some t := hs
    unfold writeStep at hs
    split at hs
    · simp only [if_pos hreaders] at hs
      split at hs
      · cases hs
        exact closeWrite_keeps.mp (settle_whole (same_length h ht rfl rfl rfl))
      · cases hs
    · cases hs

theorem next_of_step {a : Choice} {fs : List Empty} (hs : step s a = some (t, fs)) :
    next s a = some t := by
  obtain ⟨u, hu, heq⟩ := Option.map_eq_some_iff.mp hs
  cases heq
  exact hu

/-- Where the pipe is empty and no line is held, the lines printed are those of
the records written. -/
theorem printed_eq_written (h : Delivered s) (hpipe : s.pipe.content = [])
    (hheld : s.master.held = []) : s.printed = s.written := by
  obtain ⟨waiting, hcontent, hwritten⟩ := h
  rw [hpipe] at hcontent
  rw [hwritten, hheld, waiting_nil hcontent.symm, List.map_nil, List.append_nil, List.append_nil]

/-- A run delivers every record exactly once when the master finds one record at
most at each read, and the last end is closed on an empty pipe. -/
theorem delivered_iff (slaves : List (ℕ × ℕ)) (as : List Choice) (s : State) (es : List Empty)
    (hr : run step as (initial slaves) = some (s, es)) :
    Throughout step Delivered (initial slaves) as ↔ Meets step Unhurried (initial slaves) as := by
  apply throughout_iff_meets_kept (kept_initial slaves) (fun s h => h.delivered) ?_ ?_ hr
  · intro s a t fs h hC hs
    exact kept_next h hC (next_of_step hs)
  · intro s a t fs h hs ht
    exact unhurried_of_delivered h (next_of_step hs) ht

def monday : Text := [77, 111, 110]

def padding : Text := List.replicate 249 0

/-- Each record is read before the next one is written. -/
def oneByOne : List Choice :=
  [.slave 0, .slave 1, .master, .write 0 monday padding, .master, .master,
    .write 1 monday padding, .master, .master, .slave 0, .slave 1, .master, .master]

theorem delivered_iff_small : ∃ s es,
    run step oneByOne (initial [(7, 1), (8, 1)]) = some (s, es) ∧
      (Throughout step Delivered (initial [(7, 1), (8, 1)]) oneByOne ↔
        Meets step Unhurried (initial [(7, 1), (8, 1)]) oneByOne) := by
  have hruns : (run step oneByOne (initial [(7, 1), (8, 1)])).isSome := by decide +kernel
  obtain ⟨⟨s, es⟩, hr⟩ := Option.isSome_iff_exists.mp hruns
  exact ⟨s, es, hr, delivered_iff [(7, 1), (8, 1)] oneByOne s es hr⟩

def twoSlaves : List Choice :=
  [.slave 0, .slave 1, .master, .write 0 monday padding, .write 1 monday padding, .slave 0,
    .slave 1, .master, .master, .master]

def lastState : State where
  pipe := .unused
  master := .closed
  slaves := [⟨7, .idle, 0⟩, ⟨8, .idle, 0⟩]
  printed := [message 7 monday]
  written := [message 7 monday, message 8 monday]

/-- The record read with the first one is dropped by `fclose`. -/
theorem second_record_dropped :
    run step twoSlaves (initial [(7, 1), (8, 1)]) = some (lastState, []) ∧
      ¬ Delivered lastState := by
  refine ⟨by decide +kernel, ?_⟩
  intro h
  exact absurd (printed_eq_written h rfl rfl) (by decide)

end Semestr4.LoggerDelivery
