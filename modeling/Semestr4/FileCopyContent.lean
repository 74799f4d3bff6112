import Semestr4.FileCopy

/-!
# What a copy leaves in the destination

A source delivers a text when its reads give the text piece by piece and then
report the end. The loop copies the beginning that is wanted of whatever is
delivered, however it is cut into pieces.
-/

set_option autoImplicit false

namespace Semestr4.FileCopyContent
open Semestr4.ByteText Semestr4.SeekableFile Semestr4.FileCopy

/-- The states `R` of a source from which the rest of the text is still to come,
in pieces that fit into the buffer. -/
structure Delivers {ρ : Type} (next : ρ → Got × ρ) (bufferSize : ℕ) (R : ρ → Text → Prop) :
    Prop where
  ended : ∀ source, R source [] → (next source).1 = .bytes []
  piece : ∀ source text, R source text → text ≠ [] → ∃ data rest, text = data++rest ∧
    data ≠ [] ∧ data.length ≤ bufferSize ∧ (next source).1 = .bytes data ∧
    R (next source).2 rest

theorem after_appends {c : Copying} (hend : c.destination.position = c.destination.content.length)
    (data : Text) :
    (c.after data).destination.content = c.destination.content++data.take c.recNum.toNat ∧
      (c.after data).destination.position = (c.after data).destination.content.length := by
  have htake : (fill c.buffer data).take (min data.length c.recNum.toNat) =
      data.take c.recNum.toNat := by
    rw [fill, List.take_append_of_le_length (Nat.min_le_left ..), Nat.min_comm,
      ← List.take_eq_take_min]
  have hwrite : (c.after data).destination = write c.destination (data.take c.recNum.toNat) := by
    rw [Copying.after, writeBytes, Int.toNat_natCast, htake]
  have hcontent : (write c.destination (data.take c.recNum.toNat)).content =
      c.destination.content++data.take c.recNum.toNat := by
    rw [write_content, hend, overwrite_end]
  rw [hwrite]
  refine ⟨hcontent, ?_⟩
  rw [hcontent, List.length_append, ← hend]
  rfl

theorem copyLoop_copies {ρ : Type} {next : ρ → Got × ρ} {bufferSize : ℕ}
    {R : ρ → Text → Prop} (hR : Delivers next bufferSize R) (hb : bufferSize < 2^31)
    {fuel : ℕ} {source : ρ} {text : Text} (hsource : R source text) (hfuel : text.length < fuel)
    {c : Copying} (hhigh : c.recNum < 2^31)
    (hend : c.destination.position = c.destination.content.length) :
    (copyLoop next fuel source c).finished = true ∧
      (copyLoop next fuel source c).destination =
        c.destination.content++text.take c.recNum.toNat := by
  induction fuel generalizing source text c with
  | zero => cases hfuel
  | succ fuel ih =>
    by_cases htext : text = []
    · subst htext
      have hgot : (next source).1.result = 0 := by
        rw [hR.ended source hsource]
        rfl
      rw [copyLoop_stops (Or.inl hgot)]
      simp
    · obtain ⟨data, rest, rfl, hne, hlen, hgot, hrest⟩ := hR.piece source text hsource htext
      have hpos : 0 < data.length := List.length_pos_iff.mpr hne
      rcases lt_or_ge 0 c.recNum with hwanted | hdone
      · rw [copyLoop_writes hgot hne hlen hb hwanted hhigh]
        obtain ⟨hcontent, hposition⟩ := after_appends hend data
        have hshorter : rest.length < fuel := by
          rw [List.length_append] at hfuel
          omega
        have hless : (c.after data).recNum < 2^31 := by
          rw [after_recNum]
          omega
        obtain ⟨hfinished, hcopied⟩ := ih hrest hshorter hless hposition
        have hwant : (c.after data).recNum.toNat = c.recNum.toNat-data.length := by
          rw [after_recNum]
          omega
        refine ⟨hfinished, hcopied.trans ?_⟩
        rw [hcontent, hwant, List.append_assoc, ← List.take_append]
      · rw [copyLoop_stops (Or.inr hdone), Int.toNat_of_nonpos hdone]
        simp

def Remaining (h : Handle) (text : Text) : Prop := h.content.drop h.position = text

theorem fread_delivers (bufferSize : ℕ) (hb : 1 ≤ bufferSize) :
    Delivers (freadNext bufferSize) bufferSize Remaining where
  ended h hnone := by
    show Got.bytes ((h.content.drop h.position).take bufferSize) = _
    rw [hnone, List.take_nil]
  piece h text htext hne := by
    subst htext
    refine ⟨(h.content.drop h.position).take bufferSize,
      (h.content.drop h.position).drop bufferSize, (List.take_append_drop ..).symm, ?_,
      List.length_take_le .., rfl, ?_⟩
    · rw [Ne, List.take_eq_nil_iff]
      rintro (hzero | hnil)
      · omega
      · exact hne hnil
    · show h.content.drop (h.position+((h.content.drop h.position).take bufferSize).length) = _
      rw [← List.drop_drop, List.length_take, ← List.drop_eq_drop_min]

def Splits (bufferSize : ℕ) (results : ℕ → Got) (text : Text) : Prop :=
  ∃ chunks : List Text, (∀ chunk ∈ chunks, chunk ≠ [] ∧ chunk.length ≤ bufferSize) ∧
    chunks.flatten = text ∧ ∀ k, results k = .bytes (chunks.getD k [])

theorem read_delivers (bufferSize : ℕ) :
    Delivers readNext bufferSize (Splits bufferSize) where
  ended results hnone := by
    obtain ⟨chunks, hchunks, hflat, hresults⟩ := hnone
    cases chunks with
    | nil => exact hresults 0
    | cons chunk chunks =>
      have hchunk : chunk = [] := (List.append_eq_nil_iff.mp hflat).1
      exact absurd hchunk (hchunks chunk (List.mem_cons_self ..)).1
  piece results text hsplit hne := by
    obtain ⟨chunks, hchunks, hflat, hresults⟩ := hsplit
    cases chunks with
    | nil => exact absurd hflat.symm hne
    | cons chunk chunks =>
      obtain ⟨hchunk, hlen⟩ := hchunks chunk (List.mem_cons_self ..)
      refine ⟨chunk, chunks.flatten, hflat.symm, hchunk, hlen, hresults 0, chunks, ?_, rfl, ?_⟩
      · exact fun c hc => hchunks c (List.mem_cons_of_mem chunk hc)
      · exact fun k => hresults (k+1)

/-- Every copy ends, and the destination is the beginning of the source. -/
theorem copies_beginning (source old : Text) (howManyRecords recordSize : ℤ) (bufferSize : ℕ)
    (hb : 1 ≤ bufferSize) (hint : bufferSize < 2^31) (hnonneg : 0 ≤ howManyRecords*recordSize)
    (hrange : howManyRecords*recordSize < 2^31) :
    (∀ fuel, source.length < fuel → ∃ outcome,
      copyLib (some source) (some old) howManyRecords bufferSize recordSize fuel = some outcome ∧
      outcome.finished = true ∧ outcome.destination =
        source.take (min (howManyRecords*recordSize).toNat source.length)) ∧
    ∀ results, Splits bufferSize results source →
      ∀ fuel, source.length < fuel → ∃ outcome,
        copySys (some results) (some old) howManyRecords bufferSize recordSize fuel =
          some outcome ∧
        outcome.finished = true ∧ outcome.destination =
          source.take (min (howManyRecords*recordSize).toNat source.length) := by
  have hrecNum : (start howManyRecords recordSize bufferSize).recNum =
      howManyRecords*recordSize := int32_of_range (by omega) hrange
  have hhigh : (start howManyRecords recordSize bufferSize).recNum < 2^31 := hrecNum ▸ hrange
  have htake : ([]:Text)++source.take (start howManyRecords recordSize bufferSize).recNum.toNat =
      source.take (min (howManyRecords*recordSize).toNat source.length) := by
    rw [List.nil_append, hrecNum, ← List.take_eq_take_min]
  constructor
  · intro fuel hfuel
    have hstart : Remaining ⟨source, 0⟩ source := rfl
    obtain ⟨hfinished, hcopied⟩ := copyLoop_copies (fread_delivers bufferSize hb) hint
      hstart hfuel hhigh rfl
    exact ⟨_, rfl, hfinished, hcopied.trans htake⟩
  · intro results hsplits fuel hfuel
    obtain ⟨hfinished, hcopied⟩ := copyLoop_copies (read_delivers bufferSize) hint
      hsplits hfuel hhigh rfl
    exact ⟨_, rfl, hfinished, hcopied.trans htake⟩

theorem copies_beginning_small :
    (∀ fuel, 5 < fuel → ∃ outcome,
      copyLib (some [1, 2, 3, 4, 5]) (some [9]) 2 3 2 fuel = some outcome ∧
      outcome.finished = true ∧ outcome.destination = [1, 2, 3, 4]) ∧
    ∀ results, Splits 3 results [1, 2, 3, 4, 5] → ∀ fuel, 5 < fuel → ∃ outcome,
      copySys (some results) (some [9]) 2 3 2 fuel = some outcome ∧
      outcome.finished = true ∧ outcome.destination = [1, 2, 3, 4] :=
  copies_beginning [1, 2, 3, 4, 5] [9] 2 2 3 (by decide) (by decide) (by decide) (by decide)

end Semestr4.FileCopyContent
