import Semestr4.DirectoryListing

/-!
# The two modes of the listing

Both modes print the files of the same entries under the same paths. They
differ in what they do with an operator that is none of the three, which the
check of the arguments lets through: the recursion then leaves no file out and
the walk prints none.
-/

set_option autoImplicit false

namespace Semestr4.ListingModes
open Semestr4.ByteText Semestr4.ListingDates Semestr4.DirectoryListing

variable {env : Settings}

def PrintSame (env : Settings) (nftw : Text → List Visit) (filePath : Text) (listing : Listing) :
    Prop :=
  ∃ lines lines', dirInfo_stat env filePath listing = some lines ∧
    dirInfo_nftw env nftw filePath = some lines' ∧ lines.Perm lines'

def Known (operator : Text) : Prop := operator = equal ∨ operator = greater ∨ operator = less

def Printed (env : Settings) (stats : Stat) : Prop :=
  stats.kind = .regular ∧ skips env stats = false

instance (env : Settings) (stats : Stat) : Decidable (Printed env stats) :=
  inferInstanceAs (Decidable (_ ∧ _))

def EntryFits (env : Settings) (filePath name : Text) (stats : Stat) : Prop :=
  (filePath++slash::name).length < 1000 ∧
  (stats.kind = .directory ∨ Printed env stats →
    (env.realpath (filePath++slash::name)).length < 1000)

def Fits (env : Settings) (filePath : Text) : Listing → Prop
  | .done => True
  | .dots rest => Fits env filePath rest
  | .entry name stats inside rest =>
    EntryFits env filePath name stats ∧
    (stats.kind = .directory → Fits env (env.realpath (filePath++slash::name)) inside) ∧
    Fits env filePath rest

def line (env : Settings) (visit : Visit) : List Text :=
  if Printed env visit.stats then [printInfo env.zone visit.path visit.stats] else []

theorem inBuffer_some {s t : Text} : inBuffer s = some t ↔ s.length < 1000 ∧ s = t := by
  unfold inBuffer
  split <;> simp_all

theorem fileLine_some {buffer : Text} {stats : Stat} {lines : List Text} :
    fileLine env buffer stats = some lines ↔
      (Printed env stats → (env.realpath buffer).length < 1000) ∧
      lines = line env ⟨env.realpath buffer, stats, stats.kind.flag⟩ := by
  by_cases h : Printed env stats
  · have hnot : ¬ (stats.kind ≠ .regular ∨ skips env stats = true) := by
      simp [h.1, h.2]
    rw [fileLine, if_neg hnot, line, if_pos h, Option.map_eq_some_iff]
    constructor
    · rintro ⟨path, hpath, rfl⟩
      obtain ⟨hlen, rfl⟩ := inBuffer_some.mp hpath
      exact ⟨fun _ => hlen, rfl⟩
    · rintro ⟨hlen, rfl⟩
      exact ⟨_, inBuffer_some.mpr ⟨hlen h, rfl⟩, rfl⟩
  · have hskip : stats.kind ≠ .regular ∨ skips env stats = true := by
      by_contra hnot
      simp only [not_or, Bool.not_eq_true, ne_eq, not_not] at hnot
      exact h hnot
    rw [fileLine, if_pos hskip, line, if_neg h, Option.some.injEq, eq_comm]
    exact ⟨fun hl => ⟨fun hp => absurd hp h, hl⟩, fun hl => hl.2⟩

theorem dirInfo_stat_entry {filePath name : Text} {stats : Stat} {inside rest : Listing}
    {lines : List Text} :
    dirInfo_stat env filePath (.entry name stats inside rest) = some lines ↔
      EntryFits env filePath name stats ∧ ∃ below later,
        (if stats.kind = .directory then
          dirInfo_stat env (env.realpath (filePath++slash::name)) inside else some []) =
            some below ∧
        dirInfo_stat env filePath rest = some later ∧
        below++line env ⟨env.realpath (filePath++slash::name), stats, stats.kind.flag⟩++later =
          lines := by
  simp only [dirInfo_stat, Option.bind_eq_some_iff, inBuffer_some, Option.map_eq_some_iff]
  constructor
  · rintro ⟨buffer, ⟨hlen, rfl⟩, below, hbelow, own, hown, later, hlater, rfl⟩
    obtain ⟨hpath, rfl⟩ := fileLine_some.mp hown
    split at hbelow
    · rename_i hd
      obtain ⟨path, hin, hbelow⟩ := Option.bind_eq_some_iff.mp hbelow
      obtain ⟨hreal, rfl⟩ := inBuffer_some.mp hin
      exact ⟨⟨hlen, fun _ => hreal⟩, below, later, by rw [if_pos hd]; exact hbelow, hlater, rfl⟩
    · rename_i hd
      refine ⟨⟨hlen, ?_⟩, below, later, by rw [if_neg hd]; exact hbelow, hlater, rfl⟩
      rintro (hdir | hprinted)
      · exact absurd hdir hd
      · exact hpath hprinted
  · rintro ⟨⟨hlen, hreal⟩, below, later, hbelow, hlater, rfl⟩
    refine ⟨_, ⟨hlen, rfl⟩, below, ?_, _, fileLine_some.mpr ⟨fun h => hreal (Or.inr h), rfl⟩, later,
      hlater, rfl⟩
    split at hbelow
    · rename_i hd
      rw [if_pos hd, inBuffer_some.mpr ⟨hreal (Or.inl hd), rfl⟩]
      exact hbelow
    · rename_i hd
      rw [if_neg hd]
      exact hbelow

theorem line_resolved {stats : Stat} {path place : Text} {flag : FlagType}
    (h : stats.kind ≠ .link → path = place) :
    line env ⟨path, stats, flag⟩ = line env ⟨place, stats, flag⟩ := by
  unfold line
  split
  · rename_i hprinted
    have hkind : stats.kind ≠ .link := by
      rw [hprinted.1]
      decide
    rw [h hkind]
  · rfl

theorem inside_entries (env : Settings) (path path' : Text) (stats : Stat) (inside : Listing)
    (h : stats.kind = .directory →
      (Fits env path inside ↔ ∃ lines, dirInfo_stat env path inside = some lines) ∧
      ∀ lines, dirInfo_stat env path inside = some lines →
        lines.Perm ((entries path' inside).flatMap (line env))) :
    ((stats.kind = .directory → Fits env path inside) ↔
      ∃ below, (if stats.kind = .directory then dirInfo_stat env path inside else some []) =
        some below) ∧
    ∀ below, (if stats.kind = .directory then dirInfo_stat env path inside else some []) =
        some below →
      below.Perm ((if stats.kind = .directory then entries path' inside else []).flatMap
        (line env)) := by
  by_cases hd : stats.kind = .directory
  · simp only [hd, forall_const]
    exact h hd
  · simp [hd]

/-- The recursion prints exactly where all paths fit, and then the lines of the
entries under their resolved paths, in another order. -/
theorem dirInfo_stat_entries {filePath : Text} {listing : Listing}
    (h : Resolves env.realpath filePath listing) :
    (Fits env filePath listing ↔ ∃ lines, dirInfo_stat env filePath listing = some lines) ∧
    ∀ lines, dirInfo_stat env filePath listing = some lines →
      lines.Perm ((entries (env.realpath filePath) listing).flatMap (line env)) := by
  induction listing generalizing filePath with
  | done =>
    refine ⟨iff_of_true trivial ⟨[], rfl⟩, fun lines hlines => ?_⟩
    cases hlines
    exact List.Perm.refl _
  | dots rest ih => exact ih h
  | entry name stats inside rest ihin ihrest =>
    obtain ⟨hreal, hinside, hrest⟩ := h
    obtain ⟨hfits, hperm⟩ := ihrest hrest
    have hbelow := inside_entries env (env.realpath (filePath++slash::name))
      (child (env.realpath filePath) name) stats inside fun hd => by
        obtain ⟨hself, hresolves⟩ := hinside hd
        have hin := ihin hresolves
        rw [hself] at hin
        rw [hreal (by rw [hd]; decide)]
        exact hin
    constructor
    · constructor
      · rintro ⟨hentry, hfitsin, hfitsrest⟩
        obtain ⟨below, hb⟩ := hbelow.1.mp hfitsin
        obtain ⟨later, hl⟩ := hfits.mp hfitsrest
        exact ⟨_, dirInfo_stat_entry.mpr ⟨hentry, below, later, hb, hl, rfl⟩⟩
      · rintro ⟨lines, hlines⟩
        obtain ⟨hentry, below, later, hb, hl, -⟩ := dirInfo_stat_entry.mp hlines
        exact ⟨hentry, hbelow.1.mpr ⟨below, hb⟩, hfits.mpr ⟨later, hl⟩⟩
    · intro lines hlines
      obtain ⟨-, below, later, hb, hl, rfl⟩ := dirInfo_stat_entry.mp hlines
      rw [entries, List.flatMap_cons, List.flatMap_append, line_resolved hreal,
        ← List.append_assoc]
      have hfront : (below++line env ⟨child (env.realpath filePath) name, stats,
          stats.kind.flag⟩).Perm (line env ⟨child (env.realpath filePath) name, stats,
          stats.kind.flag⟩++below) := List.perm_append_comm
      exact (hfront.trans ((hbelow.2 below hb).append_left _)).append (hperm later hl)

theorem entries_flag {path : Text} {listing : Listing} :
    ∀ visit ∈ entries path listing, visit.flagType = visit.stats.kind.flag := by
  induction listing generalizing path with
  | done => exact List.forall_mem_nil _
  | dots rest ih => exact ih
  | entry name stats inside rest ihin ihrest =>
    intro visit hvisit
    rw [entries] at hvisit
    rcases List.mem_cons.mp hvisit with rfl | hvisit
    · rfl
    · rcases List.mem_append.mp hvisit with hvisit | hvisit
      · split at hvisit
        · exact ihin visit hvisit
        · cases hvisit
      · exact ihrest visit hvisit

theorem line_known {visit : Visit} (hflag : visit.flagType = visit.stats.kind.flag)
    (h : Known env.operator) : line env visit = fn env visit := by
  have hfile : visit.flagType = .FTW_F ↔ visit.stats.kind = .regular := by
    rw [hflag]
    cases visit.stats.kind <;> decide
  have hgreater : greater ≠ equal := by decide
  have hless : less ≠ equal ∧ less ≠ greater := by decide
  unfold line fn Printed skips
  rcases h with h | h | h
  · simp [h, hfile, ← ite_and]
  · simp [h, hfile, hgreater, ← ite_and]
  · simp [h, hfile, hless, ← ite_and]

theorem line_unknown (h : ¬ Known env.operator) (visit : Visit) :
    (line env visit = [] ↔ visit.stats.kind ≠ .regular) ∧ fn env visit = [] := by
  simp only [Known, not_or] at h
  constructor
  · unfold line Printed skips
    simp [h.1, h.2.1, h.2.2]
  · unfold fn
    simp [h.1, h.2.1, h.2.2]

/-- The check of the operator compares one string with three others at once. -/
theorem operator_never_rejected (operator : Text) : ¬ operatorRejected operator := by
  rintro ⟨hequal, hless, -⟩
  exact absurd (hequal.symm.trans hless) (by decide)

theorem parse_any_operator (name filePath operator date : Text) :
    parse [name, filePath, operator, date, [48]] = some ⟨filePath, operator, date, 0⟩ ∧
    parse [name, filePath, operator, date, [49]] = some ⟨filePath, operator, date, 1⟩ := by
  constructor
  · rw [parse, if_neg (operator_never_rejected operator)]
    rfl
  · rw [parse, if_neg (operator_never_rejected operator)]
    rfl

theorem dirInfo_nftw_entries {nftw : Text → List Visit} {filePath : Text} {stats : Stat}
    {listing : Listing} (h : Visits nftw (env.realpath filePath) stats listing) :
    ((env.realpath filePath).length < 1000 ↔
      ∃ lines, dirInfo_nftw env nftw filePath = some lines) ∧
    ∀ lines, dirInfo_nftw env nftw filePath = some lines →
      lines.Perm ((entries (env.realpath filePath) listing).flatMap (fn env)) := by
  unfold dirInfo_nftw
  simp only [Option.map_eq_some_iff, inBuffer_some]
  constructor
  · constructor
    · exact fun hlen => ⟨_, _, ⟨hlen, rfl⟩, rfl⟩
    · rintro ⟨lines, path, ⟨hlen, -⟩, -⟩
      exact hlen
  · rintro lines ⟨path, ⟨-, rfl⟩, rfl⟩
    exact h.flatMap_right (fn env)

/-- Both modes print the same lines exactly if the operator is one of the three
or there is no file to print, and all paths fit into their buffers. -/
theorem printSame_iff (env : Settings) (nftw : Text → List Visit) (filePath : Text)
    (stats : Stat) (listing : Listing) (hvisits : Visits nftw (env.realpath filePath) stats listing)
    (hresolves : Resolves env.realpath filePath listing) :
    PrintSame env nftw filePath listing ↔
      (Known env.operator ∨
        ∀ visit ∈ entries (env.realpath filePath) listing, visit.stats.kind ≠ .regular) ∧
      (env.realpath filePath).length < 1000 ∧ Fits env filePath listing := by
  obtain ⟨hfits, hlines⟩ := dirInfo_stat_entries hresolves
  obtain ⟨hroot, hlines'⟩ := dirInfo_nftw_entries hvisits
  have hsame : ∀ {lines lines'}, dirInfo_stat env filePath listing = some lines →
      dirInfo_nftw env nftw filePath = some lines' → (lines.Perm lines' ↔
        ((entries (env.realpath filePath) listing).flatMap (line env)).Perm
          ((entries (env.realpath filePath) listing).flatMap (fn env))) := by
    intro lines lines' h h'
    constructor
    · exact fun hp => ((hlines lines h).symm.trans hp).trans (hlines' lines' h')
    · exact fun hp => ((hlines lines h).trans hp).trans (hlines' lines' h').symm
  have hfilters : ((entries (env.realpath filePath) listing).flatMap (line env)).Perm
      ((entries (env.realpath filePath) listing).flatMap (fn env)) ↔ Known env.operator ∨
        ∀ visit ∈ entries (env.realpath filePath) listing, visit.stats.kind ≠ .regular := by
    by_cases hknown : Known env.operator
    · refine iff_of_true ?_ (Or.inl hknown)
      rw [List.flatMap_congr fun visit hvisit => line_known (entries_flag visit hvisit) hknown]
    · have hnone : (entries (env.realpath filePath) listing).flatMap (fn env) = [] := by
        rw [List.flatMap_eq_nil_iff]
        exact fun visit _ => (line_unknown hknown visit).2
      rw [hnone, List.perm_nil, List.flatMap_eq_nil_iff, or_iff_right hknown]
      exact forall₂_congr fun visit _ => (line_unknown hknown visit).1
  rw [hfits, hroot, ← hfilters]
  constructor
  · rintro ⟨lines, lines', h, h', hperm⟩
    exact ⟨(hsame h h').mp hperm, ⟨lines', h'⟩, lines, h⟩
  · rintro ⟨hperm, ⟨lines', h'⟩, lines, h⟩
    exact ⟨lines, lines', h, h', (hsame h h').mpr hperm⟩

/-- `2019-04-01` -/
def someDay : Text := [50, 48, 49, 57, 45, 48, 52, 45, 48, 49]

/-- The directory `/d` with the file `a`. -/
def oneFile : Listing := .dots (.dots (.entry [97] ⟨.regular, 420, 5, 0⟩ .done .done))

def walkOne (path : Text) : List Visit :=
  [⟨path, ⟨.directory, 493, 0, 0⟩, .FTW_D⟩, ⟨child path [97], ⟨.regular, 420, 5, 0⟩, .FTW_F⟩]

theorem printSame_iff_small :
    PrintSame ⟨less, someDay, 0, id⟩ walkOne [47, 100] oneFile ↔
      (Known less ∨ ∀ visit ∈ entries [47, 100] oneFile, visit.stats.kind ≠ .regular) ∧
      ([47, 100]:Text).length < 1000 ∧ Fits ⟨less, someDay, 0, id⟩ [47, 100] oneFile :=
  printSame_iff ⟨less, someDay, 0, id⟩ walkOne [47, 100] ⟨.directory, 493, 0, 0⟩ oneFile
    (List.Perm.refl _) ⟨fun _ => rfl, fun h => absurd h (by decide), trivial⟩

/-- With the operator `x` the recursion prints the file and the walk does not. -/
theorem unknown_operator_differs :
    parse [[46], [47, 100], [120], someDay, [48]] = some ⟨[47, 100], [120], someDay, 0⟩ ∧
    ¬ PrintSame ⟨[120], someDay, 0, id⟩ walkOne [47, 100] oneFile := by
  refine ⟨by decide, ?_⟩
  rintro ⟨lines, lines', h, h', hperm⟩
  have hlines : dirInfo_stat ⟨[120], someDay, 0, id⟩ [47, 100] oneFile =
      some [printInfo 0 [47, 100, 47, 97] ⟨.regular, 420, 5, 0⟩] := rfl
  have hlines' : dirInfo_nftw ⟨[120], someDay, 0, id⟩ walkOne [47, 100] = some [] := rfl
  rw [hlines] at h
  rw [hlines'] at h'
  cases h
  cases h'
  exact absurd hperm.length_eq (by decide)

end Semestr4.ListingModes
