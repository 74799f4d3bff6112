import Semestr4.ListingDates

/-!
# Listing the files of a directory tree

The files of a tree that were changed before, on or after a date are printed in
one of two ways: by a recursion over `readdir`, or by the library walk `nftw`
that calls a function for every entry. The paths of the recursion are put
together in buffers of fixed size.
-/

set_option autoImplicit false

namespace Semestr4.DirectoryListing
open Semestr4.ByteText Semestr4.DecimalText Semestr4.ListingDates

inductive Kind where
  | directory
  | regular
  | link
  deriving DecidableEq, Repr

structure Stat where
  kind : Kind
  permissions : ℕ
  size : ℤ
  mtime : ℤ
  deriving DecidableEq, Repr

/-- What `readdir` gives for a directory, entry by entry: the entries `.` and
`..`, and the others with the status of each and what is inside a directory. -/
inductive Listing where
  | done
  | dots (rest : Listing)
  | entry (name : Text) (stats : Stat) (inside rest : Listing)
  deriving Repr

structure Settings where
  operator : Text
  date : Text
  zone : ℤ
  realpath : Text → Text

structure Arguments where
  filePath : Text
  operator : Text
  date : Text
  mode : ℤ
  deriving DecidableEq, Repr

def equal : Text := [61]

def less : Text := [60]

def greater : Text := [62]

def slash : UInt8 := 47

/-- The check of the operator, with its comparisons as they stand. -/
def operatorRejected (operator : Text) : Prop :=
  operator = equal ∧ operator = less ∧ operator = greater

instance (operator : Text) : Decidable (operatorRejected operator) :=
  inferInstanceAs (Decidable (_ ∧ _ ∧ _))

def parse (argv : List Text) : Option Arguments :=
  match argv with
  | [_, filePath, operator, date, mode] =>
    if operatorRejected operator then none
    else if atoi mode ≠ 1 ∧ atoi mode ≠ 0 then none
    else some ⟨filePath, operator, date, atoi mode⟩
  | _ => none

def modeLetters (stats : Stat) : Text :=
  let letter (bit : ℕ) (c : UInt8) : UInt8 := if stats.permissions.testBit bit then c else 45
  [if stats.kind = .directory then 100 else 45,
    letter 8 114, letter 7 119, letter 6 120, letter 5 114, letter 4 119, letter 3 120,
    letter 2 114, letter 1 119, letter 0 120]

def printInfo (zone : ℤ) (path : Text) (stats : Stat) : Text :=
  modeLetters stats++9::decimal stats.size++9::dateToString zone stats.mtime++9::path++[newline]

section
variable (env : Settings)

def difftime (stats : Stat) : ℤ :=
  stringToDate env.zone env.date-stringToDate env.zone (dateToString env.zone stats.mtime)

/-- Whether the chain of conditions goes on to the next entry. -/
def skips (stats : Stat) : Bool :=
  if env.operator = equal then difftime env stats ≠ 0
  else if env.operator = greater then difftime env stats ≥ 0
  else if env.operator = less then difftime env stats ≤ 0
  else false

/-- A string with its final zero in a buffer of 1000 bytes; beyond it the memory
behind the buffer is overwritten. -/
def inBuffer (s : Text) : Option Text := if s.length < 1000 then some s else none

def fileLine (buffer : Text) (stats : Stat) : Option (List Text) :=
  if stats.kind ≠ .regular ∨ skips env stats then some []
  else (inBuffer (env.realpath buffer)).map fun path => [printInfo env.zone path stats]

/-- The lines printed for a directory, or nothing where a buffer overflows. -/
def dirInfo_stat (filePath : Text) : Listing → Option (List Text)
  | .done => some []
  | .dots rest => dirInfo_stat filePath rest
  | .entry name stats inside rest =>
    (inBuffer (filePath++slash::name)).bind fun buffer =>
    (if stats.kind = .directory then
      (inBuffer (env.realpath buffer)).bind fun path => dirInfo_stat path inside
    else some []).bind fun below =>
    (fileLine env buffer stats).bind fun line =>
    (dirInfo_stat filePath rest).map fun later => below++line++later

inductive FlagType where
  | FTW_F
  | FTW_D
  | FTW_SL
  deriving DecidableEq, Repr

structure Visit where
  path : Text
  stats : Stat
  flagType : FlagType
  deriving DecidableEq, Repr

/-- What is printed for one entry of the walk; the result is always 0. -/
def fn (visit : Visit) : List Text :=
  if visit.flagType = .FTW_F then
    if env.operator = equal then
      if difftime env visit.stats = 0 then [printInfo env.zone visit.path visit.stats] else []
    else if env.operator = greater then
      if difftime env visit.stats < 0 then [printInfo env.zone visit.path visit.stats] else []
    else if env.operator = less then
      if difftime env visit.stats > 0 then [printInfo env.zone visit.path visit.stats] else []
    else []
  else []

/-- The entries that `nftw` visits depend on the resolved path. -/
def dirInfo_nftw (nftw : Text → List Visit) (filePath : Text) : Option (List Text) :=
  (inBuffer (env.realpath filePath)).map fun path => (nftw path).flatMap (fn env)

end

def Kind.flag : Kind → FlagType
  | .directory => .FTW_D
  | .regular => .FTW_F
  | .link => .FTW_SL

/-- An entry of a directory; the root already ends with a slash. -/
def child (path name : Text) : Text :=
  if path = [slash] then slash::name else path++slash::name

def entries (path : Text) : Listing → List Visit
  | .done => []
  | .dots rest => entries path rest
  | .entry name stats inside rest =>
    ⟨child path name, stats, stats.kind.flag⟩::
      ((if stats.kind = .directory then entries (child path name) inside else [])++
        entries path rest)

/-- A walk without links visits the directory and every entry below it once, in
some order. -/
def Visits (nftw : Text → List Visit) (path : Text) (stats : Stat) (listing : Listing) : Prop :=
  (nftw path).Perm (⟨path, stats, .FTW_D⟩::entries path listing)

/-- The path of an entry that is no link resolves to its place in the resolved
directory, and a resolved path to itself. -/
def Resolves (realpath : Text → Text) (filePath : Text) : Listing → Prop
  | .done => True
  | .dots rest => Resolves realpath filePath rest
  | .entry name stats inside rest =>
    (stats.kind ≠ .link →
      realpath (filePath++slash::name) = child (realpath filePath) name) ∧
    (stats.kind = .directory →
      realpath (child (realpath filePath) name) = child (realpath filePath) name ∧
      Resolves realpath (child (realpath filePath) name) inside) ∧
    Resolves realpath filePath rest

end Semestr4.DirectoryListing
