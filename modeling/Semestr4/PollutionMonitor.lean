import Mathlib.Data.List.AList
import Semestr4.BinaryRounding
import Semestr4.ErlangTerm

/-!
# The pollution monitor

The functions of the module `pollution`. A call returns a value or raises. Where
the code returns a monitor it can also return the text of a rejection, so the
argument `Monitor` of every function is one or the other, and the functions on
maps raise `badmap` on a text. A station's location can be any term; stations
are addressed by a pair, which is a location, or by any other term, which is a
name. The arithmetic of the means is a parameter: that of doubles rounds every result
and raises where it is out of range.
-/

set_option autoImplicit false

namespace Semestr4.PollutionMonitor
open Semestr4.ErlangTerm Semestr4.BinaryRounding

structure Measurement where
  time : Term
  type : Term
  value : ℚ
  deriving DecidableEq, Repr

structure Station where
  location : Term
  measurements : List Measurement
  deriving DecidableEq, Repr

/-- A map from names to stations. The order of the entries has no meaning. -/
abbrev Stations := AList (fun _ : Term => Station)

abbrev Entry := Sigma (fun _ : Term => Station)

/-- A term in the place of a monitor. -/
inductive Monitor where
  | map (stations : Stations)
  | text (s : String)

inductive Raised where
  | badarg
  | badarith
  | badmap
  | badkey
  | caseClause
  | functionClause
  deriving DecidableEq, Repr

def mapsToList : Monitor → Except Raised (List Entry)
  | .map m => .ok m.entries
  | .text _ => .error .badmap

/-- The entries `maps:filter` leaves, as `maps:to_list` lists them. -/
def mapsFilter (p : Entry → Bool) : Monitor → Except Raised (List Entry)
  | .map m => .ok (m.entries.filter p)
  | .text _ => .error .badmap

def mapsGet (key : Term) : Monitor → Except Raised Station
  | .map m => match m.lookup key with
    | some station => .ok station
    | none => .error .badkey
  | .text _ => .error .badmap

/-- `maps:get` with the default `error`. -/
def mapsFind (key : Term) : Monitor → Except Raised (Option Station)
  | .map m => .ok (m.lookup key)
  | .text _ => .error .badmap

/-- `Monitor#{Key => Station}`. -/
def mapsPut (key : Term) (station : Station) : Monitor → Except Raised Monitor
  | .map m => .ok (.map (m.insert key station))
  | .text _ => .error .badmap

def toFloat (val : Term) : Except Raised ℚ :=
  match float val with
  | some value => .ok value
  | none => .error .badarg

def createMonitor : Stations := ∅

def stationExists : String := "Station with the same name or location exists"

def noSuchStation : String := "No such station"

def measurementExists : String := "This measurement already exists"

def noSuchMeasurement : String := "No such measurement"

def noEnoughData : String := "No enough data"

def addStation (name location : Term) (monitor : Monitor) : Except Raised Monitor := do
  let stations ← mapsToList monitor
  if stations.any fun e => e.1.Same name ∨ e.2.location.Same location then
    return .text stationExists
  else
    mapsPut name { location := location, measurements := [] } monitor

/-- The second clause, for the list of an empty tuple, matches no list of
entries. A location without a station therefore raises. -/
def getName (location : Term) (monitor : Monitor) : Except Raised Term := do
  let m ← mapsFilter (fun e => e.2.location.Same location) monitor
  match m with
  | [e] => return e.1
  | _ => throw .caseClause

def Measurement.At (m : Measurement) (time type : Term) : Prop :=
  m.time.Same time ∧ m.type.Same type

instance (m : Measurement) (time type : Term) : Decidable (m.At time type) :=
  inferInstanceAs (Decidable (m.time.Same time ∧ m.type.Same type))

def addValue (place time type val : Term) (monitor : Monitor) : Except Raised Monitor :=
  if place.isPair then do
    let value ← toFloat val
    let key ← getName place monitor
    if key = .nil then
      return .text noSuchStation
    else
      let station ← mapsGet key monitor
      if station.measurements.any fun m => m.At time type then
        return .text measurementExists
      else
        mapsPut key
          { location := place
            measurements := { time := time, type := type, value := value }::station.measurements }
          monitor
  else do
    let value ← toFloat val
    match ← mapsFind place monitor with
    | none => return .text noSuchStation
    | some station =>
      if station.measurements.any fun m => m.At time type then
        return .text measurementExists
      else
        mapsPut place
          { location := station.location
            measurements := { time := time, type := type, value := value }::station.measurements }
          monitor

def removeValue (place time type : Term) (monitor : Monitor) : Except Raised Monitor :=
  if place.isPair then do
    let key ← getName place monitor
    if key = .nil then
      return .text noSuchStation
    else
      let station ← mapsGet key monitor
      mapsPut key
        { location := place
          measurements := station.measurements.filter fun m =>
            ¬ m.type.Same type ∨ ¬ m.time.Same time }
        monitor
  else do
    match ← mapsFind place monitor with
    | none => return .text noSuchStation
    | some station =>
      mapsPut place
        { location := station.location
          measurements := station.measurements.filter fun m =>
            ¬ m.type.Same type ∨ ¬ m.time.Same time }
        monitor

def selected (time type : Term) (measurements : List Measurement) : List Measurement :=
  measurements.filter fun m => m.type.Same type ∧ m.time.Same time

def keyOf (place : Term) (monitor : Monitor) : Except Raised Term :=
  if place.isPair then getName place monitor else .ok place

def getOneValue (place time type : Term) (monitor : Monitor) : Except Raised Term := do
  let key ← keyOf place monitor
  match ← mapsFind key monitor with
  | none => return .text noSuchStation
  | some station => match selected time type station.measurements with
    | [] => return .text noSuchMeasurement
    | [m] => return .float m.value
    | _ => throw .caseClause

/-- How floats are added and divided by a length; nothing is a result out of range. -/
structure Arithmetic where
  add : ℚ → ℚ → Option ℚ
  divide : ℚ → ℕ → Option ℚ

def doubles : Arithmetic where
  add x y := finite (x+y)
  divide x n := (float (.int n)).bind fun y => finite (x/y)

def exact : Arithmetic where
  add x y := some (x+y)
  divide x n := some (x/n)

def mean (floats : Arithmetic) (measurements : List Measurement) : Option ℚ :=
  (measurements.foldrM (fun m acc => floats.add m.value acc) 0).bind fun sum =>
    floats.divide sum measurements.length

def toTerm : Option ℚ → Except Raised Term
  | some value => .ok (.float value)
  | none => .error .badarith

/-- Both clauses take a pair. -/
def getStationMean (floats : Arithmetic) (place type : Term) (monitor : Monitor) :
    Except Raised Term :=
  if place.isPair then do
    let key ← getName place monitor
    match ← mapsFind key monitor with
    | none => return .text noSuchStation
    | some station => match station.measurements.filter fun m => m.type.Same type with
      | [] => return .text noSuchMeasurement
      | list => toTerm (mean floats list)
  else throw .functionClause

/-- The pattern `{Time, _}` for the given `Time`, which is matched exactly. -/
def onDay (time : Term) : Term → Bool
  | .tuple (.more t (.more _ .none)) => t = time
  | _ => false

def getDailyMean (floats : Arithmetic) (time type : Term) (monitor : Monitor) :
    Except Raised Term := do
  let list ← mapsToList monitor
  match (list.flatMap fun e => e.2.measurements).filter fun m =>
      m.type.Same type ∧ onDay time m.time with
  | [] => return .int 0
  | measurements => toTerm (mean floats measurements)

def Measurement.record (m : Measurement) : Term :=
  .tuple (.more (.atom "measurement") (.more m.time (.more m.type (.more (.float m.value) .none))))

/-- The names with their first measurement of the type, where there is one. -/
def firstMeasurements (type : Term) (list : List Entry) : List (Term × Measurement) :=
  list.filterMap fun e =>
    ((e.2.measurements.filter fun m => m.type.Same type).head?).map fun m => (e.1, m)

/-- Whole records are compared, the time before the value. -/
def getMinimumPollutionStation (type : Term) (monitor : Monitor) : Except Raised Term := do
  let list ← mapsToList monitor
  match firstMeasurements type list with
  | [] => return .text noEnoughData
  | first::rest =>
    return ((first::rest).foldr
      (fun e least => if e.2.record.Less least.2.record then e else least) first).1

inductive Call where
  | addStation (name location : Term)
  | addValue (place time type val : Term)
  | removeValue (place time type : Term)
  deriving DecidableEq, Repr

def Call.apply : Call → Monitor → Except Raised Monitor
  | .addStation name location => PollutionMonitor.addStation name location
  | .addValue place time type val => PollutionMonitor.addValue place time type val
  | .removeValue place time type => PollutionMonitor.removeValue place time type

end Semestr4.PollutionMonitor
