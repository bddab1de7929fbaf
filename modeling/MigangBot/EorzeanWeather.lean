import MigangBot.Blacklists
import MigangBot.JsonValue
import MigangBot.Lib.Effects
import MigangBot.Lib.Maps

namespace MigangBot.EorzeanWeather

open Lib.Exceptions Lib.Effects Lib.Effects.Act Lib.Maps Text JsonValue Blacklists

structure WeatherRate where
  weather : Int32
  rate : Int32
  deriving DecidableEq

structure LocationRow where
  location : Bytes
  alterName : Bytes
  weatherRate : Int32

structure WeatherRateRow where
  weatherRate : Int32
  wR : Bytes

/-- The four indexes, and the three tables row by row. -/
@[ext] structure Data where
  alterNameIdx : FiniteMap Bytes Bytes
  weatherIdx : List Bytes
  locationIdx : FiniteMap Bytes Int32
  weatherRateIdx : FiniteMap Int32 (List WeatherRate)
  weather : List Bytes
  location : List LocationRow
  weatherRate : List WeatherRateRow

inductive Table
  | weather
  | location
  | weatherRate
  deriving DecidableEq

/-- All that changes an index or a table. -/
inductive Step
  | clearWeather
  | pushWeather (weather : Bytes)
  | touchRate (rate : Int32)
  | pushRate (rate : Int32) (w : WeatherRate)
  | emplaceLocation (location : Bytes) (rate : Int32)
  | emplaceAlterName (name location : Bytes)
  | truncate (table : Table)
  | insertWeather (weather : Bytes)
  | insertLocation (row : LocationRow)
  | insertWeatherRate (row : WeatherRateRow)

def truncated (s : Data) : Table → Data
  | .weather => { s with weather := [] }
  | .location => { s with location := [] }
  | .weatherRate => { s with weatherRate := [] }

def pushed (idx : FiniteMap Int32 (List WeatherRate)) (rate : Int32) (w : WeatherRate) :
    FiniteMap Int32 (List WeatherRate) :=
  idx.insert rate ((idx.lookup rate).getD [] ++ [w])

def apply (s : Data) : Step → Data
  | .clearWeather => { s with weatherIdx := [] }
  | .pushWeather weather => { s with weatherIdx := s.weatherIdx ++ [weather] }
  | .touchRate rate => { s with weatherRateIdx := emplace s.weatherRateIdx rate [] }
  | .pushRate rate w => { s with weatherRateIdx := pushed s.weatherRateIdx rate w }
  | .emplaceLocation location rate => { s with locationIdx := emplace s.locationIdx location rate }
  | .emplaceAlterName name location => { s with alterNameIdx := emplace s.alterNameIdx name location }
  | .truncate table => truncated s table
  | .insertWeather weather => { s with weather := s.weather ++ [weather] }
  | .insertLocation row => { s with location := s.location ++ [row] }
  | .insertWeatherRate row => { s with weatherRate := s.weatherRate ++ [row] }

/-- The exceptions that Update tells apart: the handler around a CREATE TABLE
takes those of sqlpp only. -/
inductive Exception
  | sqlpp
  | other
  deriving DecidableEq

inductive File
  | weather
  | territoryType
  | placeName
  | weatherRate
  deriving DecidableEq

/-- The places where what is outside of the program can throw: its statements,
its downloads, and the reading of a file. -/
inductive Point
  | create (table : Table)
  | select (table : Table)
  | fetch (file : File)
  | reader (file : File)
  | row (file : File) (i : Nat)
  | truncate (table : Table)
  | insert (table : Table) (i : Nat)
  deriving DecidableEq

abbrev CsvRow := List Bytes

/-- A call meets the downloads, as the reader gives them row by row, and the
exceptions that come from outside. -/
structure Environment where
  rows : File → List CsvRow
  throws : Point → Option Exception

/-- CSVField::get<int>, Json::parse and Json::dump; what throws has no value. -/
structure Library where
  getInt : Bytes → Option Int32
  parse : Bytes → Option Json
  dump : Json → Option Bytes

abbrev Act := Lib.Effects.Act apply Exception

section Primitives

variable (lib : Library) (env : Environment)

def proceed (p : Point) : Act Unit :=
  match env.throws p with
  | none => pure ()
  | some e => lift (throwing e)

def given {α : Type} : Option α → Act α
  | some a => pure a
  | none => lift (throwing .other)

/-- An exception of the JSON library is one of the others. -/
def fromJson {α : Type} : Text.Outcome α → Act α
  | .ok a => pure a
  | .error (.thrown _) => lift (throwing .other)
  | .error .terminate => lift (.error .terminate)
  | .error .undefined => lift (.error .undefined)

def field (row : CsvRow) (i : Nat) : Act Bytes := given row[i]?

def intAt (row : CsvRow) (i : Nat) : Option Int32 := row[i]?.bind lib.getInt

def intField (row : CsvRow) (i : Nat) : Act Int32 := given (intAt lib row i)

/-- The loop over a reader, which passes over two rows below the header. -/
def eachRow (file : File) (body : CsvRow → Nat → Act Unit) : Act Unit :=
  each (env.rows file).zipIdx fun r => do
    proceed env (.row file r.2)
    if r.2 < 2 then return () else body r.1 r.2

def fits (n : Nat) (text : Bytes) : Act Unit :=
  if characters text ≤ n then pure () else lift (throwing .sqlpp)

end Primitives

section Loading

variable (lib : Library) (env : Environment)

def createTable (table : Table) : Act Unit :=
  recover (proceed env (.create table)) fun e =>
    match e with
    | .sqlpp => return ()
    | .other => lift (throwing e)

/-- What a range-based for loop over a value of the library visits. -/
def elements : Json → List Json
  | .null => []
  | .array xs => xs
  | .object o => o.map Prod.snd
  | v => [v]

def readRate (w : Json) : Text.Outcome WeatherRate := do
  let indexed ← w.index "weather"
  let weather ← indexed.2.getInt
  let rate ← (← indexed.1.index "rate").2.getInt
  return ⟨Int32.ofInt weather, Int32.ofInt rate⟩

def initWeather : Act Unit := do
  proceed env (.select .weather)
  each (← read).weather fun row => perform (.pushWeather row)

/-- The entry of the index is made before the value that goes there is read. -/
def loadRate (rate : Int32) (w : Json) : Act Unit := do
  perform (.touchRate rate)
  perform (.pushRate rate (← fromJson (readRate w)))

def loadRateRow (row : WeatherRateRow) : Act Unit := do
  let jsonList ← given (lib.parse row.wR)
  each (elements jsonList) (loadRate row.weatherRate)

def initWeatherRate : Act Unit := do
  proceed env (.select .weatherRate)
  each (← read).weatherRate (loadRateRow lib)

def loadName (location : Bytes) (name : Json) : Act Unit := do
  perform (.emplaceAlterName (← fromJson name.getString) location)

def loadLocationRow (row : LocationRow) : Act Unit := do
  perform (.emplaceLocation row.location row.weatherRate)
  let alterName ← given (lib.parse row.alterName)
  each (elements alterName) (loadName row.location)

def initLocation : Act Unit := do
  proceed env (.select .location)
  each (← read).location (loadLocationRow lib)

def init : Act Unit := do
  createTable env .weather
  createTable env .location
  createTable env .weatherRate
  initWeather env
  initWeatherRate lib env
  initLocation lib env

end Loading

section Updating

variable (lib : Library) (env : Environment)

def readWeatherRow (row : CsvRow) : Act Unit := do perform (.pushWeather (← field row 2))

def insertWeather (weather : Bytes × Nat) : Act Unit := do
  proceed env (.insert .weather weather.2)
  fits 15 weather.1
  perform (.insertWeather weather.1)

def updateWeather : Act Unit := do
  proceed env (.fetch .weather)
  perform .clearWeather
  proceed env (.reader .weather)
  eachRow env .weather fun row _ => readWeatherRow row
  proceed env (.truncate .weather)
  perform (.truncate .weather)
  each (← read).weatherIdx.zipIdx (insertWeather env)

def pushBack : Json → Json → Json
  | .array xs, v => .array (xs ++ [v])
  | _, v => .array [v]

def jsonInt (i : Int32) : Json :=
  if 0 ≤ i.toInt then .numberUnsigned (UInt64.ofNat i.toInt.toNat) else .numberInteger (Int64.ofInt i.toInt)

/-- What the text written from the two numbers is parsed to. -/
def rateJson (w : WeatherRate) : Json := .object [("rate", jsonInt w.rate), ("weather", jsonInt w.weather)]

def addInt (a b : Int32) : Act Int32 :=
  if -2 ^ 31 ≤ a.toInt + b.toInt ∧ a.toInt + b.toInt < 2 ^ 31 then pure (a + b) else lift (.error .undefined)

/-- The inner loop, at the indexes that are left. -/
def ratesFrom (row : CsvRow) (rate : Int32) : List Nat → Int32 → Json → Act Json
  | [], _, list => return list
  | i :: is, tmp, list =>
      if tmp = 100 then return list
      else if i % 2 = 1 then do
        let tmp ← addInt tmp (← intField lib row (i + 1))
        perform (.touchRate rate)
        let weather ← intField lib row i
        perform (.pushRate rate ⟨weather, tmp⟩)
        ratesFrom row rate is tmp (pushBack list (rateJson ⟨weather, tmp⟩))
      else ratesFrom row rate is tmp list

def newKey (rate : Int32) : Act Unit := do
  if (← read).weatherRate.any fun row => row.weatherRate = rate then lift (throwing .sqlpp) else return ()

def updateRateRow (row : CsvRow) (i : Nat) : Act Unit := do
  let rate ← intField lib row 0
  let list ← ratesFrom lib row rate (List.range (row.length - 1)) 0 .null
  let text ← given (lib.dump list)
  proceed env (.insert .weatherRate i)
  fits 255 text
  newKey rate
  perform (.insertWeatherRate ⟨rate, text⟩)

def updateWeatherRate : Act Unit := do
  proceed env (.fetch .weatherRate)
  proceed env (.reader .weatherRate)
  proceed env (.truncate .weatherRate)
  perform (.truncate .weatherRate)
  eachRow env .weatherRate (updateRateRow lib env)

def readPlaceRow (ret : FiniteMap Int32 Bytes) (row : CsvRow × Nat) : Act (FiniteMap Int32 Bytes) := do
  proceed env (.row .placeName row.2)
  if row.2 < 2 then return ret
  else
    let code ← intField lib row.1 0
    return emplace ret code (← field row.1 1)

def getCodeLocation : Act (FiniteMap Int32 Bytes) := do
  proceed env (.fetch .placeName)
  proceed env (.reader .placeName)
  fold (env.rows .placeName).zipIdx ∅ (readPlaceRow lib env)

/-- The alternative names of a location, in the order in which the index lists
them. -/
def namesOf (alterNameIdx : FiniteMap Bytes Bytes) (location : Bytes) : List Bytes :=
  (alterNameIdx.entries.filter fun e => e.2 = location).map fun e => e.1

def getAlterName (alterNameIdx : FiniteMap Bytes Bytes) (location : Bytes) : Option Json :=
  if namesOf alterNameIdx location = [] then none
  else some (.array ((namesOf alterNameIdx location).map .string))

def alterText (alterName : Bytes → Option Json) (location : Bytes) : Act Bytes :=
  match alterName location with
  | some names => given (lib.dump names)
  | none => pure (bytes "[]")

def insertLocation (alterName : Bytes → Option Json) (location : Bytes) (rate : Int32) (i : Nat) : Act Unit := do
  perform (.emplaceLocation location rate)
  let text ← alterText lib alterName location
  proceed env (.insert .location i)
  fits 30 location
  fits 255 text
  perform (.insertLocation ⟨location, text, rate⟩)

def updateTerritoryRow (codeLocation : FiniteMap Int32 Bytes) (alterName : Bytes → Option Json) (row : CsvRow)
    (i : Nat) : Act Unit := do
  let code ← intField lib row 6
  if code = 0 then return ()
  else match codeLocation.lookup code with
    | none => return ()
    | some locationName =>
        if ((← read).locationIdx.lookup locationName).isSome then return ()
        else if (← field row 1).contains (char '_') then return ()
        else insertLocation lib env alterName locationName (← intField lib row 13) i

def updateTerritoryInfo : Act Unit := do
  proceed env (.fetch .territoryType)
  proceed env (.reader .territoryType)
  let codeLocation ← getCodeLocation lib env
  let alterName := getAlterName (← read).alterNameIdx
  proceed env (.truncate .location)
  perform (.truncate .location)
  eachRow env .territoryType (updateTerritoryRow lib env codeLocation alterName)

def update : Act Bool :=
  recover (do
    init lib env
    updateWeather env
    updateTerritoryInfo lib env
    updateWeatherRate lib env
    return true) fun _ => return false

end Updating

section Forecast

def forcastTarget (date : Int32) : Int32 :=
  let bell := date / 175
  let increment := (bell + 8 - bell % 8) % 24
  let totalDays := date / 4200
  let calcBase := totalDays * 100 + increment
  let step1 := ((calcBase <<< 11) ^^^ calcBase).toUInt32
  let step2 := (step1 >>> 8) ^^^ step1
  (step2 % 100).toInt32

def weatherAt (weatherIdx : List Bytes) (i : Int32) : Text.Outcome Bytes :=
  if 0 ≤ i.toInt then
    match weatherIdx[i.toInt.toNat]? with
    | some weather => .ok weather
    | none => throwing .outOfRange
  else throwing .outOfRange

/-- The loop of CalWeather over the rates of a location. -/
def forecast (weatherIdx : List Bytes) (rates : List WeatherRate) (target : Int32) : Text.Outcome Bytes :=
  match rates.find? fun rate => target < rate.rate with
  | some rate => weatherAt weatherIdx rate.weather
  | none => .ok []

def calWeather (s : Data) (date : Int32) (location : Bytes) : Text.Outcome Bytes :=
  match s.locationIdx.lookup location with
  | none => .ok []
  | some rate =>
      match s.weatherRateIdx.lookup rate with
      | none => throwing .outOfRange
      | some weatherRate => forecast s.weatherIdx weatherRate (forcastTarget date)

end Forecast

end MigangBot.EorzeanWeather
