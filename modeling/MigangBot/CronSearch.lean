import MigangBot.LocalTime
import MigangBot.Scheduling

namespace MigangBot.CronSearch

open Lib.Calendar Text LocalTime Scheduling

inductive CronField
  | second
  | minute
  | hourOfDay
  | dayOfWeek
  | dayOfMonth
  | month
  | year
  deriving DecidableEq

def cronFields : List CronField := [.second, .minute, .hourOfDay, .dayOfWeek, .dayOfMonth, .month, .year]

def cronMinDaysOfMonth : Nat := 1

def cronMinDaysOfWeek : Nat := 0

def cronMaxYearsDiff : Int := 4

structure CronExpr where
  seconds : BitVec 60
  minutes : BitVec 60
  hours : BitVec 24
  daysOfWeek : BitVec 7
  daysOfMonth : BitVec 31
  months : BitVec 12
  expr : Bytes
  deriving DecidableEq

/-- How a search ends without a time: find_next returns false, which every
level of it hands on, or an exception is thrown. -/
inductive Stop
  | beyond
  | badCronexpr (message : Bytes)
  deriving DecidableEq

/-- The outer option is none where the fuel ran out. -/
abbrev Search := ExceptT Stop Option

def Search.exhausted {α : Type} : Search α := ExceptT.mk none

def Tm.add (date : Tm) (field : CronField) (val : Int) : Tm :=
  match field with
  | .second => { date with tmSec := date.tmSec + val }
  | .minute => { date with tmMin := date.tmMin + val }
  | .hourOfDay => { date with tmHour := date.tmHour + val }
  | .dayOfWeek | .dayOfMonth => { date with tmMday := date.tmMday + val }
  | .month => { date with tmMon := date.tmMon + val }
  | .year => { date with tmYear := date.tmYear + val }

def Tm.set (date : Tm) (field : CronField) (val : Int) : Tm :=
  match field with
  | .second => { date with tmSec := val }
  | .minute => { date with tmMin := val }
  | .hourOfDay => { date with tmHour := val }
  | .dayOfWeek => { date with tmWday := val }
  | .dayOfMonth => { date with tmMday := val }
  | .month => { date with tmMon := val }
  | .year => { date with tmYear := val }

def nextSetBit {n : Nat} (target : BitVec n) (offset : Nat) : Option Nat :=
  (List.range' offset (n - offset)).find? (fun i => target.getLsbD i)

abbrev MarkedFields := CronField → Bool

def emptyList : MarkedFields := fun _ => false

def markField (orders : MarkedFields) (field : CronField) : MarkedFields := fun f => f == field || orders f

section Zone

variable (utcOffset : Int)

/-- The end of add_to_field, set_field and reset_field. -/
def normalise (date : Tm) : Search Tm :=
  match mktime utcOffset date with
  | (t, date) => if t = invalidTime then throw (.badCronexpr (bytes "Invalid time expression")) else pure date

def addToField (date : Tm) (field : CronField) (val : Int) : Search Tm := normalise utcOffset (Tm.add date field val)

def setField (date : Tm) (field : CronField) (val : Int) : Search Tm := normalise utcOffset (Tm.set date field val)

def resetField (date : Tm) (field : CronField) : Search Tm :=
  setField utcOffset date field (if field = .dayOfMonth then 1 else 0)

def resetAllFields (date : Tm) (markedFields : MarkedFields) : Search Tm :=
  cronFields.foldlM (fun date field => if markedFields field then resetField utcOffset date field else pure date) date

/-- The find_next of one field: the value it comes to, none for INVALID_INDEX. -/
def findNextValue {n : Nat} (target : BitVec n) (date : Tm) (value : Nat) (field nextField : CronField)
    (markedFields : MarkedFields) : Search (Option Nat × Tm) := do
  let (nextValue, date) ←
    match nextSetBit target value with
    | some v => pure (some v, date)
    | none => do
        let date ← addToField utcOffset date nextField 1
        let date ← resetField utcOffset date field
        pure (nextSetBit target 0, date)
  if nextValue = some value then return (nextValue, date)
  let date ← setField utcOffset date field (nextValue.elim (-1) Int.ofNat)
  let date ← resetAllFields utcOffset date markedFields
  return (nextValue, date)

/-- The loop of find_next_day, with the steps that count leaves. -/
def findNextDay (cex : CronExpr) (markedFields : MarkedFields) : Nat → Tm → Nat → Nat → Search (Nat × Tm)
  | 0, date, dayOfMonth, _ => return (dayOfMonth, date)
  | steps + 1, date, dayOfMonth, dayOfWeek =>
      if !cex.daysOfMonth.getLsbD (dayOfMonth - cronMinDaysOfMonth) ||
          !cex.daysOfWeek.getLsbD (dayOfWeek - cronMinDaysOfWeek) then do
        let date ← addToField utcOffset date .dayOfMonth 1
        let dayOfMonth := date.tmMday.toNat
        let dayOfWeek := date.tmWday.toNat
        let date ← resetAllFields utcOffset date markedFields
        findNextDay cex markedFields steps date dayOfMonth dayOfWeek
      else return (dayOfMonth, date)

/-- What find_next does after every field but the months: a field that came out
as it was is marked, else the search starts again. -/
def markOrAgain (again : Tm → Search Tm) (same : Bool) (orders : MarkedFields) (field : CronField) (date : Tm) :
    Search (MarkedFields × Tm) :=
  if same then pure (markField orders field, date)
  else do
    let date ← again date
    pure (orders, date)

def findNext (cex : CronExpr) (dot : Int) : Nat → Tm → Search Tm
  | 0, _ => .exhausted
  | fuel + 1, date => do
      let second := date.tmSec.toNat
      let (updatedSecond, date) ← findNextValue utcOffset cex.seconds date second .second .minute emptyList
      let markedFields := if some second = updatedSecond then markField emptyList .second else emptyList
      let minute := date.tmMin.toNat
      let (updateMinute, date) ←
        findNextValue utcOffset cex.minutes date minute .minute .hourOfDay markedFields
      let (markedFields, date) ←
        markOrAgain (findNext cex dot fuel) (some minute = updateMinute) markedFields .minute date
      let hour := date.tmHour.toNat
      let (updatedHour, date) ←
        findNextValue utcOffset cex.hours date hour .hourOfDay .dayOfWeek markedFields
      let (markedFields, date) ←
        markOrAgain (findNext cex dot fuel) (some hour = updatedHour) markedFields .hourOfDay date
      let dayOfMonth := date.tmMday.toNat
      let (updatedDayOfMonth, date) ←
        findNextDay utcOffset cex markedFields 366 date dayOfMonth date.tmWday.toNat
      let (markedFields, date) ←
        markOrAgain (findNext cex dot fuel) (dayOfMonth = updatedDayOfMonth) markedFields .dayOfMonth date
      let month := date.tmMon.toNat
      let (updatedMonth, date) ← findNextValue utcOffset cex.months date month .month .year markedFields
      if some month = updatedMonth then return date
      else if date.tmYear - dot > cronMaxYearsDiff then throw .beyond
      else findNext cex dot fuel date

/-- The cron_next of a std::time_t, but for what becomes of a search that was
given up. -/
def cronSearch (fuel : Nat) (cex : CronExpr) (date : Int) : Search Int := do
  let (original, dt) := mktime utcOffset (localtime utcOffset date)
  if original = invalidTime then return invalidTime
  let dt ← findNext utcOffset cex dt.tmYear fuel dt
  let (calculated, dt) := mktime utcOffset dt
  if calculated = invalidTime then return calculated
  if calculated = original then
    let dt ← addToField utcOffset dt .second 1
    let dt ← findNext utcOffset cex dt.tmYear fuel dt
    return (mktime utcOffset dt).1
  return (mktime utcOffset dt).1

def cronNext (fuel : Nat) (cex : CronExpr) (date : Int) : Option (Except Bytes Int) :=
  (cronSearch utcOffset fuel cex date).run.map fun
    | .ok t => .ok t
    | .error .beyond => .ok invalidTime
    | .error (.badCronexpr message) => .error message

end Zone

end MigangBot.CronSearch
