import MigangBot.Digits
import MigangBot.EorzeanWeather
import MigangBot.Lib.Words

namespace MigangBot.WeatherForecast

open Lib.Exceptions Lib.Maps Lib.Words Text Digits EorzeanWeather

section Code

def nextWeatherTime (date count : Int32) : Int32 :=
  let increment := (date + 1400 - date % 1400) % 4200
  let curTime := date % 4200
  let leftSec := if increment > curTime then increment - curTime else 4200 - curTime
  leftSec + 1400 * count

def getEorzeaHour (time : Int32) : Int32 := (time / 175) % 24

/-- One line of the forecast. -/
structure Entry where
  nextTime : Int64
  hour : Int32
  weather : Bytes

/-- The index is a size_t, so that the date of the weather is computed without a
sign; both dates are cut to an int where they are used. -/
def entryAt (s : Data) (location : Bytes) (date : Int64) (i : UInt64) : Text.Outcome Entry := do
  let nextDate := date.toUInt64 + 1400 * (i + 1)
  let futureWeather ← calWeather s nextDate.toUInt32.toInt32 location
  let nextTime := (nextWeatherTime date.toInt32 i.toUInt32.toInt32).toInt64 + date
  return ⟨nextTime, getEorzeaHour nextTime.toInt32, futureWeather⟩

def twoDigits (i : Int32) : Bytes :=
  if (decimalInt i.toInt).length < 2 then char '0' :: decimalInt i.toInt else decimalInt i.toInt

variable (timeText : Int64 → Bytes)

def Entry.text (e : Entry) : Bytes :=
  bytes "\nLT:" ++ (timeText e.nextTime ++ (bytes "  ET:" ++ (twoDigits e.hour ++ (bytes ":00 -> " ++ e.weather))))

def heading (location curWeather : Bytes) : Bytes :=
  bytes "[" ++ (location ++ (bytes "]\n当前天气: " ++ curWeather))

/-- GetEorzeanWeather at a time of the clock, which the library writes as month,
day and time of day. -/
def getEorzeanWeather (s : Data) (date : Int64) (location : Bytes) : Text.Outcome Bytes := do
  let location := (s.alterNameIdx.lookup location).getD location
  let curWeather ← calWeather s date.toInt32 location
  if curWeather = [] then return []
  else
    let entries ← (List.range 9).mapM fun i => entryAt s location date (UInt64.ofNat i)
    return heading location curWeather ++ entries.flatMap (Entry.text timeText)

end Code

section Windows

variable {date : Int32}

/-- The windows of 1400 seconds, numbered from the epoch. -/
def window (t : Int) : Int := t / 1400

def windowStart (n : Int) : Int := 1400 * n

theorem toInt_forcastTarget (date : Int32) :
    0 ≤ (forcastTarget date).toInt ∧ (forcastTarget date).toInt ≤ 99 := by
  have hlt (step2 : UInt32) : (step2 % 100).toNat < 100 := by
    rw [UInt32.toNat_mod]
    exact Nat.mod_lt _ (by decide)
  rw [forcastTarget, toInt_unsigned ((hlt _).trans (by decide))]
  exact ⟨Int.natCast_nonneg _, by exact_mod_cast Nat.lt_succ_iff.mp (hlt _)⟩

end Windows

section Entries

variable {date : Int64} {i : Nat}

/-- A line of the forecast says what the weather is when its window begins. -/
structure Aligned (s : Data) (location : Bytes) (date : Int) (i : Nat) (e : Entry) : Prop where
  time : e.nextTime.toInt = windowStart (window date + i + 1)
  weather : calWeather s e.nextTime.toInt32 location = .ok e.weather
  hour : e.hour = 0 ∨ e.hour = 8 ∨ e.hour = 16

/-- What a forecast shows: the present weather, and nine lines. -/
def Shows (timeText : Int64 → Bytes) (s : Data) (location : Bytes) (date : Int) (text : Bytes) : Prop :=
  ∃ (curWeather : Bytes) (entries : List Entry), text = heading location curWeather ++ entries.flatMap (Entry.text timeText) ∧
    entries.length = 9 ∧ ∀ (i : Nat) (e : Entry), entries[i]? = some e → Aligned s location date i e

end Entries

end MigangBot.WeatherForecast
