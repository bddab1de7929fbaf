import MigangBot.Lib.Calendar

namespace MigangBot.LocalTime

open Lib.Calendar

/-- The fields of std::tm that the program reads; years count from 1900 and
months from 0. -/
structure Tm where
  tmSec : Int
  tmMin : Int
  tmHour : Int
  tmMday : Int
  tmMon : Int
  tmYear : Int
  tmWday : Int
  deriving DecidableEq

/-- What a clock on the wall shows, in the seconds it counts from 1970-01-01. -/
def brokenDown (wall : Int) : Tm where
  tmSec := wall % 60
  tmMin := wall / 60 % 60
  tmHour := wall / 3600 % 24
  tmMday := dayOfMonth (wall / 86400)
  tmMon := monthOf (wall / 86400) % 12
  tmYear := monthOf (wall / 86400) / 12 - 1900
  tmWday := dayOfWeek (wall / 86400)

/-- Every field may lie outside its range, and the weekday is not looked at. -/
def wallClock (date : Tm) : Int :=
  (monthStart ((date.tmYear + 1900) * 12 + date.tmMon) + date.tmMday - 1) * 86400 + date.tmHour * 3600 +
    date.tmMin * 60 + date.tmSec

section Zone

-- The zone has one offset from UTC all year round, and no daylight saving time.
variable (utcOffset : Int)

def localtime (t : Int) : Tm := brokenDown (t + utcOffset)

/-- std::mktime, with the fields it leaves in its argument. -/
def mktime (date : Tm) : Int × Tm := (wallClock date - utcOffset, brokenDown (wallClock date))

end Zone

section Fields

variable (wall : Int)

@[simp] theorem brokenDown_tmSec : (brokenDown wall).tmSec = wall % 60 := rfl

@[simp] theorem brokenDown_tmMin : (brokenDown wall).tmMin = wall / 60 % 60 := rfl

@[simp] theorem brokenDown_tmHour : (brokenDown wall).tmHour = wall / 3600 % 24 := rfl

@[simp] theorem brokenDown_tmMday : (brokenDown wall).tmMday = dayOfMonth (wall / 86400) := rfl

@[simp] theorem brokenDown_tmMon : (brokenDown wall).tmMon = monthOf (wall / 86400) % 12 := rfl

@[simp] theorem brokenDown_tmYear : (brokenDown wall).tmYear = monthOf (wall / 86400) / 12 - 1900 := rfl

@[simp] theorem brokenDown_tmWday : (brokenDown wall).tmWday = dayOfWeek (wall / 86400) := rfl

theorem split_wall : wall = wall / 86400 * 86400 + wall / 3600 % 24 * 3600 + wall / 60 % 60 * 60 + wall % 60 := by
  omega

theorem month_of_fields : (monthOf (wall / 86400) / 12 - 1900 + 1900) * 12 + monthOf (wall / 86400) % 12 =
    monthOf (wall / 86400) := by omega

@[simp] theorem wallClock_brokenDown : wallClock (brokenDown wall) = wall := by
  have hday := eq_monthStart_add (wall / 86400)
  rw [wallClock]
  simp only [brokenDown_tmYear, brokenDown_tmMon, brokenDown_tmMday, brokenDown_tmHour, brokenDown_tmMin,
    brokenDown_tmSec, month_of_fields]
  rw [← hday]
  exact (split_wall wall).symm

theorem mktime_localtime (utcOffset t : Int) : mktime utcOffset (localtime utcOffset t) = (t, localtime utcOffset t) := by
  rw [mktime, localtime, wallClock_brokenDown, Int.add_sub_cancel]

end Fields

example : wallClock ⟨0, 0, 0, 31, 1, 124, 0⟩ = wallClock ⟨0, 0, 0, 2, 2, 124, 0⟩ := by decide

end MigangBot.LocalTime
