import Mathlib.Order.Monotone.Basic
import Mathlib.Data.Int.Order.Basic

namespace MigangBot.Lib.Calendar

section Marks

variable (mark : Int → Int)

/-- The last mark at or below a place, looked for upwards from one below it. -/
def climb (place : Int) : Nat → Int → Int
  | 0, k => k
  | n + 1, k => if place < mark (k + 1) then k else climb place n (k + 1)

variable {mark}

theorem climb_spec {place : Int} {n : Nat} {k : Int} (hlow : mark k ≤ place) (hhigh : place < mark (k + n + 1)) :
    mark (climb mark place n k) ≤ place ∧ place < mark (climb mark place n k + 1) := by
  induction n generalizing k with
  | zero =>
      rw [Int.natCast_zero, Int.add_zero] at hhigh
      exact ⟨hlow, hhigh⟩
  | succ n ih =>
      rw [climb]
      split
      · next h => exact ⟨hlow, h⟩
      · next h =>
          refine ih (Int.not_lt.mp h) ?_
          rwa [show k + 1 + n + 1 = k + (n + 1 : Nat) + 1 by omega]

theorem mark_lt_iff (hmark : ∀ k, mark k < mark (k + 1)) {j k : Int} : mark j < mark k ↔ j < k :=
  (strictMono_int_of_lt_succ hmark).lt_iff_lt

theorem mark_unique (hmark : ∀ k, mark k < mark (k + 1)) {place j k : Int}
    (hj : mark j ≤ place ∧ place < mark (j + 1)) (hk : mark k ≤ place ∧ place < mark (k + 1)) : j = k := by
  have hjk : j < k + 1 := (mark_lt_iff hmark).mp (Int.lt_of_le_of_lt hj.1 hk.2)
  have hkj : k < j + 1 := (mark_lt_iff hmark).mp (Int.lt_of_le_of_lt hk.1 hj.2)
  omega

end Marks

section Gregorian

def isLeap (y : Int) : Bool := y % 4 == 0 && (y % 100 != 0 || y % 400 == 0)

/-- The days from the first of January of the year 1 on. -/
def daysBeforeYear (y : Int) : Int := 365 * (y - 1) + (y - 1) / 4 - (y - 1) / 100 + (y - 1) / 400

/-- Months of a year are numbered from 0. -/
def monthLength (leap : Bool) : Nat → Int
  | 1 => if leap then 29 else 28
  | 3 | 5 | 8 | 10 => 30
  | _ => 31

def daysBeforeMonth (leap : Bool) : Nat → Int
  | 0 => 0
  | m + 1 => daysBeforeMonth leap m + monthLength leap m

/-- The day number of 1970-01-01 in the count from the year 1. -/
def epochDay : Int := 719162

/-- Months are counted from January of the year 0 without regard to years, days
from 1970-01-01. -/
def monthStart (k : Int) : Int :=
  daysBeforeYear (k / 12) + daysBeforeMonth (isLeap (k / 12)) (k % 12).toNat - epochDay

def lengthOfMonth (k : Int) : Int := monthLength (isLeap (k / 12)) (k % 12).toNat

/-- 4800 months are 146097 days. -/
def monthOf (n : Int) : Int := climb monthStart n 2 (((n + epochDay) * 4800) / 146097 + 11)

def dayOfMonth (n : Int) : Int := n - monthStart (monthOf n) + 1

/-- Sunday is 0, and 1970-01-01 was a Thursday. -/
def dayOfWeek (n : Int) : Int := (n + 4) % 7

theorem daysBeforeYear_succ (y : Int) :
    daysBeforeYear (y + 1) = daysBeforeYear y + 365 + (if isLeap y then 1 else 0) := by
  simp only [daysBeforeYear, isLeap, Bool.and_eq_true, Bool.or_eq_true, beq_iff_eq, bne_iff_ne]
  split <;> omega

theorem daysBeforeMonth_year (leap : Bool) : daysBeforeMonth leap 12 = 365 + (if leap then 1 else 0) := by
  cases leap <;> decide

theorem daysBeforeMonth_last (leap : Bool) :
    daysBeforeMonth leap 11 + monthLength leap 11 = 365 + (if leap then 1 else 0) := daysBeforeMonth_year leap

theorem monthStart_succ (k : Int) : monthStart (k + 1) = monthStart k + lengthOfMonth k := by
  rw [monthStart, monthStart, lengthOfMonth]
  by_cases hlast : k % 12 = 11
  · have hyear : (k + 1) / 12 = k / 12 + 1 := by omega
    have hmonth : (k + 1) % 12 = 0 := by omega
    have hall := daysBeforeMonth_last (isLeap (k / 12))
    rw [hyear, hmonth, hlast, daysBeforeYear_succ, Int.toNat_zero, daysBeforeMonth, show (11 : Int).toNat = 11 from rfl]
    omega
  · have hyear : (k + 1) / 12 = k / 12 := by omega
    have hmonth : ((k + 1) % 12).toNat = (k % 12).toNat + 1 := by omega
    rw [hyear, hmonth, daysBeforeMonth]
    omega

theorem lengthOfMonth_bounds (k : Int) : 28 ≤ lengthOfMonth k ∧ lengthOfMonth k ≤ 31 := by
  rw [lengthOfMonth]
  unfold monthLength
  split
  · split <;> omega
  all_goals omega

theorem monthStart_lt_succ (k : Int) : monthStart k < monthStart (k + 1) := by
  have hlength := lengthOfMonth_bounds k
  rw [monthStart_succ]
  omega

theorem monthStart_lt_iff {j k : Int} : monthStart j < monthStart k ↔ j < k := mark_lt_iff monthStart_lt_succ

/-- Every second month at least has 31 days. -/
theorem long_month (k : Int) : lengthOfMonth k = 31 ∨ lengthOfMonth (k + 1) = 31 := by
  have hshort {j : Int} (h : lengthOfMonth j ≠ 31) :
      j % 12 = 1 ∨ j % 12 = 3 ∨ j % 12 = 5 ∨ j % 12 = 8 ∨ j % 12 = 10 := by
    rw [lengthOfMonth] at h
    unfold monthLength at h
    split at h <;> omega
  by_contra hno
  rw [not_or] at hno
  have hk := hshort hno.1
  have hk' := hshort hno.2
  omega

theorem daysBeforeMonth_bounds : ∀ leap, ∀ m : Nat, m < 12 →
    30 * (m : Int) - 1 ≤ daysBeforeMonth leap m ∧ daysBeforeMonth leap m ≤ 31 * m := by decide

theorem monthStart_bounds (k : Int) : 146097 * (k - 13) ≤ 4800 * (monthStart k + epochDay) ∧
    4800 * (monthStart k + epochDay) ≤ 146097 * (k - 11) := by
  obtain ⟨hlow, hhigh⟩ := daysBeforeMonth_bounds (isLeap (k / 12)) (k % 12).toNat (by omega)
  rw [monthStart, daysBeforeYear]
  constructor <;> omega

theorem monthOf_spec (n : Int) : monthStart (monthOf n) ≤ n ∧ n < monthStart (monthOf n + 1) := by
  rw [monthOf]
  generalize he : (n + epochDay) * 4800 / 146097 + 11 = e
  refine climb_spec ?_ ?_
  · have hhigh := (monthStart_bounds e).2
    omega
  · have hlow := (monthStart_bounds (e + 3)).1
    rw [show e + (2 : Nat) + 1 = e + 3 by omega]
    omega

theorem monthOf_eq {n k : Int} (h : monthStart k ≤ n ∧ n < monthStart (k + 1)) : monthOf n = k :=
  mark_unique monthStart_lt_succ (monthOf_spec n) h

theorem monthOf_mono {n n' : Int} (h : n ≤ n') : monthOf n ≤ monthOf n' := by
  have hlow := (monthOf_spec n).1
  have hhigh := (monthOf_spec n').2
  have hlt := monthStart_lt_iff.mp (Int.lt_of_le_of_lt (Int.le_trans hlow h) hhigh)
  omega

theorem dayOfMonth_bounds (n : Int) : 1 ≤ dayOfMonth n ∧ dayOfMonth n ≤ lengthOfMonth (monthOf n) := by
  have h := monthOf_spec n
  rw [monthStart_succ] at h
  rw [dayOfMonth]
  omega

theorem eq_monthStart_add (n : Int) : n = monthStart (monthOf n) + dayOfMonth n - 1 := by
  rw [dayOfMonth]
  omega

/-- A month and a day of it name one day. -/
theorem named_day {k d : Int} (hlow : 1 ≤ d) (hhigh : d ≤ lengthOfMonth k) :
    monthOf (monthStart k + d - 1) = k ∧ dayOfMonth (monthStart k + d - 1) = d := by
  have hmonth : monthOf (monthStart k + d - 1) = k := by
    refine monthOf_eq ⟨by omega, ?_⟩
    rw [monthStart_succ]
    omega
  rw [dayOfMonth, hmonth]
  exact ⟨rfl, by omega⟩

/-- A day past the end of its month is a day of the next one. -/
theorem overlong_day {k d : Int} (hlow : lengthOfMonth k < d) (hhigh : d ≤ 31) :
    monthOf (monthStart k + d - 1) = k + 1 := by
  have hlength := lengthOfMonth_bounds k
  have hnext := lengthOfMonth_bounds (k + 1)
  have hsucc := monthStart_succ k
  refine monthOf_eq ⟨by omega, ?_⟩
  rw [monthStart_succ, monthStart_succ]
  omega

example : monthOf 19782 = 12 * 2024 + 1 ∧ dayOfMonth 19782 = 29 ∧ dayOfWeek 19782 = 4 := by decide

end Gregorian

end MigangBot.Lib.Calendar
