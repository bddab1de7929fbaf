import MigangBot.CronExactness
import Mathlib.Data.Nat.Find

namespace MigangBot.CronNext

open Lib.Calendar Text LocalTime Scheduling CronSearch CronStages CronExactness

section Days

variable {cex : CronExpr}

/-- Two days of one number are at least four weeks apart. -/
theorem apart_of_same_day {n n' : Int} (hlt : n < n') (h : dayOfMonth n' = dayOfMonth n) : n + 28 ≤ n' := by
  have hday := eq_monthStart_add n
  have hday' := eq_monthStart_add n'
  have hlength := lengthOfMonth_bounds (monthOf n)
  have hmono := monthOf_mono (Int.le_of_lt hlt)
  have hmonth : monthOf n < monthOf n' := by
    rcases Int.lt_or_eq_of_le hmono with hmonth | hmonth
    · exact hmonth
    · rw [← hmonth] at hday'
      omega
  have hnext : monthStart (monthOf n + 1) ≤ monthStart (monthOf n') := by
    by_contra hno
    have hback := monthStart_lt_iff.mp (Int.lt_of_not_ge hno)
    omega
  rw [monthStart_succ] at hnext
  omega

theorem dayOfWeek_bounds (n : Int) : 0 ≤ dayOfWeek n ∧ dayOfWeek n < 7 := by
  rw [dayOfWeek]
  omega

/-- The first allowed day from a day on, when there is one. -/
theorem first_day (cex : CronExpr) {n : Int} {k : Nat} (h : dayOk cex (n + k) = true) :
    ∃ k' ≤ k, dayOk cex (n + (k' : Nat)) = true ∧ ∀ j < k', dayOk cex (n + (j : Nat)) = false := by
  have hex : ∃ k : Nat, dayOk cex (n + k) = true := ⟨k, h⟩
  refine ⟨Nat.find hex, Nat.find_min' hex h, Nat.find_spec hex, fun j hj => ?_⟩
  simpa using Nat.find_min hex hj

/-- A day of a number that every long month has comes within three months. -/
theorem day_within (n : Int) {i : Nat} (hi : i < 31) : ∃ k : Nat, k ≤ 93 ∧ dayOfMonth (n + k) = i + 1 := by
  obtain ⟨k, hlow, hhigh, hlong⟩ : ∃ k, monthOf n + 1 ≤ k ∧ k ≤ monthOf n + 2 ∧ lengthOfMonth k = 31 := by
    rcases long_month (monthOf n + 1) with h | h
    · exact ⟨_, Int.le_refl _, by omega, h⟩
    · exact ⟨_, by omega, by omega, h⟩
  have hspec := monthOf_spec n
  have hsucc := monthStart_succ (monthOf n)
  have hsucc' := monthStart_succ (monthOf n + 1)
  have hlength := lengthOfMonth_bounds (monthOf n)
  have hlength' := lengthOfMonth_bounds (monthOf n + 1)
  have hstart : n < monthStart k ∧ monthStart k ≤ n + 62 := by
    rcases (by omega : k = monthOf n + 1 ∨ k = monthOf n + 1 + 1) with rfl | rfl <;> omega
  refine ⟨(monthStart k + (i + 1) - 1 - n).toNat, by omega, ?_⟩
  rw [show n + ((monthStart k + (i + 1) - 1 - n).toNat : Nat) = monthStart k + (i + 1) - 1 by omega]
  exact (named_day (by omega) (by omega)).2

theorem days_of_weekdays (hweek : ∀ i < 7, cex.daysOfWeek.getLsbD i = true)
    (hmonth : ∃ i, cex.daysOfMonth.getLsbD i = true) (n : Int) :
    ∃ k : Nat, k ≤ 366 ∧ dayOk cex (n + k) = true ∧ (∀ j < k, dayOk cex (n + (j : Nat)) = false) ∧
      (0 < k → dayOfMonth (n + k) ≠ dayOfMonth n) := by
  have hok (d : Int) : dayOk cex d = cex.daysOfMonth.getLsbD ((dayOfMonth d).toNat - cronMinDaysOfMonth) := by
    have hd := dayOfWeek_bounds d
    rw [dayOk, hweek _ (by rw [cronMinDaysOfWeek]; omega), Bool.and_true]
  obtain ⟨i, hi⟩ := hmonth
  obtain ⟨k, hk, hday⟩ := day_within n (BitVec.lt_of_getLsbD hi)
  obtain ⟨k', hk', hfound, hskipped⟩ := first_day cex (n := n) (k := k) (by
    rw [hok, hday, cronMinDaysOfMonth, show (((i : Int) + 1).toNat - 1) = i by omega]
    exact hi)
  refine ⟨k', by omega, hfound, hskipped, fun hpos hsame => ?_⟩
  have hno := hskipped 0 hpos
  rw [hok] at hno hfound
  rw [Int.natCast_zero, Int.add_zero, ← hsame, hfound] at hno
  cases hno

theorem days_of_monthdays (hmonth : ∀ i < 31, cex.daysOfMonth.getLsbD i = true)
    (hweek : ∃ i, cex.daysOfWeek.getLsbD i = true) (n : Int) :
    ∃ k : Nat, k ≤ 366 ∧ dayOk cex (n + k) = true ∧ (∀ j < k, dayOk cex (n + (j : Nat)) = false) ∧
      (0 < k → dayOfMonth (n + k) ≠ dayOfMonth n) := by
  have hok (d : Int) : dayOk cex d = cex.daysOfWeek.getLsbD ((dayOfWeek d).toNat - cronMinDaysOfWeek) := by
    have hlow := (dayOfMonth_bounds d).1
    have hhigh := dayOfMonth_le d
    rw [dayOk, hmonth _ (by rw [cronMinDaysOfMonth]; omega), Bool.true_and]
  obtain ⟨i, hi⟩ := hweek
  have hlt := BitVec.lt_of_getLsbD hi
  obtain ⟨k', hk', hfound, hskipped⟩ := first_day cex (n := n) (k := ((i - dayOfWeek n) % 7).toNat) (by
    have hday : dayOfWeek (n + ((i - dayOfWeek n) % 7).toNat) = i := by
      rw [dayOfWeek, dayOfWeek]
      omega
    rw [hok, hday, cronMinDaysOfWeek]
    exact hi)
  refine ⟨k', by omega, hfound, hskipped, fun hpos hsame => ?_⟩
  have hapart : n + 28 ≤ n + k' := apart_of_same_day (by omega) hsame
  omega

/-- Every field allows something, and one of the two day fields allows everything. -/
structure OneDayField (cex : CronExpr) : Prop where
  seconds : ∃ i, cex.seconds.getLsbD i = true
  minutes : ∃ i, cex.minutes.getLsbD i = true
  hours : ∃ i, cex.hours.getLsbD i = true
  months : ∃ i, cex.months.getLsbD i = true
  daysOfMonth : ∃ i, cex.daysOfMonth.getLsbD i = true
  daysOfWeek : ∃ i, cex.daysOfWeek.getLsbD i = true
  one : (∀ i < 31, cex.daysOfMonth.getLsbD i = true) ∨ ∀ i < 7, cex.daysOfWeek.getLsbD i = true

theorem OneDayField.searchable (h : OneDayField cex) : Searchable cex := by
  refine ⟨h.seconds, h.minutes, h.hours, h.months, fun n => ?_⟩
  rcases h.one with hmonth | hweek
  · exact days_of_monthdays hmonth h.daysOfWeek n
  · exact days_of_weekdays hweek h.daysOfMonth n

end Days

section Fuel

variable {cex : CronExpr}

theorem greatest_bit {n : Nat} {target : BitVec n} (h : ∃ i, target.getLsbD i = true) :
    ∃ i, target.getLsbD i = true ∧ ∀ j, target.getLsbD j = true → j ≤ i := by
  obtain ⟨i, hi⟩ := h
  have hle {j : Nat} (hj : target.getLsbD j = true) : j ≤ n := Nat.le_of_lt (BitVec.lt_of_getLsbD hj)
  exact ⟨Nat.findGreatest (fun j => target.getLsbD j = true) n,
    Nat.findGreatest_spec (P := fun j => target.getLsbD j = true) (hle hi) hi,
    fun j hj => Nat.le_findGreatest (hle hj) hj⟩

theorem monthStart_add_le (k : Int) (n : Nat) : monthStart (k + n) ≤ monthStart k + 31 * n := by
  induction n with
  | zero => simp
  | succ n ih =>
      have hlength := lengthOfMonth_bounds (k + n)
      rw [show k + (n + 1 : Nat) = k + n + 1 by omega, monthStart_succ]
      omega

/-- A search looks at most a year beyond the last year it may come to. -/
theorem horizon_exists (hs : Searchable cex) (dot : Int) : ∃ horizon, Horizon cex dot horizon ∧
    horizon < (monthStart ((dot + 1901 + cronMaxYearsDiff) * 12) + 367) * 86400 := by
  obtain ⟨k, hk, hday, _⟩ := hs.days (monthStart ((dot + 1901 + cronMaxYearsDiff) * 12))
  obtain ⟨hour, hhour⟩ := hs.hours
  obtain ⟨minute, hminute⟩ := hs.minutes
  obtain ⟨second, hsecond, hlast⟩ := greatest_bit hs.seconds
  have hhour' := BitVec.lt_of_getLsbD hhour
  have hminute' := BitVec.lt_of_getLsbD hminute
  have hsecond' := BitVec.lt_of_getLsbD hsecond
  generalize hwall : (monthStart ((dot + 1901 + cronMaxYearsDiff) * 12) + k) * 86400 + hour * 3600 + minute * 60 +
    second = wall
  have hs : Dial.second.value wall = second := by
    simp only [Dial.value, Dial.count, Dial.field, Dial.size, unit]
    omega
  have hm : Dial.minute.value wall = minute := by
    simp only [Dial.value, Dial.count, Dial.field, Dial.size, unit]
    omega
  have hh : Dial.hour.value wall = hour := by
    simp only [Dial.value, Dial.count, Dial.field, Dial.size, unit]
    omega
  have hd : wall / 86400 = monthStart ((dot + 1901 + cronMaxYearsDiff) * 12) + k := by omega
  refine ⟨wall, ⟨⟨?_, ?_, ?_, ?_⟩, fun i hi => ?_, by omega⟩, by omega⟩
  · rw [secondOk, hs]
    exact hsecond
  · rw [minuteOk, hm]
    exact hminute
  · rw [hourOk, hh]
    exact hhour
  · rw [hd]
    exact hday
  · rw [hs]
    exact hlast i hi

/-- The seconds of five years and another, and of their longest months. -/
@[irreducible] def searchFuel : Nat := (60 * 31 + 367) * 86400

theorem searchFuel_pos : 0 < searchFuel := by
  rw [searchFuel]
  decide

theorem findNext_spec (hs : Searchable cex) {utcOffset wall : Int} (hoff : utcOffset ≤ wall) {fuel : Nat}
    (hfuel : searchFuel ≤ fuel) :
    Outcome cex (brokenDown wall).tmYear wall (fun m => Settled cex wall ∧ wall ≤ m ∧ Reachable cex m)
      (findNext utcOffset cex (brokenDown wall).tmYear fuel (brokenDown wall)) := by
  obtain ⟨horizon, hhorizon, hlt⟩ := horizon_exists hs (brokenDown wall).tmYear
  have hyears := hhorizon.years
  have hmonth := (monthOf_spec (wall / 86400)).1
  have hspan := monthStart_add_le (monthOf (wall / 86400) / 12 * 12) 60
  have hfirst : monthStart (monthOf (wall / 86400) / 12 * 12) ≤ monthStart (monthOf (wall / 86400)) := by
    by_contra hno
    have hback := monthStart_lt_iff.mp (Int.lt_of_not_ge hno)
    omega
  have hlast : monthStart (monthOf (wall / 86400) + 1) ≤
      monthStart (((brokenDown wall).tmYear + 1901 + cronMaxYearsDiff) * 12) := by
    by_contra hno
    have hback := monthStart_lt_iff.mp (Int.lt_of_not_ge hno)
    rw [brokenDown_tmYear, cronMaxYearsDiff] at hback
    omega
  have hnext := (monthOf_spec (wall / 86400)).2
  have hsame : ((brokenDown wall).tmYear + 1901 + cronMaxYearsDiff) * 12 =
      monthOf (wall / 86400) / 12 * 12 + (60 : Nat) := by
    rw [brokenDown_tmYear, cronMaxYearsDiff]
    omega
  rw [hsame] at hyears hlt hlast
  refine findNext_outcome hs hhorizon hoff (by omega) ?_
  rw [searchFuel] at hfuel
  omega

end Fuel

section Next

variable {utcOffset : Int} {cex : CronExpr} {t : Int} {fuel : Nat}

theorem findNext_matching {wall dot : Int} (h : Matching cex wall) (hfuel : 0 < fuel) :
    findNext utcOffset cex dot fuel (brokenDown wall) = pure (brokenDown wall) := by
  obtain ⟨fuel, rfl⟩ : ∃ n, fuel = n + 1 := ⟨fuel - 1, by omega⟩
  rw [findNext_succ, tmSec_toNat, second_stay utcOffset emptyList h.second, pure_bind]
  exact fromMinute_matching h

/-- A second after a match is in no gap, or in the minute of the match. -/
theorem settled_succ {wall : Int} (h : Matching cex wall) : Settled cex (wall + 1) := by
  intro hbetween
  obtain ⟨_, ⟨i, hi, _⟩, _⟩ := hbetween
  have hvalue := second_value (wall + 1)
  have hsame : (wall + 1) / 60 = wall / 60 := by omega
  obtain ⟨hminute, hhour, hday, hmonth⟩ := rest_of_same_minute cex hsame
  exact ⟨hminute.mpr h.minute, hhour.mpr h.hour, hday.trans h.day, hmonth.mpr h.month⟩

/-- An instant from which nothing is missed: a match, or a settled one. -/
def Clear (utcOffset : Int) (cex : CronExpr) (t : Int) : Prop :=
  Matching cex (t + utcOffset) ∨ Settled cex (t + utcOffset)

def yearOf (utcOffset t : Int) : Int := (localtime utcOffset t).tmYear

/-- What cron_next comes to. -/
inductive Next (utcOffset : Int) (cex : CronExpr) (t r : Int) : Prop
  | found (later : t < r) (matching : Matching cex (r + utcOffset))
      (first : Clear utcOffset cex t → ∀ m, t < m → Reachable cex (m + utcOffset) → r ≤ m)
  | none (invalid : r = invalidTime) (restricted : ∃ i < 12, cex.months.getLsbD i = false)
      (none : Clear utcOffset cex t → ∀ m, t < m → Reachable cex (m + utcOffset) →
        yearOf utcOffset t + cronMaxYearsDiff < yearOf utcOffset m)

theorem valid_of_nonneg (ht : 0 ≤ t) : t ≠ invalidTime := by
  rw [invalidTime]
  omega

theorem cronSearch_found (ht : 0 ≤ t) {r : Int} (hr : t + utcOffset ≤ r)
    (heq : findNext utcOffset cex (brokenDown (t + utcOffset)).tmYear fuel (brokenDown (t + utcOffset)) =
      pure (brokenDown r)) :
    cronSearch utcOffset fuel cex t =
      if r = t + utcOffset then
        findNext utcOffset cex (brokenDown (r + 1)).tmYear fuel (brokenDown (r + 1)) >>= fun dt =>
          pure (mktime utcOffset dt).1
      else pure (r - utcOffset) := by
  have hback : mktime utcOffset (brokenDown r) = (r - utcOffset, brokenDown r) := by
    rw [mktime, wallClock_brokenDown]
  have hnext : addToField utcOffset (brokenDown r) .second 1 = pure (brokenDown (r + 1)) := by
    refine normalise_eq ?_ (by omega)
    rw [wallClock_add _ _ (by decide) (by decide), wallClock_brokenDown, unit, Int.one_mul]
  rw [cronSearch, mktime_localtime]
  dsimp only
  rw [if_neg (valid_of_nonneg ht), localtime, heq, pure_bind, hback]
  dsimp only
  rw [if_neg (valid_of_nonneg (by omega))]
  by_cases hsame : r = t + utcOffset
  · rw [if_pos (by omega), if_pos hsame, hnext, pure_bind]
  · rw [if_neg (by omega), if_neg hsame, hback]

theorem cronSearch_beyond (ht : 0 ≤ t)
    (heq : findNext utcOffset cex (brokenDown (t + utcOffset)).tmYear fuel (brokenDown (t + utcOffset)) =
      throw .beyond) : cronSearch utcOffset fuel cex t = throw .beyond := by
  rw [cronSearch, mktime_localtime]
  dsimp only
  rw [if_neg (valid_of_nonneg ht), localtime, heq]
  rfl

theorem cronNext_of_found {r : Int} (h : cronSearch utcOffset fuel cex t = pure r) :
    cronNext utcOffset fuel cex t = some (.ok r) := by
  rw [cronNext, h]
  rfl

theorem cronNext_of_beyond (h : cronSearch utcOffset fuel cex t = throw .beyond) :
    cronNext utcOffset fuel cex t = some (.ok invalidTime) := by
  rw [cronNext, h]
  rfl

/-- From a match the search is made again, a second later. -/
theorem cronNext_from_match (hs : Searchable cex) (ht : 0 ≤ t) (hfuel : searchFuel ≤ fuel)
    (hmatching : Matching cex (t + utcOffset)) :
    ∃ r, cronNext utcOffset fuel cex t = some (.ok r) ∧ Next utcOffset cex t r := by
  have hstart := cronSearch_found ht (Int.le_refl (t + utcOffset))
    (findNext_matching hmatching (Nat.lt_of_lt_of_le searchFuel_pos hfuel))
  have hsettled := settled_succ hmatching
  rw [if_pos rfl] at hstart
  cases findNext_spec hs (show utcOffset ≤ t + utcOffset + 1 by omega) hfuel with
  | @found r heq later matching first =>
      rw [heq, pure_bind, mktime, wallClock_brokenDown] at hstart
      refine ⟨r - utcOffset, cronNext_of_found hstart, .found (by omega) ?_ fun _ m hm hreach => ?_⟩
      · rw [Int.sub_add_cancel]
        exact matching
      · have hle := first (m + utcOffset) ⟨hsettled, by omega, hreach⟩
        omega
  | beyond heq none restricted =>
      rw [heq] at hstart
      refine ⟨invalidTime, cronNext_of_beyond hstart, .none rfl restricted fun _ m hm hreach => ?_⟩
      have hyear := none (m + utcOffset) ⟨hsettled, by omega, hreach⟩
      have hmono : (brokenDown (t + utcOffset)).tmYear ≤ (brokenDown (t + utcOffset + 1)).tmYear := by
        have hmonths : monthOf ((t + utcOffset) / 86400) ≤ monthOf ((t + utcOffset + 1) / 86400) :=
          monthOf_mono (by omega)
        rw [brokenDown_tmYear, brokenDown_tmYear]
        omega
      exact Int.lt_of_le_of_lt (Int.add_le_add_right hmono _) hyear

theorem cronNext_spec (hs : Searchable cex) (ht : 0 ≤ t) (hfuel : searchFuel ≤ fuel) :
    ∃ r, cronNext utcOffset fuel cex t = some (.ok r) ∧ Next utcOffset cex t r := by
  by_cases hmatching : Matching cex (t + utcOffset)
  · exact cronNext_from_match hs ht hfuel hmatching
  have hsettled (hclear : Clear utcOffset cex t) : Settled cex (t + utcOffset) := hclear.resolve_left hmatching
  cases findNext_spec hs (Int.le_add_of_nonneg_left ht : utcOffset ≤ t + utcOffset) hfuel with
  | @found r heq later matching first =>
      have hne : r ≠ t + utcOffset := by
        rintro rfl
        exact hmatching matching
      have hstart := cronSearch_found ht later heq
      rw [if_neg hne] at hstart
      refine ⟨r - utcOffset, cronNext_of_found hstart, .found (by omega) ?_ fun hclear m hm hreach => ?_⟩
      · rw [Int.sub_add_cancel]
        exact matching
      · have hle := first (m + utcOffset) ⟨hsettled hclear, by omega, hreach⟩
        omega
  | beyond heq none restricted =>
      refine ⟨invalidTime, cronNext_of_beyond (cronSearch_beyond ht heq), .none rfl restricted
        fun hclear m hm hreach => ?_⟩
      exact none (m + utcOffset) ⟨hsettled hclear, by omega, hreach⟩

end Next

section Results

variable {utcOffset : Int} {cex : CronExpr} {t : Int} {fuel : Nat}

/-- The search ends, throws nothing, and comes to a later match or to the invalid
time; the latter only where not every month is allowed. -/
theorem cronNext_returns (hs : Searchable cex) (ht : 0 ≤ t) (hfuel : searchFuel ≤ fuel) :
    ∃ r, cronNext utcOffset fuel cex t = some (.ok r) ∧
      ((t < r ∧ Matching cex (r + utcOffset)) ∨
        (r = invalidTime ∧ ∃ i < 12, cex.months.getLsbD i = false)) := by
  obtain ⟨r, heq, hnext⟩ := cronNext_spec hs ht hfuel
  refine ⟨r, heq, ?_⟩
  cases hnext with
  | found later matching _ => exact .inl ⟨later, matching⟩
  | none invalid restricted _ => exact .inr ⟨invalid, restricted⟩

/-- No match is gone past but those in months that are too short for an allowed
day, and the invalid time tells that the next four calendar years have none. -/
theorem cronNext_earliest (hs : Searchable cex) (ht : 0 ≤ t) (hfuel : searchFuel ≤ fuel)
    (hclear : Clear utcOffset cex t) {r : Int} (h : cronNext utcOffset fuel cex t = some (.ok r)) {m : Int}
    (hm : t < m) (hreach : Reachable cex (m + utcOffset)) :
    (r ≠ invalidTime ∧ r ≤ m) ∨
      (r = invalidTime ∧ yearOf utcOffset t + cronMaxYearsDiff < yearOf utcOffset m) := by
  obtain ⟨r', heq, hnext⟩ := cronNext_spec hs ht hfuel
  cases heq.symm.trans h
  cases hnext with
  | found later _ first => exact .inl ⟨valid_of_nonneg (by omega), first hclear m hm hreach⟩
  | none invalid _ none => exact .inr ⟨invalid, none hclear m hm hreach⟩

end Results

section Daily

/-- Eight minutes past eight, every day. -/
def daily : CronExpr := ⟨1, 256, 256, 127, 2147483647, 4095, bytes "8 8 * * *"⟩

theorem daily_oneDayField : OneDayField daily :=
  ⟨⟨0, by decide⟩, ⟨8, by decide⟩, ⟨8, by decide⟩, ⟨0, by decide⟩, ⟨0, by decide⟩, ⟨0, by decide⟩, .inr (by decide)⟩

theorem cronNext_returns_daily : ∃ r, cronNext 28800 searchFuel daily 1700000000 = some (.ok r) ∧
    ((1700000000 < r ∧ Matching daily (r + 28800)) ∨
      (r = invalidTime ∧ ∃ i < 12, daily.months.getLsbD i = false)) :=
  cronNext_returns daily_oneDayField.searchable (by decide) (Nat.le_refl searchFuel)

/-- The search from that instant does not go past the next day's eight minutes past
eight. -/
theorem cronNext_earliest_daily : ∃ r, cronNext 28800 searchFuel daily 1700000000 = some (.ok r) ∧
    ((r ≠ invalidTime ∧ r ≤ 1700006880) ∨
      (r = invalidTime ∧ yearOf 28800 1700000000 + cronMaxYearsDiff < yearOf 28800 1700006880)) := by
  obtain ⟨r, h, _⟩ : ∃ r, cronNext 28800 searchFuel daily 1700000000 = some (.ok r) ∧ Next 28800 daily 1700000000 r :=
    cronNext_spec daily_oneDayField.searchable (by decide) (Nat.le_refl searchFuel)
  refine ⟨r, h, cronNext_earliest daily_oneDayField.searchable (by decide) (Nat.le_refl searchFuel)
    (.inr fun hgap => ?_) h (by decide) ⟨⟨⟨by decide, by decide, by decide, by decide⟩, by decide⟩, .inl (by decide)⟩⟩
  obtain ⟨_, _, i, hi, hbit⟩ := hgap
  have hnone : ∀ i < 60, Dial.second.value (1700000000 + 28800) < i → daily.seconds.getLsbD i = false := by decide
  rw [hnone i (BitVec.lt_of_getLsbD hbit) hi] at hbit
  cases hbit

end Daily

end MigangBot.CronNext
