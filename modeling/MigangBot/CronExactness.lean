import MigangBot.CronStages

namespace MigangBot.CronExactness

open Lib.Calendar Text LocalTime Scheduling CronSearch CronStages

section Matches

variable (cex : CronExpr) (wall : Int)

def secondOk : Prop := cex.seconds.getLsbD (Dial.second.value wall) = true

def minuteOk : Prop := cex.minutes.getLsbD (Dial.minute.value wall) = true

def hourOk : Prop := cex.hours.getLsbD (Dial.hour.value wall) = true

def monthOk : Prop := cex.months.getLsbD (monthValue wall) = true

instance : Decidable (secondOk cex wall) := inferInstanceAs (Decidable (_ = true))

instance : Decidable (minuteOk cex wall) := inferInstanceAs (Decidable (_ = true))

instance : Decidable (hourOk cex wall) := inferInstanceAs (Decidable (_ = true))

instance : Decidable (monthOk cex wall) := inferInstanceAs (Decidable (_ = true))

/-- Both day fields have to allow the day. -/
structure Timely : Prop where
  second : secondOk cex wall
  minute : minuteOk cex wall
  hour : hourOk cex wall
  day : dayOk cex (wall / 86400) = true

structure Matching : Prop extends Timely cex wall where
  month : monthOk cex wall

/-- No search goes past these: the month field allows every month, or the month
has all the days that the day field allows. -/
def Reachable : Prop := Matching cex wall ∧
  ((∀ i < 12, cex.months.getLsbD i = true) ∨
    ∀ i, cex.daysOfMonth.getLsbD i = true → (i : Int) + 1 ≤ lengthOfMonth (monthNumber wall))

/-- The second is in a gap between two allowed ones. -/
def BetweenSeconds : Prop := cex.seconds.getLsbD (Dial.second.value wall) = false ∧
  (∃ i < Dial.second.value wall, cex.seconds.getLsbD i = true) ∧
  ∃ i, Dial.second.value wall < i ∧ cex.seconds.getLsbD i = true

/-- Where the search can start and miss nothing: not in a gap between seconds,
unless the minute is one that is allowed. -/
def Settled : Prop := BetweenSeconds cex wall →
  minuteOk cex wall ∧ hourOk cex wall ∧ dayOk cex (wall / 86400) = true ∧ monthOk cex wall

end Matches

/-- Every field allows something, and from every day the next allowed one is at
most 366 days off and has another number in its month. -/
structure Searchable (cex : CronExpr) : Prop where
  seconds : ∃ i, cex.seconds.getLsbD i = true
  minutes : ∃ i, cex.minutes.getLsbD i = true
  hours : ∃ i, cex.hours.getLsbD i = true
  months : ∃ i, cex.months.getLsbD i = true
  days : ∀ n : Int, ∃ k : Nat, k ≤ 366 ∧ dayOk cex (n + k) = true ∧ (∀ j < k, dayOk cex (n + (j : Nat)) = false) ∧
    (0 < k → dayOfMonth (n + k) ≠ dayOfMonth n)

/-- A search returned: a match that comes before all of those looked for, or word
that none of these is in the years it may look at. -/
inductive Outcome (cex : CronExpr) (dot lower : Int) (Q : Int → Prop) (x : Search Tm) : Prop
  | found {r : Int} (heq : x = pure (brokenDown r)) (later : lower ≤ r) (matching : Matching cex r)
      (first : ∀ m, Q m → r ≤ m)
  | beyond (heq : x = throw .beyond) (none : ∀ m, Q m → dot + cronMaxYearsDiff < monthNumber m / 12 - 1900)
      (restricted : ∃ i < 12, cex.months.getLsbD i = false)

theorem Outcome.mono {cex : CronExpr} {dot lower lower' : Int} {Q Q' : Int → Prop} {x : Search Tm}
    (h : Outcome cex dot lower' Q' x) (hlower : lower ≤ lower') (hQ : ∀ m, Q m → Q' m) :
    Outcome cex dot lower Q x := by
  cases h with
  | found heq later matching first =>
      exact .found heq (Int.le_trans hlower later) matching fun m hm => first m (hQ m hm)
  | beyond heq none restricted => exact .beyond heq (fun m hm => none m (hQ m hm)) restricted

section Fields

variable (wall : Int)

theorem tmSec_toNat : (brokenDown wall).tmSec.toNat = Dial.second.value wall := by
  rw [brokenDown_tmSec, Dial.value, Dial.count, Dial.field, unit, Int.ediv_one]
  rfl

theorem tmMin_toNat : (brokenDown wall).tmMin.toNat = Dial.minute.value wall := rfl

theorem tmHour_toNat : (brokenDown wall).tmHour.toNat = Dial.hour.value wall := rfl

theorem tmMon_toNat : (brokenDown wall).tmMon.toNat = monthValue wall := rfl

end Fields

section Stages

variable (utcOffset : Int) (cex : CronExpr) (dot : Int) (again : Tm → Search Tm)

/-- The stages of find_next from the months, the days, the hours and the minutes on. -/
def fromMonth (p : MarkedFields × Tm) : Search Tm := do
  let (updatedMonth, date) ←
    findNextValue utcOffset cex.months p.2 p.2.tmMon.toNat .month .year p.1
  if some p.2.tmMon.toNat = updatedMonth then return date
  else if date.tmYear - dot > cronMaxYearsDiff then throw .beyond
  else again date

def fromDay (p : MarkedFields × Tm) : Search Tm := do
  let (updatedDayOfMonth, date) ←
    findNextDay utcOffset cex p.1 366 p.2 p.2.tmMday.toNat p.2.tmWday.toNat
  let p ← markOrAgain again (p.2.tmMday.toNat = updatedDayOfMonth) p.1 .dayOfMonth date
  fromMonth utcOffset cex dot again p

def fromHour (p : MarkedFields × Tm) : Search Tm := do
  let (updatedHour, date) ←
    findNextValue utcOffset cex.hours p.2 p.2.tmHour.toNat .hourOfDay .dayOfWeek p.1
  let p ← markOrAgain again (some p.2.tmHour.toNat = updatedHour) p.1 .hourOfDay date
  fromDay utcOffset cex dot again p

def fromMinute (p : MarkedFields × Tm) : Search Tm := do
  let (updateMinute, date) ←
    findNextValue utcOffset cex.minutes p.2 p.2.tmMin.toNat .minute .hourOfDay p.1
  let p ← markOrAgain again (some p.2.tmMin.toNat = updateMinute) p.1 .minute date
  fromHour utcOffset cex dot again p

theorem findNext_succ (fuel : Nat) (date : Tm) :
    findNext utcOffset cex dot (fuel + 1) date =
      (findNextValue utcOffset cex.seconds date date.tmSec.toNat .second .minute emptyList >>= fun x =>
        fromMinute utcOffset cex dot (findNext utcOffset cex dot fuel)
          (if some date.tmSec.toNat = x.1 then markField emptyList .second else emptyList, x.2)) := rfl

variable {utcOffset cex dot again} {marked : MarkedFields} {wall : Int}

theorem fromMonth_stay (h : monthOk cex wall) :
    fromMonth utcOffset cex dot again (marked, brokenDown wall) = pure (brokenDown wall) := by
  rw [fromMonth]
  dsimp only
  rw [tmMon_toNat, monthStay h, pure_bind]
  exact if_pos rfl

theorem fromDay_stay (h : dayOk cex (wall / 86400) = true) :
    fromDay utcOffset cex dot again (marked, brokenDown wall) =
      fromMonth utcOffset cex dot again (markField marked .dayOfMonth, brokenDown wall) := by
  rw [fromDay]
  dsimp only
  rw [brokenDown_tmMday, brokenDown_tmWday, findNextDay_stay h, pure_bind]
  dsimp only
  rw [markOrAgain, decide_eq_true rfl, if_pos rfl, pure_bind]

theorem fromHour_stay (h : hourOk cex wall) :
    fromHour utcOffset cex dot again (marked, brokenDown wall) =
      fromDay utcOffset cex dot again (markField marked .hourOfDay, brokenDown wall) := by
  rw [fromHour]
  dsimp only
  rw [tmHour_toNat, hour_stay utcOffset marked h, pure_bind]
  dsimp only
  rw [markOrAgain, decide_eq_true rfl, if_pos rfl, pure_bind]

theorem fromMinute_stay (h : minuteOk cex wall) :
    fromMinute utcOffset cex dot again (marked, brokenDown wall) =
      fromHour utcOffset cex dot again (markField marked .minute, brokenDown wall) := by
  rw [fromMinute]
  dsimp only
  rw [tmMin_toNat, minute_stay utcOffset marked h, pure_bind]
  dsimp only
  rw [markOrAgain, decide_eq_true rfl, if_pos rfl, pure_bind]

/-- A match stays as it is, whatever is marked. -/
theorem fromDay_matching (h : Matching cex wall) :
    fromDay utcOffset cex dot again (marked, brokenDown wall) = pure (brokenDown wall) := by
  rw [fromDay_stay h.day, fromMonth_stay h.month]

theorem fromHour_matching (h : Matching cex wall) :
    fromHour utcOffset cex dot again (marked, brokenDown wall) = pure (brokenDown wall) := by
  rw [fromHour_stay h.hour, fromDay_matching h]

theorem fromMinute_matching (h : Matching cex wall) :
    fromMinute utcOffset cex dot again (marked, brokenDown wall) = pure (brokenDown wall) := by
  rw [fromMinute_stay h.minute, fromHour_matching h]

section Outcomes

/-- How far a search looks: an instant after the last year it may come to, which
every field but the month allows, with the greatest second that is allowed. -/
structure Horizon (cex : CronExpr) (dot horizon : Int) : Prop where
  timely : Timely cex horizon
  last : ∀ i, cex.seconds.getLsbD i = true → i ≤ Dial.second.value horizon
  years : monthStart ((dot + 1901 + cronMaxYearsDiff) * 12) * 86400 ≤ horizon

/-- The search that starts again, from a later instant, comes to an outcome. -/
structure Again (cex : CronExpr) (dot horizon : Int) (again : Tm → Search Tm) (wall : Int) : Prop
    extends Horizon cex dot horizon where
  outcome : ∀ w, wall < w → w ≤ horizon → (w % 60 = 0 ∨ secondOk cex w) →
    Outcome cex dot w (fun m => w ≤ m ∧ Reachable cex m) (again (brokenDown w))

variable {horizon : Int} {Q : Int → Prop}

theorem second_value (wall : Int) : (Dial.second.value wall : Int) = wall % 60 := by
  rw [Dial.value, Dial.count, Dial.field, unit, Int.ediv_one, Dial.size]
  omega

/-- What is kept of the seconds is nothing, or a second that is allowed. -/
theorem kept_cases (hsecond : secondOk cex wall) {w : Int} (hw : w % 60 = kept marked wall) :
    w % 60 = 0 ∨ secondOk cex w := by
  rw [kept] at hw
  split at hw
  · exact .inl hw
  · right
    have hvalue : Dial.second.value w = Dial.second.value wall := by
      have h := second_value w
      have h' := second_value wall
      omega
    rw [secondOk, hvalue]
    exact hsecond

theorem Again.kept_le (h : Again cex dot horizon again wall) (hsecond : secondOk cex wall) :
    kept marked wall ≤ horizon % 60 := by
  have hlast := h.last _ hsecond
  have hvalue := second_value wall
  have hvalue' := second_value horizon
  rw [kept]
  split <;> omega

/-- A stage that moved the clock, and the search that starts again from there. -/
theorem Again.advanced (h : Again cex dot horizon again wall) {ok : Int → Prop} {w : Int}
    (hadvanced : Advanced ok marked wall w) (hsecond : secondOk cex wall) (hwall : wall ≤ horizon) (hok : ok horizon)
    (hQ : ∀ m, Q m → wall ≤ m ∧ Reachable cex m ∧ kept marked wall ≤ m % 60 ∧ ok m) :
    Outcome cex dot wall Q (again (brokenDown w)) := by
  have hbound := hadvanced.le hwall hok (h.kept_le hsecond)
  refine (h.outcome w hadvanced.later hbound (kept_cases hsecond hadvanced.seconds)).mono
    (Int.le_of_lt hadvanced.later) fun m hm => ?_
  obtain ⟨hlow, hreach, hkept, hokm⟩ := hQ m hm
  exact ⟨hadvanced.le hlow hokm hkept, hreach⟩

theorem monthNumber_start {k s : Int} (hlow : 0 ≤ s) (hhigh : s < 60) :
    monthNumber (monthStart k * 86400 + s) = k := by
  have hlength := lengthOfMonth_bounds k
  refine monthOf_eq ⟨by omega, ?_⟩
  rw [monthStart_succ]
  omega

theorem monthStart_le {k m : Int} (h : k ≤ monthNumber m) : monthStart k * 86400 ≤ m := by
  by_contra hno
  have hlow := (monthOf_spec (m / 86400)).1
  rw [← monthNumber] at hlow
  have hlt : monthStart (monthNumber m) < monthStart k := by omega
  exact absurd (monthStart_lt_iff.mp hlt) (Int.not_lt.mpr h)

/-- A month that is gone over is too short for a day that is allowed, so nothing
that is looked for is in it. -/
theorem reached_le {next reached m : Int} (hrolled : Rolled cex.months wall next reached)
    (hmonth : cex.months.getLsbD (monthValue wall) = false) (hday : dayOk cex (wall / 86400) = true)
    (hm : wall ≤ m) (hreach : Reachable cex m) : reached ≤ monthNumber m := by
  have hmono : monthNumber wall ≤ monthNumber m := monthOf_mono (by omega)
  have hnext := hrolled.first (monthNumber m) hmono hreach.1.month
  rcases hrolled.reached with hr | ⟨hr, hshort⟩
  · omega
  · have hlong : dayOfMonth (wall / 86400) ≤ lengthOfMonth (monthNumber m) := by
      rcases hreach.2 with hall | hdays
      · rw [hall _ (by rw [monthValue]; omega)] at hmonth
        cases hmonth
      · rw [dayOk, Bool.and_eq_true] at hday
        have hbit := hdays _ hday.1
        rw [cronMinDaysOfMonth] at hbit
        omega
    have hne : monthNumber m ≠ next := by
      rintro rfl
      omega
    omega

theorem fromMonth_outcome (hs : Searchable cex) (h : Again cex dot horizon again wall) (ht : Timely cex wall)
    (hoff : utcOffset ≤ wall) (hmarks : MarksAbove marked [.dayOfMonth, .hourOfDay, .minute])
    (hQ : ∀ m, Q m → wall ≤ m ∧ Reachable cex m ∧ kept marked wall ≤ m % 60) :
    Outcome cex dot wall Q (fromMonth utcOffset cex dot again (marked, brokenDown wall)) := by
  cases hmonth : cex.months.getLsbD (monthValue wall) with
  | true =>
      rw [fromMonth_stay hmonth]
      exact .found rfl (Int.le_refl wall) ⟨ht, hmonth⟩ fun m hm => (hQ m hm).1
  | false =>
      obtain ⟨next, reached, v, hv, hrolled, heq⟩ := month_stage hmarks hs.months hoff hmonth
      have hkept := kept_bounds marked wall
      have hreached (m : Int) (hm : Q m) : reached ≤ monthNumber m := by
        obtain ⟨hlow, hreach, _⟩ := hQ m hm
        exact reached_le hrolled hmonth ht.day hlow hreach
      have hnumber := monthNumber_start (k := reached) hkept.1 hkept.2
      rw [fromMonth]
      dsimp only
      rw [tmMon_toNat, heq, pure_bind]
      dsimp only
      rw [if_neg (by simpa using Ne.symm hv), brokenDown_tmYear, ← monthNumber, hnumber]
      split
      · next hyear =>
          refine .beyond rfl (fun m hm => ?_) ⟨monthValue wall, by rw [monthValue]; omega, hmonth⟩
          have hle := hreached m hm
          omega
      · next hyear =>
          have hlt := hrolled.lt
          have hyears := h.years
          have hbound : monthStart (reached + 1) ≤ monthStart ((dot + 1901 + cronMaxYearsDiff) * 12) := by
            by_contra hno
            have hmonths := monthStart_lt_iff.mp (Int.lt_of_not_ge hno)
            omega
          have hlength := lengthOfMonth_bounds reached
          have hseconds : (monthStart reached * 86400 + kept marked wall) % 60 = kept marked wall := by omega
          rw [monthStart_succ] at hbound
          refine (h.outcome _ (by omega) (by omega) (kept_cases ht.second hseconds)).mono (by omega) fun m hm => ?_
          obtain ⟨hlow, hreach, hkeptm⟩ := hQ m hm
          have hstart := monthStart_le (hreached m hm)
          exact ⟨by omega, hreach⟩

/-- The tail of a search that started again comes to nothing new. -/
theorem Outcome.then_stay {x : Search Tm} {w : Int} (h : Outcome cex dot w Q x) {tail : Tm → Search Tm}
    (htail : ∀ r, Matching cex r → tail (brokenDown r) = pure (brokenDown r)) :
    Outcome cex dot w Q (x >>= tail) := by
  cases h with
  | found heq later matching first =>
      refine .found ?_ later matching first
      rw [heq, pure_bind, htail _ matching]
  | beyond heq none restricted =>
      refine .beyond ?_ none restricted
      rw [heq]
      rfl

theorem fromDay_outcome (hs : Searchable cex) (h : Again cex dot horizon again wall) (hsecond : secondOk cex wall)
    (hminute : minuteOk cex wall) (hhour : hourOk cex wall) (hoff : utcOffset ≤ wall) (hwall : wall ≤ horizon)
    (hmarks : MarksAbove marked [.hourOfDay, .minute])
    (hQ : ∀ m, Q m → wall ≤ m ∧ Reachable cex m ∧ kept marked wall ≤ m % 60) :
    Outcome cex dot wall Q (fromDay utcOffset cex dot again (marked, brokenDown wall)) := by
  obtain ⟨k, hk, hfound, hskipped, hother⟩ := hs.days (wall / 86400)
  rcases Nat.eq_zero_or_pos k with rfl | hpos
  · rw [Int.natCast_zero, Int.add_zero] at hfound
    rw [fromDay_stay hfound]
    refine fromMonth_outcome hs h ⟨hsecond, hminute, hhour, hfound⟩ hoff (hmarks.mark _) fun m hm => ?_
    rw [kept_mark (by decide)]
    exact hQ m hm
  · have hspec := findNextDay_spec hmarks hk rfl hoff hskipped hfound
    have hadvanced : Advanced (fun m => dayOk cex (m / 86400) = true) marked wall
        ((wall / 86400 + k) * 86400 + kept marked wall) := by
      have hkept := kept_bounds marked wall
      refine ⟨by omega, (wall / 86400 + k) * 86400, by omega, rfl, fun m hm hday => ?_⟩
      by_contra hno
      have hearly := hskipped (m / 86400 - wall / 86400).toNat (by omega)
      rw [show wall / 86400 + ((m / 86400 - wall / 86400).toNat : Nat) = m / 86400 by omega, hday] at hearly
      cases hearly
    have hbounds := (dayOfMonth_bounds (wall / 86400)).1
    have hbounds' := (dayOfMonth_bounds (wall / 86400 + k)).1
    have hmoved := hother hpos
    have hne : (dayOfMonth (wall / 86400)).toNat ≠ (dayOfMonth (wall / 86400 + k)).toNat := by omega
    rw [if_neg (Nat.ne_of_gt hpos)] at hspec
    rw [fromDay]
    dsimp only
    rw [brokenDown_tmMday, brokenDown_tmWday, hspec, pure_bind]
    dsimp only
    rw [decide_eq_false hne, markOrAgain, if_neg Bool.false_ne_true, bind_assoc]
    refine Outcome.then_stay (h.advanced hadvanced hsecond hwall h.timely.day fun m hm => ?_) fun r hr => ?_
    · obtain ⟨hlow, hreach, hkept⟩ := hQ m hm
      exact ⟨hlow, hreach, hkept, hreach.1.day⟩
    · rw [pure_bind, fromMonth_stay hr.month]

theorem fromHour_outcome (hs : Searchable cex) (h : Again cex dot horizon again wall) (hsecond : secondOk cex wall)
    (hminute : minuteOk cex wall) (hoff : utcOffset ≤ wall) (hwall : wall ≤ horizon)
    (hmarks : MarksAbove marked [.minute])
    (hQ : ∀ m, Q m → wall ≤ m ∧ Reachable cex m ∧ kept marked wall ≤ m % 60) :
    Outcome cex dot wall Q (fromHour utcOffset cex dot again (marked, brokenDown wall)) := by
  cases hhour : cex.hours.getLsbD (Dial.hour.value wall) with
  | true =>
      rw [fromHour_stay hhour]
      refine fromDay_outcome hs h hsecond hminute hhour hoff hwall (hmarks.mark _) fun m hm => ?_
      rw [kept_mark (by decide)]
      exact hQ m hm
  | false =>
      obtain ⟨w, v, hv, hadvanced, heq⟩ := hour_stage hmarks hs.hours hoff hhour
      rw [fromHour]
      dsimp only
      rw [tmHour_toNat, heq, pure_bind]
      dsimp only
      rw [decide_eq_false (by simpa using Ne.symm hv), markOrAgain, if_neg Bool.false_ne_true, bind_assoc]
      refine Outcome.then_stay (h.advanced hadvanced hsecond hwall h.timely.hour fun m hm => ?_) fun r hr => ?_
      · obtain ⟨hlow, hreach, hkept⟩ := hQ m hm
        exact ⟨hlow, hreach, hkept, hreach.1.hour⟩
      · rw [pure_bind, fromDay_matching hr]

theorem fromMinute_outcome (hs : Searchable cex) (h : Again cex dot horizon again wall) (hsecond : secondOk cex wall)
    (hoff : utcOffset ≤ wall) (hwall : wall ≤ horizon) (hmarks : MarksAbove marked [])
    (hQ : ∀ m, Q m → wall ≤ m ∧ Reachable cex m ∧ kept marked wall ≤ m % 60) :
    Outcome cex dot wall Q (fromMinute utcOffset cex dot again (marked, brokenDown wall)) := by
  cases hminute : cex.minutes.getLsbD (Dial.minute.value wall) with
  | true =>
      rw [fromMinute_stay hminute]
      refine fromHour_outcome hs h hsecond hminute hoff hwall (hmarks.mark _) fun m hm => ?_
      rw [kept_mark (by decide)]
      exact hQ m hm
  | false =>
      obtain ⟨w, v, hv, hadvanced, heq⟩ := minute_stage hmarks hs.minutes hoff hminute
      rw [fromMinute]
      dsimp only
      rw [tmMin_toNat, heq, pure_bind]
      dsimp only
      rw [decide_eq_false (by simpa using Ne.symm hv), markOrAgain, if_neg Bool.false_ne_true, bind_assoc]
      refine Outcome.then_stay (h.advanced hadvanced hsecond hwall h.timely.minute fun m hm => ?_) fun r hr => ?_
      · obtain ⟨hlow, hreach, hkept⟩ := hQ m hm
        exact ⟨hlow, hreach, hkept, hreach.1.minute⟩
      · rw [pure_bind, fromHour_matching hr]

end Outcomes

end Stages

section Seconds

variable {cex : CronExpr} {wall w : Int}

theorem secondOk_iff {m m' : Int} (h : m % 60 = m' % 60) : secondOk cex m ↔ secondOk cex m' := by
  have hvalue : Dial.second.value m = Dial.second.value m' := by
    have hm := second_value m
    have hm' := second_value m'
    omega
  rw [secondOk, secondOk, hvalue]

/-- An instant of the minute, or of the next one, by its second. -/
theorem secondOk_of_bit {i : Nat} (h : cex.seconds.getLsbD i = true) {m : Int} (hm : m % 60 = i) : secondOk cex m := by
  have hvalue := second_value m
  rw [secondOk, show Dial.second.value m = i by omega]
  exact h

theorem lt_of_bit {i : Nat} (h : cex.seconds.getLsbD i = true) : i < 60 := BitVec.lt_of_getLsbD h

theorem settled_of_start (h : wall % 60 = 0 ∨ secondOk cex wall) : Settled cex wall := by
  intro hbetween
  obtain ⟨hno, ⟨i, hi, _⟩, _⟩ := hbetween
  rcases h with h | h
  · have hvalue := second_value wall
    omega
  · rw [h] at hno
    cases hno

variable (hok : secondOk cex w) (hlater : wall < w) (hleast : ∀ m, wall ≤ m → secondOk cex m → w ≤ m)

include hok hlater hleast

/-- Outside of a gap the first allowed second from here on is the least of all. -/
theorem least_second (hno : cex.seconds.getLsbD (Dial.second.value wall) = false) (hbetween : ¬ BetweenSeconds cex wall)
    {m : Int} (hm : secondOk cex m) : w % 60 ≤ m % 60 := by
  have hvalue := second_value wall
  have hvaluew := second_value w
  have hvaluem := second_value m
  by_cases hless : m % 60 < wall % 60
  · have hbigger : ¬ wall % 60 < w % 60 := by
      intro hlt
      exact hbetween ⟨hno, ⟨_, by omega, hm⟩, _, by omega, hok⟩
    have hle := hleast (wall - wall % 60 + 60 + m % 60) (by omega) ((secondOk_iff (by omega)).mpr hm)
    have hne : w % 60 ≠ wall % 60 := by
      intro heq
      rw [(secondOk_iff heq).mp hok] at hno
      cases hno
    omega
  · have hle := hleast (wall - wall % 60 + m % 60) (by omega) ((secondOk_iff (by omega)).mpr hm)
    omega

omit hok in
/-- In a gap the next allowed second is in the same minute. -/
theorem same_minute (hbetween : BetweenSeconds cex wall) : w / 60 = wall / 60 := by
  obtain ⟨_, _, i, hi, hbit⟩ := hbetween
  have hvalue := second_value wall
  have hlt := lt_of_bit hbit
  have hle := hleast (wall - wall % 60 + i) (by omega) (secondOk_of_bit hbit (by omega))
  omega

end Seconds

theorem rest_of_same_minute (cex : CronExpr) {wall w : Int} (h : w / 60 = wall / 60) :
    (minuteOk cex w ↔ minuteOk cex wall) ∧ (hourOk cex w ↔ hourOk cex wall) ∧
      (dayOk cex (w / 86400) = dayOk cex (wall / 86400)) ∧ (monthOk cex w ↔ monthOk cex wall) := by
  have hminute : Dial.minute.value w = Dial.minute.value wall := by
    simp only [Dial.value, Dial.count, Dial.field, Dial.size, unit]
    omega
  have hhour : Dial.hour.value w = Dial.hour.value wall := by
    simp only [Dial.value, Dial.count, Dial.field, Dial.size, unit]
    omega
  have hday : w / 86400 = wall / 86400 := by omega
  rw [minuteOk, minuteOk, hminute, hourOk, hourOk, hhour, hday, monthOk, monthOk, monthValue, monthValue, monthNumber,
    monthNumber, hday]
  exact ⟨Iff.rfl, Iff.rfl, rfl, Iff.rfl⟩

section Search

variable {utcOffset : Int} {cex : CronExpr} {dot horizon : Int}

theorem findNext_outcome (hs : Searchable cex) (h : Horizon cex dot horizon) {fuel : Nat} {wall : Int}
    (hoff : utcOffset ≤ wall) (hwall : wall ≤ horizon) (hfuel : (horizon - wall).toNat < fuel) :
    Outcome cex dot wall (fun m => Settled cex wall ∧ wall ≤ m ∧ Reachable cex m)
      (findNext utcOffset cex dot fuel (brokenDown wall)) := by
  induction fuel generalizing wall with
  | zero => omega
  | succ fuel ih =>
      have hagain {w : Int} (hw : wall ≤ w) : Again cex dot horizon (findNext utcOffset cex dot fuel) w := by
        refine ⟨h, fun w' hlt hle hstart => ?_⟩
        refine (ih (by omega) hle (by omega)).mono (Int.le_refl w') fun m hm => ?_
        exact ⟨settled_of_start hstart, hm⟩
      obtain ⟨w, v, heq, hok, hleast, hv⟩ := second_stage hs.seconds hoff
      have hbound := hleast horizon hwall h.timely.second
      rw [findNext_succ, tmSec_toNat, heq, pure_bind]
      rcases hv with ⟨rfl, rfl⟩ | ⟨hv, hlater⟩
      · rw [if_pos rfl]
        refine fromMinute_outcome hs (hagain (Int.le_refl w)) hok hoff hbound marksAbove_second fun m hm => ?_
        exact ⟨hm.2.1, hm.2.2, by rw [kept, if_pos (by decide)]; omega⟩
      · have hno : cex.seconds.getLsbD (Dial.second.value wall) = false := by
          by_contra hset
          rw [Bool.not_eq_false] at hset
          exact absurd (hleast wall (Int.le_refl wall) hset) (Int.not_le.mpr hlater)
        rw [if_neg (by simpa using Ne.symm hv)]
        by_cases hbetween : BetweenSeconds cex wall
        · obtain ⟨hminute, hhour, hday, hmonth⟩ := rest_of_same_minute cex
            (same_minute hlater hleast hbetween)
          by_cases hrest : minuteOk cex wall ∧ hourOk cex wall ∧ dayOk cex (wall / 86400) = true ∧ monthOk cex wall
          · have hmatching : Matching cex w :=
              ⟨⟨hok, hminute.mpr hrest.1, hhour.mpr hrest.2.1, hday.trans hrest.2.2.1⟩, hmonth.mpr hrest.2.2.2⟩
            refine .found (fromMinute_matching hmatching) (Int.le_of_lt hlater) hmatching fun m hm => ?_
            exact hleast m hm.2.1 hm.2.2.1.second
          · refine (fromMinute_outcome hs (hagain (Int.le_of_lt hlater)) hok (by omega) hbound marksAbove_empty
              fun m hm => ?_).mono (Int.le_of_lt hlater) fun m hm => hm
            exact absurd (hm.1 hbetween) hrest
        · refine (fromMinute_outcome hs (hagain (Int.le_of_lt hlater)) hok (by omega) hbound marksAbove_empty
            fun m hm => ?_).mono (Int.le_of_lt hlater) fun m hm => hm
          refine ⟨hleast m hm.2.1 hm.2.2.1.second, hm.2.2, ?_⟩
          rw [kept, if_neg (by decide)]
          exact least_second hok hlater hleast hno hbetween hm.2.2.1.second

end Search

end MigangBot.CronExactness
