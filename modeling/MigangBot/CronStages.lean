import MigangBot.CronSearch

namespace MigangBot.CronStages

open Lib.Calendar Text LocalTime Scheduling CronSearch

section Bits

variable {n : Nat} {target : BitVec n} {offset i : Nat}

theorem nextSetBit_some (h : nextSetBit target offset = some i) :
    offset ≤ i ∧ i < n ∧ target.getLsbD i = true ∧ ∀ j, offset ≤ j → j < i → target.getLsbD j = false := by
  rw [nextSetBit, List.find?_range'_eq_some] at h
  obtain ⟨hset, hmem, hfirst⟩ := h
  rw [List.mem_range'_1] at hmem
  refine ⟨hmem.1, by omega, hset, fun j hj hlt => ?_⟩
  simpa using hfirst j hj hlt

theorem nextSetBit_none (h : nextSetBit target offset = none) (hi : offset ≤ i) : target.getLsbD i = false := by
  rw [nextSetBit, List.find?_range'_eq_none] at h
  by_cases hn : i < n
  · simpa using h i hi (by omega)
  · exact BitVec.getLsbD_of_ge target i (by omega)

theorem nextSetBit_self (h : target.getLsbD i = true) : nextSetBit target i = some i := by
  cases hn : nextSetBit target i with
  | none => rw [nextSetBit_none hn (Nat.le_refl i)] at h; cases h
  | some j =>
      obtain ⟨hle, _, _, hfirst⟩ := nextSetBit_some hn
      by_cases hij : i = j
      · rw [hij]
      · rw [hfirst i (Nat.le_refl i) (by omega)] at h
        cases h

end Bits

section Normalising

variable {utcOffset : Int} {wall : Int}

theorem normalise_eq {date : Tm} (hwall : wallClock date = wall) (h : utcOffset ≤ wall) :
    normalise utcOffset date = pure (brokenDown wall) := by
  rw [normalise, mktime, hwall]
  dsimp only
  rw [if_neg]
  rw [invalidTime]
  omega

/-- The seconds one step of a field is worth, for the fields of even steps. -/
def unit : CronField → Int
  | .second => 1
  | .minute => 60
  | .hourOfDay => 3600
  | .dayOfWeek | .dayOfMonth => 86400
  | .month | .year => 0

/-- What resetting a field takes away. -/
def part (wall : Int) : CronField → Int
  | .second => wall % 60
  | .minute => wall / 60 % 60 * 60
  | .hourOfDay => wall / 3600 % 24 * 3600
  | .dayOfMonth => (dayOfMonth (wall / 86400) - 1) * 86400
  | .dayOfWeek | .month | .year => 0

theorem wallClock_add (date : Tm) (val : Int) {field : CronField} (hm : field ≠ .month) (hy : field ≠ .year) :
    wallClock (Tm.add date field val) = wallClock date + val * unit field := by
  cases field <;> simp only [Tm.add, wallClock, unit, ne_eq, not_true_eq_false] at * <;> omega

theorem wallClock_set (wall v : Int) :
    wallClock (Tm.set (brokenDown wall) .second v) = wall + (v - wall % 60) ∧
    wallClock (Tm.set (brokenDown wall) .minute v) = wall + (v - wall / 60 % 60) * 60 ∧
    wallClock (Tm.set (brokenDown wall) .hourOfDay v) = wall + (v - wall / 3600 % 24) * 3600 ∧
    wallClock (Tm.set (brokenDown wall) .dayOfMonth v) = wall + (v - dayOfMonth (wall / 86400)) * 86400 := by
  have hwall := wallClock_brokenDown wall
  rw [wallClock] at hwall
  simp only [brokenDown_tmMday, brokenDown_tmHour, brokenDown_tmMin, brokenDown_tmSec] at hwall
  refine ⟨?_, ?_, ?_, ?_⟩
  all_goals
    simp only [Tm.set, wallClock, brokenDown_tmMday, brokenDown_tmHour, brokenDown_tmMin, brokenDown_tmSec]
    omega

theorem resetField_eq {field : CronField} (hw : field ≠ .dayOfWeek) (hm : field ≠ .month) (hy : field ≠ .year)
    (h : utcOffset ≤ wall - part wall field) :
    resetField utcOffset (brokenDown wall) field = pure (brokenDown (wall - part wall field)) := by
  rw [resetField, setField]
  refine normalise_eq ?_ h
  obtain ⟨hsecond, hminute, hhour, hday⟩ := wallClock_set wall 0
  have hfirst := (wallClock_set wall 1).2.2.2
  cases field <;> simp only [part, ne_eq, not_true_eq_false, reduceCtorEq, if_false, if_true] at * <;> omega

end Normalising

section Resetting

variable {utcOffset : Int} {marked : MarkedFields}

def lowered (marked : MarkedFields) (wall : Int) (field : CronField) : Int :=
  wall - if marked field then part wall field else 0

theorem part_nonneg (wall : Int) (field : CronField) : 0 ≤ part wall field := by
  have hday := (dayOfMonth_bounds (wall / 86400)).1
  cases field <;> simp only [part] <;> omega

theorem lowered_le (marked : MarkedFields) (wall : Int) (field : CronField) : lowered marked wall field ≤ wall := by
  have hpart := part_nonneg wall field
  rw [lowered]
  split <;> omega

theorem reset_marked {wall : Int} {field : CronField} (hw : field ≠ .dayOfWeek) (hm : field ≠ .month)
    (hy : field ≠ .year) (h : utcOffset ≤ lowered marked wall field) :
    (if marked field then resetField utcOffset (brokenDown wall) field else pure (brokenDown wall)) =
      pure (brokenDown (lowered marked wall field)) := by
  rw [lowered] at *
  split
  · next hset =>
      rw [if_pos hset] at h
      exact resetField_eq hw hm hy h
  · rw [Int.sub_zero]

/-- Beside the second, exactly these fields are marked. -/
def MarksAbove (marked : MarkedFields) (fields : List CronField) : Prop :=
  ∀ f, f ≠ .second → marked f = decide (f ∈ fields)

def loweredAll (marked : MarkedFields) (wall : Int) : Int :=
  [CronField.second, .minute, .hourOfDay, .dayOfMonth].foldl (lowered marked) wall

theorem resetAllFields_eq {fields : List CronField} (hmarks : MarksAbove marked fields)
    (hw : .dayOfWeek ∉ fields) (hm : .month ∉ fields) (hy : .year ∉ fields) {wall : Int}
    (h : utcOffset ≤ loweredAll marked wall) :
    resetAllFields utcOffset (brokenDown wall) marked = pure (brokenDown (loweredAll marked wall)) := by
  simp only [loweredAll, List.foldl_cons, List.foldl_nil] at *
  have hday := lowered_le marked
    (lowered marked (lowered marked (lowered marked wall .second) .minute) .hourOfDay) .dayOfMonth
  have hhour := lowered_le marked (lowered marked (lowered marked wall .second) .minute) .hourOfDay
  have hminute := lowered_le marked (lowered marked wall .second) .minute
  rw [resetAllFields, cronFields]
  simp only [List.foldlM_cons, List.foldlM_nil]
  rw [reset_marked (by decide) (by decide) (by decide) (by omega), pure_bind,
    reset_marked (by decide) (by decide) (by decide) (by omega), pure_bind,
    reset_marked (by decide) (by decide) (by decide) (by omega), pure_bind]
  simp only [hmarks .dayOfWeek (by decide), hmarks .month (by decide), hmarks .year (by decide), hw, hm, hy,
    decide_false, Bool.false_eq_true, if_false, pure_bind]
  rw [reset_marked (by decide) (by decide) (by decide) h, pure_bind]

/-- What a reset leaves of the wall clock below the minute. -/
def kept (marked : MarkedFields) (wall : Int) : Int := if marked .second then 0 else wall % 60

theorem kept_bounds (marked : MarkedFields) (wall : Int) : 0 ≤ kept marked wall ∧ kept marked wall < 60 := by
  rw [kept]
  split <;> omega

theorem lowered_second (wall : Int) : lowered marked wall .second = wall / 60 * 60 + kept marked wall := by
  rw [lowered, kept, part]
  split <;> omega

theorem loweredAll_minute (h : MarksAbove marked []) (wall : Int) :
    loweredAll marked wall = wall / 60 * 60 + kept marked wall := by
  simp only [loweredAll, List.foldl_cons, List.foldl_nil, lowered_second]
  simp [lowered, h .minute (by decide), h .hourOfDay (by decide), h .dayOfMonth (by decide)]

theorem loweredAll_hour (h : MarksAbove marked [.minute]) (wall : Int) :
    loweredAll marked wall = wall / 3600 * 3600 + kept marked wall := by
  have hkept := kept_bounds marked wall
  simp only [loweredAll, List.foldl_cons, List.foldl_nil, lowered_second]
  simp only [lowered, h .minute (by decide), h .hourOfDay (by decide), h .dayOfMonth (by decide),
    List.mem_singleton, reduceCtorEq, decide_true, decide_false, Bool.false_eq_true, if_true, if_false, part]
  omega

theorem loweredAll_day (h : MarksAbove marked [.hourOfDay, .minute]) (wall : Int) :
    loweredAll marked wall = wall / 86400 * 86400 + kept marked wall := by
  have hkept := kept_bounds marked wall
  simp only [loweredAll, List.foldl_cons, List.foldl_nil, lowered_second]
  simp only [lowered, h .minute (by decide), h .hourOfDay (by decide), h .dayOfMonth (by decide),
    List.mem_cons, List.not_mem_nil, reduceCtorEq, or_false, or_true, decide_true, decide_false,
    Bool.false_eq_true, if_true, if_false, part]
  omega

theorem loweredAll_month (h : MarksAbove marked [.dayOfMonth, .hourOfDay, .minute]) (wall : Int) :
    loweredAll marked wall = monthStart (monthOf (wall / 86400)) * 86400 + kept marked wall := by
  have hkept := kept_bounds marked wall
  have hday := eq_monthStart_add (wall / 86400)
  simp only [loweredAll, List.foldl_cons, List.foldl_nil, lowered_second]
  simp only [lowered, h .minute (by decide), h .hourOfDay (by decide), h .dayOfMonth (by decide),
    List.mem_cons, List.not_mem_nil, reduceCtorEq, or_false, or_true, decide_true, if_true, part]
  generalize hw : (wall / 60 * 60 + kept marked wall - (wall / 60 * 60 + kept marked wall) / 60 % 60 * 60 -
    (wall / 60 * 60 + kept marked wall - (wall / 60 * 60 + kept marked wall) / 60 % 60 * 60) / 3600 % 24 * 3600) = w
  have hmidnight : w = wall / 86400 * 86400 + kept marked wall := by omega
  have hsame : w / 86400 = wall / 86400 := by omega
  rw [hsame]
  omega

end Resetting

section Marks

variable {marked : MarkedFields} {fields : List CronField}

theorem marksAbove_empty : MarksAbove emptyList [] := fun _ _ => rfl

theorem marksAbove_second : MarksAbove (markField emptyList .second) [] := by
  intro f hf
  simp [markField, emptyList, hf]

theorem MarksAbove.mark (h : MarksAbove marked fields) (field : CronField) :
    MarksAbove (markField marked field) (field :: fields) := by
  intro f hf
  simp only [markField, h f hf, List.mem_cons, Bool.decide_or]
  rfl

theorem kept_mark {field : CronField} (hf : field ≠ .second) (wall : Int) :
    kept (markField marked field) wall = kept marked wall := by
  have hsame : markField marked field .second = marked .second := by
    rw [markField]
    simp [Ne.symm hf]
  rw [kept, kept, hsame]

end Marks

section Dials

/-- The three fields that turn round at the same value every time. -/
inductive Dial
  | second
  | minute
  | hour
  deriving DecidableEq

namespace Dial

def field : Dial → CronField
  | .second => .second
  | .minute => .minute
  | .hour => .hourOfDay

def nextField : Dial → CronField
  | .second => .minute
  | .minute => .hourOfDay
  | .hour => .dayOfWeek

def size : Dial → Nat
  | .second | .minute => 60
  | .hour => 24

def count (d : Dial) (wall : Int) : Int := wall / unit d.field

def value (d : Dial) (wall : Int) : Nat := (d.count wall % d.size).toNat

theorem wallClock_add (d : Dial) (wall : Int) :
    wallClock (Tm.add (brokenDown wall) d.nextField 1) = wall + d.size * unit d.field := by
  rw [CronStages.wallClock_add _ 1 (by cases d <;> decide) (by cases d <;> decide), wallClock_brokenDown]
  cases d <;> rfl

theorem wallClock_set (d : Dial) (wall v : Int) :
    wallClock (Tm.set (brokenDown wall) d.field v) = wall + (v - d.value wall) * unit d.field := by
  obtain ⟨hsecond, hminute, hhour, _⟩ := CronStages.wallClock_set wall v
  cases d <;> simp only [field, value, count, size, unit] at * <;> omega

theorem part_field (d : Dial) (wall : Int) : part wall d.field = d.value wall * unit d.field := by
  cases d <;> simp only [part, field, value, count, size, unit] <;> omega

theorem value_turned (d : Dial) (wall : Int) {v : Int} (hlow : 0 ≤ v) (hhigh : v < d.size) (rounds : Int) :
    d.value (wall + (v - d.value wall + rounds * d.size) * unit d.field) = v := by
  cases d <;> simp only [field, value, count, size, unit] at * <;> omega

theorem count_turned (d : Dial) (wall v rounds : Int) :
    d.count (wall + (v - d.value wall + rounds * d.size) * unit d.field) =
      d.count wall + (v - d.value wall) + rounds * d.size := by
  cases d <;> simp only [field, value, count, size, unit] <;> omega

/-- The dial does not pass a value it shows before it has gone round. -/
theorem count_le (d : Dial) {wall m : Int} (h : wall ≤ m) :
    (d.value wall ≤ d.value m ∧ d.count wall + (d.value m - d.value wall) ≤ d.count m) ∨
      d.count wall + (d.value m - d.value wall) + d.size ≤ d.count m := by
  cases d <;> simp only [field, value, count, size, unit] <;> omega

theorem value_lt (d : Dial) (wall : Int) : d.value wall < d.size := by
  cases d <;> simp only [field, value, count, size, unit] <;> omega

end Dial

variable {utcOffset : Int} {marked : MarkedFields} {d : Dial} {target : BitVec d.size} {wall : Int}

/-- The dial is turned forward to the next value of the target, and no further. -/
structure Turned (d : Dial) (target : BitVec d.size) (wall wall' : Int) : Prop where
  later : wall < wall'
  same : wall' % unit d.field = wall % unit d.field
  allowed : target.getLsbD (d.value wall') = true
  first : ∀ m, wall ≤ m → target.getLsbD (d.value m) = true → d.count wall' ≤ d.count m

theorem findNextValue_stay (utcOffset : Int) (marked : MarkedFields) (h : target.getLsbD (d.value wall) = true) :
    findNextValue utcOffset target (brokenDown wall) (d.value wall) d.field d.nextField marked =
      pure (some (d.value wall), brokenDown wall) := by
  rw [findNextValue, nextSetBit_self h]
  simp only [pure_bind, if_true]

theorem setField_dial {v : Int} (hoff : utcOffset ≤ wall + (v - d.value wall) * unit d.field) :
    setField utcOffset (brokenDown wall) d.field v =
      pure (brokenDown (wall + (v - d.value wall) * unit d.field)) := by
  rw [setField]
  exact normalise_eq (d.wallClock_set wall v) hoff

/-- The next field is stepped and this one put to its first value. -/
theorem turnOver (hoff : utcOffset ≤ wall) :
    addToField utcOffset (brokenDown wall) d.nextField 1 = pure (brokenDown (wall + d.size * unit d.field)) ∧
    resetField utcOffset (brokenDown (wall + d.size * unit d.field)) d.field =
      pure (brokenDown (wall + (0 - d.value wall + 1 * d.size) * unit d.field)) := by
  have hunit : 0 < unit d.field := by cases d <;> decide
  have hvalue := d.value_lt wall
  have hround : 0 < (d.size : Int) * unit d.field := Int.mul_pos (by omega) hunit
  have hback : 0 < (0 - (d.value wall : Int) + 1 * d.size) * unit d.field := Int.mul_pos (by omega) hunit
  have hsame : d.value (wall + d.size * unit d.field) = d.value wall := by
    have hshown := d.value_turned wall (v := d.value wall) (by omega) (by omega) 1
    rw [Int.sub_self, Int.zero_add, Int.one_mul] at hshown
    exact Int.ofNat_inj.mp hshown
  have hpart : wall + d.size * unit d.field - part (wall + d.size * unit d.field) d.field =
      wall + (0 - d.value wall + 1 * d.size) * unit d.field := by
    rw [d.part_field, hsame, Int.one_mul, Int.add_mul, Int.zero_sub, Int.neg_mul]
    omega
  constructor
  · rw [addToField]
    exact normalise_eq (d.wallClock_add wall) (by omega)
  · rw [resetField_eq (by cases d <;> decide) (by cases d <;> decide) (by cases d <;> decide) (by omega), hpart]

theorem findNextValue_turn (marked : MarkedFields) (hne : ∃ i, target.getLsbD i = true) (hoff : utcOffset ≤ wall)
    (h : target.getLsbD (d.value wall) = false) :
    ∃ wall' v, v ≠ d.value wall ∧ Turned d target wall wall' ∧
      findNextValue utcOffset target (brokenDown wall) (d.value wall) d.field d.nextField marked =
        (do
          let date ← resetAllFields utcOffset (brokenDown wall') marked
          pure (some v, date)) := by
  have hunit : 0 < unit d.field := by cases d <;> decide
  have hvalue := d.value_lt wall
  cases hn : nextSetBit target (d.value wall) with
  | some v =>
      obtain ⟨hle, hv, hset, hfirst⟩ := nextSetBit_some hn
      have hne : v ≠ d.value wall := by
        rintro rfl
        rw [hset] at h
        cases h
      have hup : 0 < ((v : Int) - d.value wall) * unit d.field := Int.mul_pos (by omega) hunit
      have hshown := d.value_turned wall (v := v) (by omega) (by omega) 0
      have hcount := d.count_turned wall v 0
      rw [Int.zero_mul, Int.add_zero] at hshown hcount
      refine ⟨wall + (v - d.value wall) * unit d.field, v, hne, ⟨by omega, ?_, ?_, fun m hm hallowed => ?_⟩, ?_⟩
      · rw [Int.add_mul_emod_self_right]
      · rw [Int.ofNat_inj.mp hshown]
        exact hset
      · have hv : v ≤ d.value m ∨ d.value m < d.value wall := by
          by_contra hno
          rw [hfirst (d.value m) (by omega) (by omega)] at hallowed
          cases hallowed
        have hpast := d.count_le hm
        omega
      · rw [findNextValue, hn]
        simp only [pure_bind, Option.some.injEq, hne, if_false, Option.elim, Int.ofNat_eq_natCast]
        rw [setField_dial (by omega), pure_bind]
  | none =>
      obtain ⟨i, hi⟩ := hne
      cases hfirst : nextSetBit target 0 with
      | none =>
          rw [nextSetBit_none hfirst (Nat.zero_le i)] at hi
          cases hi
      | some v =>
          obtain ⟨_, hv, hset, hfirst'⟩ := nextSetBit_some hfirst
          have hlt : v < d.value wall := by
            by_contra hno
            rw [nextSetBit_none hn (by omega)] at hset
            cases hset
          have hshown := d.value_turned wall (v := v) (by omega) (by omega) 1
          have hcount := d.count_turned wall v 1
          have hup : 0 < ((v : Int) - d.value wall + 1 * d.size) * unit d.field := Int.mul_pos (by omega) hunit
          have hzero : (d.value (wall + (0 - d.value wall + 1 * d.size) * unit d.field) : Int) = 0 :=
            d.value_turned wall (by omega) (by omega) 1
          have hsum : wall + (0 - d.value wall + 1 * d.size) * unit d.field + (v - 0) * unit d.field =
              wall + (v - d.value wall + 1 * d.size) * unit d.field := by
            rw [Int.add_assoc, ← Int.add_mul]
            congr 2
            omega
          refine ⟨wall + (v - d.value wall + 1 * d.size) * unit d.field, v, by omega,
            ⟨by omega, ?_, ?_, fun m hm hallowed => ?_⟩, ?_⟩
          · rw [Int.add_mul_emod_self_right]
          · rw [Int.ofNat_inj.mp hshown]
            exact hset
          · have hm' : d.value m < d.value wall ∧ v ≤ d.value m := by
              constructor
              · by_contra hno
                rw [nextSetBit_none hn (by omega)] at hallowed
                cases hallowed
              · by_contra hno
                rw [hfirst' (d.value m) (Nat.zero_le _) (by omega)] at hallowed
                cases hallowed
            have hpast := d.count_le hm
            omega
          · rw [findNextValue, hn]
            simp only
            rw [(turnOver hoff).1, pure_bind, (turnOver hoff).2, pure_bind, hfirst]
            simp only [pure_bind, Option.some.injEq, Nat.ne_of_lt hlt, if_false, Option.elim,
              Int.ofNat_eq_natCast]
            rw [setField_dial (by rw [hzero, hsum]; omega), pure_bind, hzero, hsum]

/-- A stage moves the clock to the beginning of a minute, plus the seconds that
are kept, and that minute is not after any later one the stage allows. -/
structure Advanced (ok : Int → Prop) (marked : MarkedFields) (wall wall' : Int) : Prop where
  later : wall < wall'
  base : ∃ b, b % 60 = 0 ∧ wall' = b + kept marked wall ∧ ∀ m, wall ≤ m → ok m → b ≤ m

theorem Advanced.le {ok : Int → Prop} {wall' m : Int} (h : Advanced ok marked wall wall') (hm : wall ≤ m)
    (hok : ok m) (hkept : kept marked wall ≤ m % 60) : wall' ≤ m := by
  obtain ⟨b, hb, rfl, hfirst⟩ := h.base
  have hle := hfirst m hm hok
  omega

theorem Advanced.seconds {ok : Int → Prop} {wall' : Int} (h : Advanced ok marked wall wall') :
    wall' % 60 = kept marked wall := by
  obtain ⟨b, hb, rfl, _⟩ := h.base
  have hkept := kept_bounds marked wall
  omega

theorem kept_of_same {w w' : Int} (h : w' % 60 = w % 60) : kept marked w' = kept marked w := by
  rw [kept, kept, h]

/-- The stage of the minutes, or of the hours. -/
theorem dial_stage (hd : d ≠ .second) (hlow : ∀ w, loweredAll marked w =
      w / unit d.field * unit d.field + kept marked w) {fields : List CronField}
    (hmarks : MarksAbove marked fields) (hw : .dayOfWeek ∉ fields) (hm : .month ∉ fields) (hy : .year ∉ fields)
    (hne : ∃ i, target.getLsbD i = true) (hoff : utcOffset ≤ wall) (h : target.getLsbD (d.value wall) = false) :
    ∃ wall' v, v ≠ d.value wall ∧ Advanced (fun m => target.getLsbD (d.value m) = true) marked wall wall' ∧
      findNextValue utcOffset target (brokenDown wall) (d.value wall) d.field d.nextField marked =
        pure (some v, brokenDown wall') := by
  obtain ⟨turned, v, hv, hturned, heq⟩ := findNextValue_turn marked hne hoff h
  have hkept := kept_bounds marked wall
  have hsame : kept marked turned = kept marked wall := by
    have hsame := hturned.same
    refine kept_of_same ?_
    cases d with
    | second => exact absurd rfl hd
    | minute => exact hsame
    | hour => simp only [Dial.field, unit] at hsame; omega
  have hadvanced : Advanced (fun m => target.getLsbD (d.value m) = true) marked wall (loweredAll marked turned) := by
    rw [hlow, hsame]
    have hlater := hturned.later
    have hrest := hturned.same
    refine ⟨?_, turned / unit d.field * unit d.field, ?_, rfl, fun m hm hallowed => ?_⟩
    · cases d with
      | second => exact absurd rfl hd
      | minute | hour => simp only [Dial.field, unit] at *; omega
    · cases d with
      | second => exact absurd rfl hd
      | minute | hour => simp only [Dial.field, unit]; omega
    · have hle := hturned.first m hm hallowed
      cases d with
      | second => exact absurd rfl hd
      | minute | hour => simp only [Dial.field, Dial.count, unit] at *; omega
  have hlater := hadvanced.later
  refine ⟨_, v, hv, hadvanced, ?_⟩
  rw [heq, resetAllFields_eq hmarks hw hm hy (by omega), pure_bind]

theorem resetAllFields_empty (utcOffset : Int) (date : Tm) :
    resetAllFields utcOffset date emptyList = pure date := rfl

/-- The stage of the seconds, which resets nothing. -/
theorem second_stage {target : BitVec 60} (hne : ∃ i, target.getLsbD i = true) (hoff : utcOffset ≤ wall) :
    ∃ wall' v, findNextValue utcOffset target (brokenDown wall) (Dial.second.value wall) .second .minute emptyList =
        pure (some v, brokenDown wall') ∧ target.getLsbD (Dial.second.value wall') = true ∧
      (∀ m, wall ≤ m → target.getLsbD (Dial.second.value m) = true → wall' ≤ m) ∧
      ((v = Dial.second.value wall ∧ wall' = wall) ∨ (v ≠ Dial.second.value wall ∧ wall < wall')) := by
  cases hset : target.getLsbD (Dial.second.value wall) with
  | true =>
      exact ⟨wall, _, findNextValue_stay (d := .second) _ _ hset, hset, fun m hm _ => hm, .inl ⟨rfl, rfl⟩⟩
  | false =>
      obtain ⟨wall', v, hv, hturned, heq⟩ := findNextValue_turn (d := .second) emptyList hne hoff hset
      have hlater := hturned.later
      refine ⟨wall', v, ?_, hturned.allowed, fun m hm hallowed => ?_, .inr ⟨hv, hlater⟩⟩
      · rw [resetAllFields_empty, pure_bind] at heq
        exact heq
      · have hle := hturned.first m hm hallowed
        simpa only [Dial.count, Dial.field, unit, Int.ediv_one] using hle

theorem second_stay (utcOffset : Int) (marked : MarkedFields) {target : BitVec 60}
    (h : target.getLsbD (Dial.second.value wall) = true) :
    findNextValue utcOffset target (brokenDown wall) (Dial.second.value wall) .second .minute marked =
      pure (some (Dial.second.value wall), brokenDown wall) := findNextValue_stay (d := .second) utcOffset marked h

theorem minute_stay (utcOffset : Int) (marked : MarkedFields) {target : BitVec 60}
    (h : target.getLsbD (Dial.minute.value wall) = true) :
    findNextValue utcOffset target (brokenDown wall) (Dial.minute.value wall) .minute .hourOfDay marked =
      pure (some (Dial.minute.value wall), brokenDown wall) := findNextValue_stay (d := .minute) utcOffset marked h

theorem hour_stay (utcOffset : Int) (marked : MarkedFields) {target : BitVec 24}
    (h : target.getLsbD (Dial.hour.value wall) = true) :
    findNextValue utcOffset target (brokenDown wall) (Dial.hour.value wall) .hourOfDay .dayOfWeek marked =
      pure (some (Dial.hour.value wall), brokenDown wall) := findNextValue_stay (d := .hour) utcOffset marked h

theorem minute_stage {target : BitVec 60} (hmarks : MarksAbove marked []) (hne : ∃ i, target.getLsbD i = true)
    (hoff : utcOffset ≤ wall) (h : target.getLsbD (Dial.minute.value wall) = false) :
    ∃ wall' v, v ≠ Dial.minute.value wall ∧
      Advanced (fun m => target.getLsbD (Dial.minute.value m) = true) marked wall wall' ∧
      findNextValue utcOffset target (brokenDown wall) (Dial.minute.value wall) .minute .hourOfDay marked =
        pure (some v, brokenDown wall') :=
  dial_stage (d := .minute) (by decide) (loweredAll_minute hmarks) hmarks (by decide) (by decide) (by decide) hne
    hoff h

theorem hour_stage {target : BitVec 24} (hmarks : MarksAbove marked [.minute])
    (hne : ∃ i, target.getLsbD i = true) (hoff : utcOffset ≤ wall)
    (h : target.getLsbD (Dial.hour.value wall) = false) :
    ∃ wall' v, v ≠ Dial.hour.value wall ∧
      Advanced (fun m => target.getLsbD (Dial.hour.value m) = true) marked wall wall' ∧
      findNextValue utcOffset target (brokenDown wall) (Dial.hour.value wall) .hourOfDay .dayOfWeek marked =
        pure (some v, brokenDown wall') :=
  dial_stage (d := .hour) (by decide) (loweredAll_hour hmarks) hmarks (by decide) (by decide) (by decide) hne hoff h

end Dials

section Days

variable {utcOffset : Int} {marked : MarkedFields} {cex : CronExpr}

def dayOk (cex : CronExpr) (n : Int) : Bool :=
  cex.daysOfMonth.getLsbD ((dayOfMonth n).toNat - cronMinDaysOfMonth) &&
    cex.daysOfWeek.getLsbD ((dayOfWeek n).toNat - cronMinDaysOfWeek)

theorem findNextDay_stay {steps : Nat} {date : Tm} {n : Int} (h : dayOk cex n = true) :
    findNextDay utcOffset cex marked steps date (dayOfMonth n).toNat (dayOfWeek n).toNat =
      pure ((dayOfMonth n).toNat, date) := by
  cases steps with
  | zero => rfl
  | succ steps =>
      rw [dayOk, Bool.and_eq_true] at h
      rw [findNextDay, h.1, h.2]
      rfl

theorem findNextDay_spec (hmarks : MarksAbove marked [.hourOfDay, .minute]) {k steps : Nat} (hk : k ≤ steps)
    {n wall : Int} (hn : wall / 86400 = n) (hoff : utcOffset ≤ wall)
    (hskipped : ∀ j < k, dayOk cex (n + (j : Nat)) = false) (hfound : dayOk cex (n + k) = true) :
    findNextDay utcOffset cex marked steps (brokenDown wall) (dayOfMonth n).toNat (dayOfWeek n).toNat =
      pure ((dayOfMonth (n + k)).toNat,
        brokenDown (if k = 0 then wall else (n + k) * 86400 + kept marked wall)) := by
  induction k generalizing steps n wall with
  | zero =>
      rw [Int.natCast_zero, Int.add_zero] at *
      exact findNextDay_stay hfound
  | succ k ih =>
      obtain ⟨steps, rfl⟩ : ∃ s, steps = s + 1 := ⟨steps - 1, by omega⟩
      have hno : dayOk cex n = false := by simpa using hskipped 0 (Nat.succ_pos k)
      have hday : (wall + 86400) / 86400 = n + 1 := by omega
      have hkept := kept_bounds marked wall
      have hsame : kept marked (wall + 86400) = kept marked wall := kept_of_same (by omega)
      have hmidnight : loweredAll marked (wall + 86400) = (n + 1) * 86400 + kept marked wall := by
        rw [loweredAll_day hmarks, hday, hsame]
      have hsame' : kept marked ((n + 1) * 86400 + kept marked wall) = kept marked wall := by
        rw [kept, kept]
        split <;> omega
      have hcond : (!cex.daysOfMonth.getLsbD ((dayOfMonth n).toNat - cronMinDaysOfMonth) ||
          !cex.daysOfWeek.getLsbD ((dayOfWeek n).toNat - cronMinDaysOfWeek)) = true := by
        rw [← Bool.not_and, ← dayOk, hno]
        rfl
      have hstep : addToField utcOffset (brokenDown wall) .dayOfMonth 1 = pure (brokenDown (wall + 86400)) := by
        refine normalise_eq ?_ (by omega)
        rw [wallClock_add _ _ (by decide) (by decide), wallClock_brokenDown]
        rfl
      have hreset : resetAllFields utcOffset (brokenDown (wall + 86400)) marked =
          pure (brokenDown ((n + 1) * 86400 + kept marked wall)) := by
        rw [resetAllFields_eq hmarks (by decide) (by decide) (by decide) (by rw [hmidnight]; omega), hmidnight]
      have hskipped' : ∀ j < k, dayOk cex (n + 1 + (j : Nat)) = false := by
        intro j hj
        have hno := hskipped (j + 1) (by omega)
        rwa [show n + (j + 1 : Nat) = n + 1 + j by omega] at hno
      rw [show n + (k + 1 : Nat) = n + 1 + k by omega] at *
      rw [findNextDay, hcond, if_pos rfl, hstep, pure_bind]
      dsimp only
      rw [brokenDown_tmMday, brokenDown_tmWday, hday, hreset, pure_bind,
        ih (Nat.le_of_succ_le_succ hk) (by omega) (by omega) hskipped' hfound, if_neg (Nat.succ_ne_zero k), hsame']
      split
      · next hzero =>
          subst hzero
          rw [Int.natCast_zero, Int.add_zero]
      · rfl

end Days

section Months

variable {utcOffset : Int} {marked : MarkedFields} {target : BitVec 12} {wall : Int}

def monthNumber (wall : Int) : Int := monthOf (wall / 86400)

def monthValue (wall : Int) : Nat := (monthNumber wall % 12).toNat

theorem monthStay {nextField : CronField} (h : target.getLsbD (monthValue wall) = true) :
    findNextValue utcOffset target (brokenDown wall) (monthValue wall) .month nextField marked =
      pure (some (monthValue wall), brokenDown wall) := by
  rw [findNextValue, nextSetBit_self h]
  simp only [pure_bind, if_true]

/-- The time of the day, and the day of the month, in a month of one's choice. -/
def inMonth (wall k : Int) : Int := (monthStart k + dayOfMonth (wall / 86400) - 1) * 86400 + wall % 86400

theorem wallClock_month (wall v : Int) :
    wallClock (Tm.set (brokenDown wall) .month v) = inMonth wall (monthNumber wall / 12 * 12 + v) ∧
    wallClock (Tm.add (brokenDown wall) .year 1) = inMonth wall (monthNumber wall + 12) := by
  have hyear : monthOf (wall / 86400) / 12 - 1900 + 1900 = monthOf (wall / 86400) / 12 := by omega
  have hnext : (monthOf (wall / 86400) / 12 - 1900 + 1 + 1900) * 12 + monthOf (wall / 86400) % 12 =
      monthOf (wall / 86400) + 12 := by omega
  constructor
  · simp only [Tm.set, wallClock, inMonth, monthNumber, brokenDown_tmYear, brokenDown_tmMday, brokenDown_tmHour,
      brokenDown_tmMin, brokenDown_tmSec, hyear]
    omega
  · simp only [Tm.add, wallClock, inMonth, monthNumber, brokenDown_tmYear, brokenDown_tmMday, brokenDown_tmHour,
      brokenDown_tmMin, brokenDown_tmSec, brokenDown_tmMon, hnext]
    omega

theorem inMonth_day (wall k : Int) : inMonth wall k / 86400 = monthStart k + dayOfMonth (wall / 86400) - 1 := by
  rw [inMonth]
  omega

theorem dayOfMonth_le (n : Int) : dayOfMonth n ≤ 31 := by
  have hday := (dayOfMonth_bounds n).2
  have hlength := (lengthOfMonth_bounds (monthOf n)).2
  omega

/-- A day that the month has not got is one of the next. -/
theorem monthNumber_inMonth (wall k : Int) :
    (dayOfMonth (wall / 86400) ≤ lengthOfMonth k ∧ monthNumber (inMonth wall k) = k ∧
      dayOfMonth (inMonth wall k / 86400) = dayOfMonth (wall / 86400)) ∨
    (lengthOfMonth k < dayOfMonth (wall / 86400) ∧ monthNumber (inMonth wall k) = k + 1 ∧
      dayOfMonth (inMonth wall k / 86400) ≤ 3) := by
  have hday := (dayOfMonth_bounds (wall / 86400)).1
  have hlast := dayOfMonth_le (wall / 86400)
  have hlength := lengthOfMonth_bounds k
  rw [monthNumber, inMonth_day]
  by_cases hlong : dayOfMonth (wall / 86400) ≤ lengthOfMonth k
  · exact .inl ⟨hlong, named_day hday hlong⟩
  · have hmonth := overlong_day (k := k) (Int.lt_of_not_ge hlong) hlast
    refine .inr ⟨by omega, hmonth, ?_⟩
    rw [dayOfMonth, hmonth, monthStart_succ]
    omega

theorem inMonth_self (wall : Int) : inMonth wall (monthNumber wall) = wall := by
  have hday := eq_monthStart_add (wall / 86400)
  rw [inMonth, monthNumber, ← hday]
  omega

theorem inMonth_lt (wall : Int) {j k : Int} (h : j < k) : inMonth wall j < inMonth wall k := by
  have hlt := monthStart_lt_iff.mpr h
  rw [inMonth, inMonth]
  omega

theorem lt_of_monthNumber_lt {w w' : Int} (h : monthNumber w < monthNumber w') : w < w' := by
  by_contra hno
  have hmono : monthOf (w' / 86400) ≤ monthOf (w / 86400) := monthOf_mono (by omega)
  rw [monthNumber, monthNumber] at h
  omega

theorem kept_inMonth (k : Int) : kept marked (inMonth wall k) = kept marked wall := by
  refine kept_of_same ?_
  rw [inMonth]
  omega

theorem lengthOfMonth_ends {k : Int} (h : k % 12 = 0 ∨ k % 12 = 11) : lengthOfMonth k = 31 := by
  rcases h with h | h <;> rw [lengthOfMonth, h] <;> rfl

theorem setField_month {k v : Int} (hk : monthNumber wall / 12 * 12 + v = k) (hoff : utcOffset ≤ inMonth wall k) :
    setField utcOffset (brokenDown wall) .month v = pure (brokenDown (inMonth wall k)) := by
  rw [setField]
  refine normalise_eq ?_ hoff
  rw [(wallClock_month wall v).1, hk]

/-- The next allowed month, from the present one on; it is gone over when the day
of the month, which is set back only afterwards, is past its end. -/
structure Rolled (target : BitVec 12) (wall : Int) (next reached : Int) : Prop where
  later : monthNumber wall < next
  first : ∀ j, monthNumber wall ≤ j → target.getLsbD (j % 12).toNat = true → next ≤ j
  reached : reached = next ∨ (reached = next + 1 ∧ lengthOfMonth next < dayOfMonth (wall / 86400))

theorem lt_monthStart {k : Int} (h : monthNumber wall < k) : wall < monthStart k * 86400 := by
  have hlt := (monthOf_spec (wall / 86400)).2
  rw [monthNumber] at h
  rcases Int.lt_or_eq_of_le (Int.add_one_le_of_lt h) with hk | hk
  · have hmono := monthStart_lt_iff.mpr hk
    omega
  · rw [← hk]
    omega

theorem Rolled.lt {next reached : Int} (h : Rolled target wall next reached) : wall < monthStart reached * 86400 := by
  have hlater := h.later
  refine lt_monthStart ?_
  rcases h.reached with hr | ⟨hr, _⟩ <;> omega

theorem resetAllFields_month (hmarks : MarksAbove marked [.dayOfMonth, .hourOfDay, .minute]) {w reached : Int}
    (hr : monthNumber w = reached) (hoff : utcOffset ≤ monthStart reached * 86400) :
    resetAllFields utcOffset (brokenDown w) marked = pure (brokenDown (monthStart reached * 86400 + kept marked w)) := by
  have hkept := kept_bounds marked w
  have hlow : loweredAll marked w = monthStart reached * 86400 + kept marked w := by
    rw [loweredAll_month hmarks, ← hr, ← monthNumber]
  rw [resetAllFields_eq hmarks (by decide) (by decide) (by decide) (by rw [hlow]; omega), hlow]

section Present

variable {v : Nat}

/-- There is an allowed month left in the year. -/
theorem rolled_within (hn : nextSetBit target (monthValue wall) = some v) (hne : v ≠ monthValue wall) :
    Rolled target wall (monthNumber wall / 12 * 12 + v)
      (monthNumber (inMonth wall (monthNumber wall / 12 * 12 + v))) := by
  obtain ⟨hle, hv, hset, hfirst⟩ := nextSetBit_some hn
  have hvalue : (monthValue wall : Int) = monthNumber wall % 12 := by
    rw [monthValue]
    omega
  refine ⟨by omega, fun j hj hallowed => ?_, ?_⟩
  · by_contra hno
    rw [hfirst (j % 12).toNat (by omega) (by omega)] at hallowed
    cases hallowed
  · rcases monthNumber_inMonth wall (monthNumber wall / 12 * 12 + v) with ⟨_, hmonth, _⟩ | ⟨hshort, hmonth, _⟩
    · exact .inl hmonth
    · exact .inr ⟨hmonth, hshort⟩

/-- Where the clock stands in January of the next year: a day that the month has
not got then is the first of March at most. -/
def newYear (wall : Int) : Int := inMonth (inMonth wall (monthNumber wall + 12)) ((monthNumber wall / 12 + 1) * 12)

theorem nextYear (wall : Int) : monthNumber (inMonth wall (monthNumber wall + 12)) / 12 = monthNumber wall / 12 + 1 := by
  rcases monthNumber_inMonth wall (monthNumber wall + 12) with ⟨_, hmonth, _⟩ | ⟨hshort, hmonth, _⟩
  · omega
  · have hlast : (monthNumber wall + 12) % 12 ≠ 11 := by
      intro hlast
      rw [lengthOfMonth_ends (.inr hlast)] at hshort
      have hday := dayOfMonth_le (wall / 86400)
      omega
    omega

theorem newYear_spec (wall : Int) : monthNumber (newYear wall) = (monthNumber wall / 12 + 1) * 12 ∧
    (dayOfMonth (newYear wall / 86400) = dayOfMonth (wall / 86400) ∨ dayOfMonth (newYear wall / 86400) ≤ 3) := by
  have hjanuary := lengthOfMonth_ends (k := (monthNumber wall / 12 + 1) * 12) (.inl (by omega))
  have hday := dayOfMonth_le (inMonth wall (monthNumber wall + 12) / 86400)
  rcases monthNumber_inMonth (inMonth wall (monthNumber wall + 12)) ((monthNumber wall / 12 + 1) * 12) with
    ⟨_, hmonth, hsame⟩ | ⟨hshort, _⟩
  · refine ⟨hmonth, ?_⟩
    rw [newYear, hsame]
    rcases monthNumber_inMonth wall (monthNumber wall + 12) with ⟨_, _, hday⟩ | ⟨_, _, hday⟩
    · exact .inl hday
    · exact .inr hday
  · omega

theorem rolled_over (hn : nextSetBit target (monthValue wall) = none) (hfirst : nextSetBit target 0 = some v) :
    Rolled target wall ((monthNumber wall / 12 + 1) * 12 + v)
      (monthNumber (inMonth (newYear wall) ((monthNumber wall / 12 + 1) * 12 + v))) := by
  obtain ⟨_, hv, hset, hleast⟩ := nextSetBit_some hfirst
  have hvalue : (monthValue wall : Int) = monthNumber wall % 12 := by
    rw [monthValue]
    omega
  obtain ⟨_, hday⟩ := newYear_spec wall
  refine ⟨by omega, fun j hj hallowed => ?_, ?_⟩
  · have hnext : (j % 12).toNat < monthValue wall := by
      by_contra hno
      rw [nextSetBit_none hn (by omega)] at hallowed
      cases hallowed
    have hleast : v ≤ (j % 12).toNat := by
      by_contra hno
      rw [hleast (j % 12).toNat (Nat.zero_le _) (by omega)] at hallowed
      cases hallowed
    omega
  · rcases monthNumber_inMonth (newYear wall) ((monthNumber wall / 12 + 1) * 12 + v) with
      ⟨_, hmonth, _⟩ | ⟨hshort, hmonth, _⟩
    · exact .inl hmonth
    · have hlength := lengthOfMonth_bounds ((monthNumber wall / 12 + 1) * 12 + v)
      exact .inr ⟨hmonth, by omega⟩

end Present

theorem month_stage (hmarks : MarksAbove marked [.dayOfMonth, .hourOfDay, .minute])
    (hne : ∃ i, target.getLsbD i = true) (hoff : utcOffset ≤ wall) (h : target.getLsbD (monthValue wall) = false) :
    ∃ next reached v, v ≠ monthValue wall ∧ Rolled target wall next reached ∧
      findNextValue utcOffset target (brokenDown wall) (monthValue wall) .month .year marked =
        pure (some v, brokenDown (monthStart reached * 86400 + kept marked wall)) := by
  cases hn : nextSetBit target (monthValue wall) with
  | some v =>
      have hne : v ≠ monthValue wall := by
        rintro rfl
        rw [(nextSetBit_some hn).2.2.1] at h
        cases h
      have hrolled := rolled_within hn hne
      have hstart := hrolled.lt
      have hwall := inMonth_lt wall hrolled.later
      rw [inMonth_self] at hwall
      refine ⟨_, _, v, hne, hrolled, ?_⟩
      rw [findNextValue, hn]
      simp only [pure_bind, Option.some.injEq, hne, if_false, Option.elim, Int.ofNat_eq_natCast]
      rw [setField_month rfl (by omega), pure_bind, resetAllFields_month hmarks rfl (by omega), pure_bind, kept_inMonth]
  | none =>
      obtain ⟨i, hi⟩ := hne
      cases hfirst : nextSetBit target 0 with
      | none =>
          rw [nextSetBit_none hfirst (Nat.zero_le i)] at hi
          cases hi
      | some v =>
          have hne : v ≠ monthValue wall := by
            rintro rfl
            rw [(nextSetBit_some hfirst).2.2.1] at h
            cases h
          have hrolled := rolled_over hn hfirst
          have hstart := hrolled.lt
          have hmonth := (newYear_spec wall).1
          have hyear := inMonth_lt wall (k := monthNumber wall + 12) (j := monthNumber wall) (by omega)
          rw [inMonth_self] at hyear
          have hjanuary : wall < newYear wall := lt_of_monthNumber_lt (by omega)
          have hput : wall < inMonth (newYear wall) ((monthNumber wall / 12 + 1) * 12 + v) := by
            refine lt_of_monthNumber_lt ?_
            have hlater := hrolled.later
            rcases hrolled.reached with hr | ⟨hr, _⟩ <;> omega
          have hkept : kept marked (inMonth (newYear wall) ((monthNumber wall / 12 + 1) * 12 + v)) = kept marked wall := by
            rw [kept_inMonth, newYear, kept_inMonth, kept_inMonth]
          have hadd : addToField utcOffset (brokenDown wall) .year 1 =
              pure (brokenDown (inMonth wall (monthNumber wall + 12))) :=
            normalise_eq (wallClock_month wall 0).2 (by omega)
          have hreset : resetField utcOffset (brokenDown (inMonth wall (monthNumber wall + 12))) .month =
              pure (brokenDown (newYear wall)) :=
            setField_month (by rw [nextYear, if_neg (by decide), Int.add_zero]) (by rw [← newYear]; omega)
          have hset : setField utcOffset (brokenDown (newYear wall)) .month v =
              pure (brokenDown (inMonth (newYear wall) ((monthNumber wall / 12 + 1) * 12 + v))) :=
            setField_month (by omega) (by omega)
          refine ⟨_, _, v, hne, hrolled, ?_⟩
          rw [findNextValue, hn]
          simp only [hadd, hreset, pure_bind, hfirst, Option.some.injEq, hne, if_false, Option.elim,
            Int.ofNat_eq_natCast]
          rw [hset, pure_bind, resetAllFields_month hmarks rfl (by omega), pure_bind, hkept]

end Months

end MigangBot.CronStages
