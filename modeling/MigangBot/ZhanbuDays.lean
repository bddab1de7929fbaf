import MigangBot.LocalTime
import MigangBot.ZhanbuStability

namespace MigangBot.ZhanbuDays

open Lib.Exceptions Lib.Maps Text ApiTypes Zhanbu ZhanbuStability

section Clock

variable (utcOffset : Int)

/-- std::localtime and std::mktime of the zone, with year, month, day and weekday as
the date. -/
def localCalendar : Calendar where
  Date := Int × Int × Int × Int
  localtime t :=
    let date := LocalTime.localtime utcOffset t
    ⟨(date.tmYear, date.tmMon, date.tmMday, date.tmWday), date.tmHour, date.tmMin, date.tmSec⟩
  mktime tm :=
    let (year, mon, mday, wday) := tm.date
    (LocalTime.mktime utcOffset ⟨tm.sec, tm.min, tm.hour, mday, mon, year, wday⟩).1

def localDay (t : Int) : Int := (t + utcOffset) / 86400

def atLastSecond (t : Int) : Bool := (t + utcOffset) % 86400 == 86399

theorem getCurrentLocalTimeStamp_eq (t : Int) : getCurrentLocalTimeStamp (localCalendar utcOffset) t = t :=
  congrArg Prod.fst (LocalTime.mktime_localtime utcOffset t)

theorem lastSecondOfToday_eq (t : Int) :
    lastSecondOfToday (localCalendar utcOffset) t = localDay utcOffset t * 86400 + 86399 - utcOffset := by
  have hday := Lib.Calendar.eq_monthStart_add ((t + utcOffset) / 86400)
  change LocalTime.wallClock { LocalTime.brokenDown (t + utcOffset) with tmHour := 23, tmMin := 59, tmSec := 59 } -
    utcOffset = _
  simp only [LocalTime.wallClock, LocalTime.brokenDown_tmYear, LocalTime.brokenDown_tmMon,
    LocalTime.brokenDown_tmMday, LocalTime.month_of_fields]
  rw [← hday, localDay]
  omega

/-- A record expires with the day, and one second before it. -/
theorem lastSecondOfToday_le_iff {t t' : Int} (h : t ≤ t') :
    lastSecondOfToday (localCalendar utcOffset) t ≤ t' ↔
      localDay utcOffset t < localDay utcOffset t' ∨ atLastSecond utcOffset t' = true := by
  rw [lastSecondOfToday_eq, atLastSecond, localDay, localDay, beq_iff_eq]
  omega

end Clock

section Runs

variable (utcOffset : Int) (basemapPath : Bytes → Bytes)

/-- The table, and the requests so far that drew. -/
structure Progress where
  table : ZhanbuResults
  draws : List Request

def Progress.start : Progress := ⟨∅, []⟩

def Progress.after (s : Progress) (r : Request) : Progress where
  table := (getEorzeaZhanbu (localCalendar utcOffset) basemapPath s.table r).1
  draws := if Fresh (localCalendar utcOffset) s.table r then s.draws ++ [r] else s.draws

def served (rs : List Request) : Progress := rs.foldl (Progress.after utcOffset basemapPath) .start

/-- The clock goes forward: over each call, and from one call to the next. -/
structure Timely (rs : List Request) : Prop where
  within : ∀ r ∈ rs, 0 ≤ r.now ∧ r.now ≤ r.recordedAt
  between : rs.Pairwise fun r r' => r.recordedAt ≤ r'.now

end Runs

section Days

variable {utcOffset : Int} {basemapPath : Bytes → Bytes} {s : Progress} {past : List Request} {r : Request}

def lastDraw (draws : List Request) (uid : QId) : Option Request := (draws.filter fun p => p.uid = uid).getLast?

/-- Every user's row is that of the last draw, and the draws are some of the
requests, in their order. -/
structure Kept (utcOffset : Int) (past : List Request) (s : Progress) : Prop where
  table : ∀ uid, s.table.lookup uid = (lastDraw s.draws uid).map (Request.row (localCalendar utcOffset))
  draws : s.draws.Sublist past

theorem lastDraw_snoc (draws : List Request) (r : Request) (uid : QId) :
    lastDraw (draws ++ [r]) uid = if r.uid = uid then some r else lastDraw draws uid := by
  rw [lastDraw, List.filter_append, List.filter_singleton]
  by_cases h : r.uid = uid
  · simp [h]
  · simp [h, lastDraw]

theorem lastDraw_mem {draws : List Request} {uid : QId} {p : Request} (h : lastDraw draws uid = some p) :
    p ∈ draws ∧ p.uid = uid := by
  have hmem := List.mem_filter.mp (List.mem_of_getLast? h)
  exact ⟨hmem.1, of_decide_eq_true hmem.2⟩

theorem kept_start : Kept utcOffset [] .start := by
  refine ⟨fun uid => ?_, List.Sublist.refl []⟩
  exact AList.lookup_empty uid

theorem getEorzeaZhanbu_kept {cal : Calendar} {t : ZhanbuResults} (h : ¬ Fresh cal t r) :
    (getEorzeaZhanbu cal basemapPath t r).1 = t := by
  rw [getEorzeaZhanbu]
  split
  next text0 text1 text2 text3 text4 text5 expireTime heq =>
    rw [Fresh, heq] at h
    rw [if_neg h]

theorem Kept.after (h : Kept utcOffset past s) (hr : r.stored (localCalendar utcOffset) = true) :
    Kept utcOffset (past ++ [r]) (s.after utcOffset basemapPath r) := by
  by_cases hfresh : Fresh (localCalendar utcOffset) s.table r
  · have htable : (s.after utcOffset basemapPath r).table =
        s.table.insert r.uid (r.row (localCalendar utcOffset)) := by
      rw [Progress.after, getEorzeaZhanbu_fresh hfresh, recordZhanbu_stored hr]
    have hdraws : (s.after utcOffset basemapPath r).draws = s.draws ++ [r] := if_pos hfresh
    refine ⟨fun uid => ?_, ?_⟩
    · rw [htable, hdraws, lookup_insert_eq, lastDraw_snoc, h.table]
      by_cases hu : r.uid = uid
      · rw [if_pos hu.symm, if_pos hu, Option.map_some]
      · rw [if_neg (Ne.symm hu), if_neg hu]
    · rw [hdraws]
      exact h.draws.append_right [r]
  · have htable : (s.after utcOffset basemapPath r).table = s.table := getEorzeaZhanbu_kept hfresh
    have hdraws : (s.after utcOffset basemapPath r).draws = s.draws := if_neg hfresh
    refine ⟨fun uid => ?_, ?_⟩
    · rw [htable, hdraws]
      exact h.table uid
    · rw [hdraws]
      exact h.draws.trans (List.sublist_append_left past [r])

theorem served_kept {rs : List Request} (hs : ∀ r ∈ rs, r.stored (localCalendar utcOffset) = true) :
    Kept utcOffset rs (served utcOffset basemapPath rs) := by
  induction rs using List.reverseRecOn with
  | nil => exact kept_start
  | append_singleton rs r ih =>
      rw [served, List.foldl_append]
      exact (ih fun p hp => hs p (List.mem_append_left _ hp)).after
        (hs r (List.mem_append_right _ (List.mem_singleton_self r)))

/-- The later of two draws was made no earlier. -/
theorem recordedAt_le {draws : List Request} (ht : Timely draws) {p q : Request} (hq : lastDraw draws q.uid = some q)
    (hp : p ∈ draws) (hu : p.uid = q.uid) : p.recordedAt ≤ q.recordedAt := by
  have hmem : p ∈ draws.filter fun p => p.uid = q.uid := List.mem_filter.mpr ⟨hp, decide_eq_true hu⟩
  obtain ⟨before, hsplit⟩ := List.getLast?_eq_some_iff.mp hq
  have hpairwise := ht.between.filter fun p => p.uid = q.uid
  rw [hsplit] at hmem hpairwise
  rcases List.mem_append.mp hmem with hmem | hmem
  · have hle := (List.pairwise_append.mp hpairwise).2.2 p hmem q (List.mem_singleton_self q)
    exact hle.trans (ht.within q (lastDraw_mem hq).1).2
  · rw [List.mem_singleton.mp hmem]

theorem Timely.sublist {rs rs' : List Request} (h : Timely rs') (hsub : rs.Sublist rs') : Timely rs :=
  ⟨fun r hr => h.within r (hsub.subset hr), h.between.sublist hsub⟩

theorem fresh_of_lastDraw {p : Request} (hkept : Kept utcOffset past s) (hp : lastDraw s.draws r.uid = some p)
    (hnow : 0 ≤ r.now) : Fresh (localCalendar utcOffset) s.table r ↔
      lastSecondOfToday (localCalendar utcOffset) p.recordedAt ≤ r.now := by
  have hrow : s.table.lookup r.uid = some (p.row (localCalendar utcOffset)) := by
    rw [hkept.table, hp, Option.map_some]
  rw [Fresh, record_of_lookup hrow, expired, getCurrentLocalTimeStamp_eq, Bool.or_eq_true, decide_eq_true_eq,
    decide_eq_true_eq]
  constructor
  · rintro (hzero | hle)
    · change lastSecondOfToday (localCalendar utcOffset) p.recordedAt = 0 at hzero
      rw [hzero]
      exact hnow
    · exact hle
  · exact .inr

theorem fresh_of_noDraw (hkept : Kept utcOffset past s) (hnone : lastDraw s.draws r.uid = none) :
    Fresh (localCalendar utcOffset) s.table r := by
  have hrow : s.table.lookup r.uid = none := by rw [hkept.table, hnone, Option.map_none]
  rw [Fresh, getZhanbuRecord, hrow]
  rfl

/-- A user gets one card for each local day: a request draws exactly when the user
has not drawn on its day yet, or in the last second of it, and shows the card of
that day's draw otherwise, with two texts exchanged. -/
theorem one_draw_a_day {before after : List Request}
    (hs : ∀ p ∈ before ++ r :: after, p.stored (localCalendar utcOffset) = true)
    (ht : Timely (before ++ r :: after)) :
    (Fresh (localCalendar utcOffset) (served utcOffset basemapPath before).table r ↔
      (∀ p ∈ (served utcOffset basemapPath before).draws, p.uid = r.uid →
        localDay utcOffset p.recordedAt < localDay utcOffset r.now) ∨ atLastSecond utcOffset r.now = true) ∧
    (¬ Fresh (localCalendar utcOffset) (served utcOffset basemapPath before).table r →
      ∃ p ∈ (served utcOffset basemapPath before).draws, p.uid = r.uid ∧
        localDay utcOffset p.recordedAt = localDay utcOffset r.now ∧
        (getEorzeaZhanbu (localCalendar utcOffset) basemapPath (served utcOffset basemapPath before).table r).2 =
          exchanged (p.freshCard basemapPath)) := by
  have hkept : Kept utcOffset before (served utcOffset basemapPath before) :=
    served_kept fun p hp => hs p (List.mem_append_left _ hp)
  have hdraws : Timely (served utcOffset basemapPath before).draws :=
    ht.sublist (hkept.draws.trans (List.sublist_append_left _ _))
  have hnow := (ht.within r (List.mem_append_right _ List.mem_cons_self)).1
  cases hlast : lastDraw (served utcOffset basemapPath before).draws r.uid with
  | none =>
      have hfresh := @fresh_of_noDraw _ _ _ r hkept hlast
      refine ⟨iff_of_true hfresh (.inl fun p hp hu => ?_), fun h => absurd hfresh h⟩
      rw [lastDraw, List.getLast?_eq_none_iff, List.filter_eq_nil_iff] at hlast
      exact absurd (decide_eq_true hu) (hlast p hp)
  | some q =>
      obtain ⟨hq, hqu⟩ := lastDraw_mem hlast
      have hle : q.recordedAt ≤ r.now :=
        (List.pairwise_append.mp ht.between).2.2 q (hkept.draws.subset hq) r List.mem_cons_self
      have hfresh := (fresh_of_lastDraw hkept hlast hnow).trans (lastSecondOfToday_le_iff utcOffset hle)
      have hmono {p : Request} (hp : p ∈ (served utcOffset basemapPath before).draws) (hu : p.uid = r.uid) :
          localDay utcOffset p.recordedAt ≤ localDay utcOffset q.recordedAt := by
        have := recordedAt_le hdraws (hqu ▸ hlast) hp (hu.trans hqu.symm)
        rw [localDay, localDay]
        omega
      refine ⟨hfresh.trans (or_congr_left ?_), fun h => ?_⟩
      · exact ⟨fun h p hp hu => (hmono hp hu).trans_lt h, fun h => h q hq hqu⟩
      have hsame : ¬ localDay utcOffset q.recordedAt < localDay utcOffset r.now :=
        fun hlt => h (hfresh.mpr (.inl hlt))
      refine ⟨q, hq, hqu, ?_, ?_⟩
      · rw [localDay, localDay] at hsame ⊢
        omega
      · have hrow : (served utcOffset basemapPath before).table.lookup r.uid =
            some (q.row (localCalendar utcOffset)) := by
          rw [hkept.table, hlast, Option.map_some]
        rw [Fresh, record_of_lookup hrow] at h
        rw [getEorzeaZhanbu_recorded hrow, if_neg h]

/-- Eight hours east of UTC, a request ten seconds after the first one and one a day
later. -/
theorem one_draw_a_day_beijing :
    ¬ Fresh (localCalendar 28800) (served 28800 id [asking 1650604529]).table (asking 1650604539) ∧
      Fresh (localCalendar 28800) (served 28800 id [asking 1650604529]).table (asking 1650690929) := by
  have hagain := @one_draw_a_day 28800 id (asking 1650604539) [asking 1650604529] [] (by decide +kernel)
    ⟨by decide, by decide⟩
  have hnext := @one_draw_a_day 28800 id (asking 1650690929) [asking 1650604529] [] (by decide +kernel)
    ⟨by decide, by decide⟩
  exact ⟨fun h => absurd (hagain.1.mp h) (by decide +kernel), hnext.1.mpr (by decide +kernel)⟩

end Days

end MigangBot.ZhanbuDays
