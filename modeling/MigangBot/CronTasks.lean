import MigangBot.CronText
import MigangBot.CronSchedule

namespace MigangBot.CronTasks

open Lib.Maps Lib.Multimaps Lib.Runs Text LocalTime Scheduling SchedulerSteps SchedulerBookkeeping CronSearch CronStages
  CronExactness CronNext CronExpression CronGrammar CronSchedule

variable (utcOffset : Int)

/-- The expressions that cron_next returns for, from every instant since 1970. With
another one Scheduler::cron or the managing thread would not go on. -/
abbrev TaskExpr :=
  { cex : CronExpr // ∀ t, 0 ≤ t → ∃ r, cronNext utcOffset searchFuel cex t = some (.ok r) }

theorem returns_of_searchable {cex : CronExpr} (h : Searchable cex) :
    ∀ t, 0 ≤ t → ∃ r, cronNext utcOffset searchFuel cex t = some (.ok r) := by
  intro t ht
  obtain ⟨r, heq, _⟩ := cronNext_returns h ht (Nat.le_refl searchFuel)
  exact ⟨r, heq⟩

/-- The cron_next of a task. -/
def nextTime (e : TaskExpr utcOffset) (t : Int) : Int :=
  ((cronNext utcOffset searchFuel e.1 t).bind Except.toOption).getD invalidTime

/-- A search goes past no match of such an expression: every month is allowed and
the allowed seconds have no gap. -/
structure Exact (cex : CronExpr) : Prop extends Searchable cex where
  everyMonth : ∀ i < 12, cex.months.getLsbD i = true
  noGap : ∀ i j k, i < j → j < k → cex.seconds.getLsbD i = true → cex.seconds.getLsbD k = true →
    cex.seconds.getLsbD j = true

theorem Exact.settled {cex : CronExpr} (h : Exact cex) (wall : Int) : Settled cex wall := by
  rintro ⟨hno, ⟨i, hi, hbit⟩, k, hk, hbit'⟩
  rw [h.noGap i _ k hi hk hbit hbit'] at hno
  cases hno

def Due (e : TaskExpr utcOffset) (m : Int) : Prop := Matching e.1 (m + utcOffset)

variable {e : TaskExpr utcOffset}

/-- The first match after an instant. -/
theorem nextTime_spec (hexact : Exact e.1) {t : Int} (ht : 0 ≤ t) :
    t < nextTime utcOffset e t ∧ Due utcOffset e (nextTime utcOffset e t) ∧
      ∀ m, Due utcOffset e m → t < m → nextTime utcOffset e t ≤ m := by
  obtain ⟨r, heq, hnext⟩ : ∃ r, cronNext utcOffset searchFuel e.1 t = some (.ok r) ∧ Next utcOffset e.1 t r :=
    cronNext_spec hexact.toSearchable ht (Nat.le_refl searchFuel)
  have hr : nextTime utcOffset e t = r := by
    rw [nextTime, heq]
    rfl
  rw [hr]
  cases hnext with
  | found later matching first =>
      exact ⟨later, matching, fun m hm hlt => first (.inr (hexact.settled _)) m hlt ⟨hm, .inl hexact.everyMonth⟩⟩
  | none _ restricted _ =>
      obtain ⟨i, hi, hno⟩ := restricted
      rw [hexact.everyMonth i hi] at hno
      cases hno

variable {utcOffset}

theorem nextTime_eq (hexact : Exact e.1) {t t' : Int} (ht : 0 ≤ t) (hle : t ≤ t')
    (hlt : t' < nextTime utcOffset e t) : nextTime utcOffset e t' = nextTime utcOffset e t := by
  obtain ⟨_, hdue, hfirst⟩ := nextTime_spec utcOffset hexact ht
  obtain ⟨hlater', hdue', hfirst'⟩ := nextTime_spec utcOffset hexact (Int.le_trans ht hle)
  exact Int.le_antisymm (hfirst' _ hdue hlt) (hfirst _ hdue' (Int.lt_of_le_of_lt hle hlater'))

section Launches

variable {registered : Time} {i : Nat} {s t : Scheduler (TaskExpr utcOffset)}

def dues (s : Scheduler (TaskExpr utcOffset)) (i : Nat) : List Time := (launchesOf s i).map Prod.fst

/-- The launches of a task so far, with what waits in the queue for it. -/
structure InOrder (utcOffset : Int) (e : TaskExpr utcOffset) (registered : Time) (i : Nat)
    (s : Scheduler (TaskExpr utcOffset)) : Prop where
  cron : IsCron e i s
  sorted : (dues s i).Pairwise (· < ·)
  launched : ∀ p ∈ launchesOf s i, (∃ m, Due utcOffset e m ∧ p.1 = fromTimeT m) ∧ registered < p.1 ∧ p.1 ≤ p.2
  pending : ∀ d, (d, i) ∈ s.tasks.entries → (∃ m, Due utcOffset e m ∧ d = fromTimeT m) ∧ registered < d ∧
    ∀ p ∈ launchesOf s i, p.1 < d

/-- No match is left out before a launch, or before the entry that waits. -/
def Complete (utcOffset : Int) (e : TaskExpr utcOffset) (registered : Time) (i : Nat)
    (s : Scheduler (TaskExpr utcOffset)) : Prop :=
  ∀ m, Due utcOffset e m → registered < fromTimeT m →
    ((∃ p ∈ launchesOf s i, fromTimeT m ≤ p.1) ∨ ∃ d, (d, i) ∈ s.tasks.entries ∧ fromTimeT m < d) →
      fromTimeT m ∈ dues s i

/-- A tick that launches the task reads the clock at an instant that is not before
the one the task was due at. -/
def NotSetBack (i : Nat) (s : Scheduler (TaskExpr utcOffset)) : Action (TaskExpr utcOffset) → Prop
  | .tick now readings => s.alive i = true → ∀ d, (d, i) ∈ s.tasks.entries → d ≤ now → d ≤ readings i
  | _ => True

/-- Besides, that instant is before the next match. -/
def OnTime (utcOffset : Int) (e : TaskExpr utcOffset) (i : Nat) (s : Scheduler (TaskExpr utcOffset)) :
    Action (TaskExpr utcOffset) → Prop
  | .tick now readings => s.alive i = true → ∀ d, (d, i) ∈ s.tasks.entries → d ≤ now → d ≤ readings i ∧
      readings i < fromTimeT (nextTime utcOffset e (toTimeT d))
  | _ => True

theorem notSetBack_of_onTime {a : Action (TaskExpr utcOffset)} (h : OnTime utcOffset e i s a) : NotSetBack i s a := by
  cases a with
  | tick now readings => exact fun halive d hd hle => (h halive d hd hle).1
  | _ => trivial

theorem toTimeT_fromTimeT (m : Int) : toTimeT (fromTimeT m) = m := by
  rw [toTimeT, fromTimeT]
  exact Int.mul_tdiv_cancel m (by decide)

theorem toTimeT_nonneg {time : Time} (h : 0 ≤ time) : 0 ≤ toTimeT time := Int.tdiv_nonneg h (by decide)

theorem toTimeT_lt {time : Time} {m : Int} (ht : 0 ≤ time) (h : time < fromTimeT m) : toTimeT time < m := by
  rw [toTimeT, Int.tdiv_eq_ediv_of_nonneg ht]
  exact Int.ediv_lt_of_lt_mul (by decide) h

theorem fromTimeT_lt {m m' : Int} (h : m < m') : fromTimeT m < fromTimeT m' :=
  Int.mul_lt_mul_of_pos_right h (by decide)

theorem lt_of_fromTimeT_lt {m m' : Int} (h : fromTimeT m < fromTimeT m') : m < m' :=
  Int.lt_of_mul_lt_mul_right h (by decide)

variable (utcOffset) in
/-- A tick adds at most one launch of the task, for the entry that was waiting. -/
theorem tick_launches (h : IsCron e i s) (now : Time) (readings : Nat → Time) :
    ((∀ d, (d, i) ∉ s.dueTasks now) ∧
      launchesOf (s.manageTasks (nextTime utcOffset) now readings) i = launchesOf s i) ∨
    ∃ d, (d, i) ∈ s.dueTasks now ∧
      launchesOf (s.manageTasks (nextTime utcOffset) now readings) i = launchesOf s i ++ [(d, now)] := by
  have hone : ((s.dueTasks now).filter (fun x => x.2 == i)).length ≤ 1 := by
    have hsplit := dueCount_add_laterCount s now i
    have hpending := h.pending
    rw [← List.countP_eq_length_filter, dueTasks_count]
    split <;> omega
  rw [launchesOf_tick]
  cases hl : (s.dueTasks now).filter (fun x => x.2 == i) with
  | nil =>
      refine .inl ⟨fun d hd => ?_, by rw [List.map_nil, List.append_nil]⟩
      have hmem : (d, i) ∈ (s.dueTasks now).filter (fun x => x.2 == i) :=
        List.mem_filter.mpr ⟨hd, beq_self_eq_true i⟩
      rw [hl] at hmem
      cases hmem
  | cons x xs =>
      have hx : x ∈ (s.dueTasks now).filter (fun x => x.2 == i) := hl ▸ List.mem_cons_self
      rw [List.mem_filter, beq_iff_eq] at hx
      obtain ⟨d, j⟩ := x
      obtain ⟨hx, rfl⟩ := hx
      refine .inr ⟨d, hx, ?_⟩
      rw [hl, List.length_cons] at hone
      rw [List.eq_nil_of_length_eq_zero (by omega : xs.length = 0)]
      rfl

/-- A task that is due has nothing else in the queue. -/
theorem not_later (h : IsCron e i s) {now d d' : Time} (hdue : (d, i) ∈ s.dueTasks now)
    (hd' : (d', i) ∈ s.tasks.entries) : d' ≤ now := by
  by_contra hno
  have hpending := h.pending
  have hsplit := dueCount_add_laterCount s now i
  have hfirst : 0 < s.dueCount now i := by
    rw [Scheduler.dueTasks, List.mem_filter] at hdue
    exact List.countP_pos_iff.mpr ⟨_, hdue.1, beq_self_eq_true i⟩
  have hlater : 0 < s.laterCount now i := by
    rw [← s.tasks.upTo_append_beyond now, List.mem_append] at hd'
    refine List.countP_pos_iff.mpr ⟨_, hd'.resolve_left fun hup => ?_, beq_self_eq_true i⟩
    exact hno (Multimap.le_of_mem_upTo hup)
  omega

/-- What is queued after a tick: the next match, if the task was launched, or what
was not due. -/
theorem tick_pending_entries (h : IsCron e i s) {now d : Time} {readings : Nat → Time}
    (hd : (d, i) ∈ (s.manageTasks (nextTime utcOffset) now readings).tasks.entries) :
    ((∃ d₀, (d₀, i) ∈ s.dueTasks now) ∧ d = fromTimeT (nextTime utcOffset e (toTimeT (readings i)))) ∨
      ((d, i) ∈ s.tasks.entries ∧ now < d) := (tick_entries (nextTime utcOffset) h).mp hd

theorem InOrder.ticked (hexact : Exact e.1) (hreg : 0 ≤ registered) (h : InOrder utcOffset e registered i s)
    {now : Time} {readings : Nat → Time} (hclock : NotSetBack i s (.tick now readings))
    (hcron : IsCron e i (s.manageTasks (nextTime utcOffset) now readings)) :
    InOrder utcOffset e registered i (s.manageTasks (nextTime utcOffset) now readings) := by
  have hnext {d₀ : Time} (hd₀ : (d₀, i) ∈ s.dueTasks now) :
      d₀ < fromTimeT (nextTime utcOffset e (toTimeT (readings i))) ∧
        Due utcOffset e (nextTime utcOffset e (toTimeT (readings i))) := by
    obtain ⟨halive, hmem, hle⟩ := dueTasks_alive hd₀
    obtain ⟨⟨m, _, rfl⟩, hafter, _⟩ := h.pending d₀ hmem
    have hread := hclock halive _ hmem hle
    obtain ⟨hlater, hdue, _⟩ := nextTime_spec utcOffset hexact
      (toTimeT_nonneg (Int.le_trans hreg (Int.le_trans (Int.le_of_lt hafter) hread)))
    exact ⟨fromTimeT_lt (Int.lt_of_le_of_lt (le_toTimeT hread) hlater), hdue⟩
  have hold {d : Time} (hd : (d, i) ∈ (s.manageTasks (nextTime utcOffset) now readings).tasks.entries) :
      (∃ m, Due utcOffset e m ∧ d = fromTimeT m) ∧ registered < d ∧ (∀ p ∈ launchesOf s i, p.1 < d) ∧
        ∀ d₀, (d₀, i) ∈ s.dueTasks now → d₀ < d := by
    rcases tick_pending_entries h.cron hd with ⟨⟨d₀, hd₀⟩, rfl⟩ | ⟨hd, hlt⟩
    · obtain ⟨hlt, hdue⟩ := hnext hd₀
      obtain ⟨_, hmem, _⟩ := dueTasks_alive hd₀
      obtain ⟨_, hafter, hbehind⟩ := h.pending d₀ hmem
      exact ⟨⟨_, hdue, rfl⟩, Int.lt_trans hafter hlt, fun p hp => Int.lt_trans (hbehind p hp) hlt,
        fun d₁ hd₁ => (hnext hd₁).1⟩
    · obtain ⟨hmatch, hafter, hbehind⟩ := h.pending d hd
      exact ⟨hmatch, hafter, hbehind, fun d₀ hd₀ => Int.lt_of_le_of_lt (dueTasks_alive hd₀).2.2 hlt⟩
  rcases tick_launches utcOffset h.cron now readings with ⟨hnone, hsame⟩ | ⟨d, hdue, hsame⟩
  · refine ⟨hcron, ?_, ?_, fun d hd => ?_⟩
    · rw [dues, hsame]
      exact h.sorted
    · rw [hsame]
      exact h.launched
    · obtain ⟨hmatch, hafter, hbehind, _⟩ := hold hd
      rw [hsame]
      exact ⟨hmatch, hafter, hbehind⟩
  · obtain ⟨_, hmem, hle⟩ := dueTasks_alive hdue
    obtain ⟨hmatch, hafter, hbehind⟩ := h.pending d hmem
    refine ⟨hcron, ?_, fun p hp => ?_, fun d' hd' => ?_⟩
    · rw [dues, hsame, List.map_append, List.pairwise_append]
      refine ⟨h.sorted, List.pairwise_singleton _ _, fun a ha b hb => ?_⟩
      obtain ⟨p, hp, rfl⟩ := List.mem_map.mp ha
      cases List.mem_singleton.mp hb
      exact hbehind p hp
    · rw [hsame, List.mem_append, List.mem_singleton] at hp
      rcases hp with hp | rfl
      · exact h.launched p hp
      · exact ⟨hmatch, hafter, hle⟩
    · obtain ⟨hmatch', hafter', hbehind', hdues⟩ := hold hd'
      refine ⟨hmatch', hafter', fun p hp => ?_⟩
      rw [hsame, List.mem_append, List.mem_singleton] at hp
      rcases hp with hp | rfl
      · exact hbehind' p hp
      · exact hdues d hdue

theorem InOrder.of_same (h : InOrder utcOffset e registered i s) (hcron : IsCron e i t)
    (hentries : ∀ d, (d, i) ∈ t.tasks.entries → (d, i) ∈ s.tasks.entries)
    (hsame : launchesOf t i = launchesOf s i) : InOrder utcOffset e registered i t := by
  refine ⟨hcron, ?_, ?_, fun d hd => ?_⟩
  · rw [dues, hsame]
    exact h.sorted
  · rw [hsame]
    exact h.launched
  · rw [hsame]
    exact h.pending d (hentries d hd)

/-- Every step but a tick leaves the launches and adds no entry of the task. -/
theorem quiet_step (h : IsCron e i s) {a : Action (TaskExpr utcOffset)} (hs : Steps (nextTime utcOffset) s a t)
    (htick : ∀ now readings, a ≠ .tick now readings) :
    (∀ d, (d, i) ∈ t.tasks.entries → (d, i) ∈ s.tasks.entries) ∧ launchesOf t i = launchesOf s i := by
  cases step_effect (nextTime utcOffset) hs with
  | added _ => exact ⟨fun _ => mem_of_emplace (Ne.symm (Nat.ne_of_lt h.inRange)), rfl⟩
  | unknown _ => exact ⟨fun _ hd => hd, rfl⟩
  | removed _ => exact ⟨fun _ hd => hd, rfl⟩
  | ticked => exact absurd rfl (htick _ _)
  | started _ _ => exact ⟨fun _ hd => hd, launchesOf_setStage ..⟩
  | finished _ _ _ => exact ⟨fun _ hd => hd, launchesOf_setStage ..⟩
  | readded _ _ ho _ hint =>
      exact ⟨fun _ => mem_of_emplace (h.not_readded ho hint), launchesOf_setStage s _ .done i⟩

theorem InOrder.step (hexact : Exact e.1) (hreg : 0 ≤ registered) (h : InOrder utcOffset e registered i s)
    {a : Action (TaskExpr utcOffset)} (hs : Guarded (Steps (nextTime utcOffset)) (NotSetBack i) s a t) :
    InOrder utcOffset e registered i t := by
  have hcron := h.cron.step (nextTime utcOffset) hs.2
  cases a with
  | tick now readings =>
      obtain ⟨hclock, hs⟩ := hs
      cases hs
      exact h.ticked hexact hreg hclock hcron
  | _ =>
      obtain ⟨hentries, hsame⟩ := quiet_step h.cron hs.2 (fun _ _ hno => by cases hno)
      exact h.of_same hcron hentries hsame

theorem Complete.ticked (hexact : Exact e.1) (hreg : 0 ≤ registered) (h : InOrder utcOffset e registered i s)
    (hcomplete : Complete utcOffset e registered i s) {now : Time} {readings : Nat → Time}
    (hclock : OnTime utcOffset e i s (.tick now readings)) :
    Complete utcOffset e registered i (s.manageTasks (nextTime utcOffset) now readings) := by
  intro m hm hafter hbefore
  rcases tick_launches utcOffset h.cron now readings with ⟨hnone, hsame⟩ | ⟨d, hdue, hsame⟩
  · rw [dues, hsame]
    refine hcomplete m hm hafter (hbefore.imp ?_ ?_)
    · rw [hsame]
      exact id
    · rintro ⟨d, hd, hlt⟩
      rcases tick_pending_entries h.cron hd with ⟨⟨d₀, hd₀⟩, _⟩ | ⟨hd, _⟩
      · exact absurd hd₀ (hnone d₀)
      · exact ⟨d, hd, hlt⟩
  · obtain ⟨halive, hmem, hle⟩ := dueTasks_alive hdue
    obtain ⟨⟨due, hduem, rfl⟩, hreg', hbehind⟩ := h.pending d hmem
    obtain ⟨hread, hearly⟩ := hclock halive _ hmem hle
    have hnonneg : 0 ≤ due := by
      have hpositive := toTimeT_nonneg (Int.le_trans hreg (Int.le_of_lt hreg'))
      rwa [toTimeT_fromTimeT] at hpositive
    have hnext : nextTime utcOffset e (toTimeT (readings i)) = nextTime utcOffset e due := by
      rw [toTimeT_fromTimeT] at hearly
      refine nextTime_eq hexact hnonneg (le_toTimeT hread) (toTimeT_lt ?_ hearly)
      exact Int.le_trans hreg (Int.le_trans (Int.le_of_lt hreg') hread)
    rw [dues, hsame, List.map_append, List.mem_append]
    rcases Int.lt_trichotomy m due with hlt | rfl | hgt
    · exact .inl (hcomplete m hm hafter (.inr ⟨_, hmem, fromTimeT_lt hlt⟩))
    · exact .inr List.mem_cons_self
    · have hfirst := (nextTime_spec utcOffset hexact hnonneg).2.2 m hm hgt
      refine absurd hbefore (not_or.mpr ⟨?_, ?_⟩)
      · rintro ⟨p, hp, hle'⟩
        rw [hsame, List.mem_append, List.mem_singleton] at hp
        rcases hp with hp | rfl
        · exact absurd (Int.lt_of_le_of_lt hle' (hbehind p hp)) (Int.not_lt.mpr (Int.le_of_lt (fromTimeT_lt hgt)))
        · exact absurd (fromTimeT_lt hgt) (Int.not_lt.mpr hle')
      · rintro ⟨d', hd', hlt'⟩
        rcases tick_pending_entries h.cron hd' with ⟨_, rfl⟩ | ⟨hd', hlate⟩
        · rw [hnext] at hlt'
          exact absurd (lt_of_fromTimeT_lt hlt') (Int.not_lt.mpr hfirst)
        · exact absurd hlate (Int.not_lt.mpr (not_later h.cron hdue hd'))

theorem Complete.step (hexact : Exact e.1) (hreg : 0 ≤ registered) (h : InOrder utcOffset e registered i s)
    (hcomplete : Complete utcOffset e registered i s) {a : Action (TaskExpr utcOffset)}
    (hs : Guarded (Steps (nextTime utcOffset)) (OnTime utcOffset e i) s a t) :
    Complete utcOffset e registered i t := by
  cases a with
  | tick now readings =>
      obtain ⟨hclock, hs⟩ := hs
      cases hs
      exact Complete.ticked hexact hreg h hcomplete hclock
  | _ =>
      obtain ⟨hentries, hsame⟩ := quiet_step h.cron hs.2 (fun _ _ hno => by cases hno)
      intro m hm hafter hbefore
      rw [hsame] at hbefore
      rw [dues, hsame]
      exact hcomplete m hm hafter (hbefore.imp id fun ⟨d, hd, hlt⟩ => ⟨d, hentries d hd, hlt⟩)

theorem InOrder.run (hexact : Exact e.1) (hreg : 0 ≤ registered) (h : InOrder utcOffset e registered i s)
    {as : List (Action (TaskExpr utcOffset))}
    (hrun : Run (Guarded (Steps (nextTime utcOffset)) (NotSetBack i)) s as t) :
    InOrder utcOffset e registered i t :=
  hrun.invariant (InOrder utcOffset e registered i) (fun _ _ _ hi hs => hi.step hexact hreg hs) h

theorem Complete.run (hexact : Exact e.1) (hreg : 0 ≤ registered) (h : InOrder utcOffset e registered i s)
    (hcomplete : Complete utcOffset e registered i s) {as : List (Action (TaskExpr utcOffset))}
    (hrun : Run (Guarded (Steps (nextTime utcOffset)) (OnTime utcOffset e i)) s as t) :
    InOrder utcOffset e registered i t ∧ Complete utcOffset e registered i t := by
  refine hrun.invariant (fun s => InOrder utcOffset e registered i s ∧ Complete utcOffset e registered i s)
    (fun _ _ _ hi hs => ⟨?_, ?_⟩) ⟨h, hcomplete⟩
  · exact hi.1.step hexact hreg ⟨notSetBack_of_onTime hs.1, hs.2⟩
  · exact hi.2.step hexact hreg hi.1 hs

end Launches

section Registration

variable {registered : Time} {s t : Scheduler (TaskExpr utcOffset)} {id : Bytes}

theorem registered_inOrder (hexact : Exact e.1) (hreg : 0 ≤ registered) (hb : Bookkeeping s)
    (hs : Steps (nextTime utcOffset) s (.cron id e registered) t) :
    InOrder utcOffset e registered s.objects.length t ∧ Complete utcOffset e registered s.objects.length t := by
  have hnone := registered_launches (nextTime utcOffset) hb hs
  obtain ⟨hlater, hdue, hfirst⟩ := nextTime_spec utcOffset hexact (toTimeT_nonneg hreg)
  constructor
  · refine ⟨registered_isCron (nextTime utcOffset) hb hs, ?_, ?_, fun d hd => ?_⟩
    · rw [dues, hnone]
      exact .nil
    · rw [hnone]
      exact fun p hp => by cases hp
    · rw [registered_entries (nextTime utcOffset) hb hs hd, hnone]
      exact ⟨⟨_, hdue, rfl⟩, lt_fromTimeT hlater, fun p hp => by cases hp⟩
  · rintro m hm hafter (⟨p, hp, _⟩ | ⟨d, hd, hlt⟩)
    · rw [hnone] at hp
      cases hp
    · rw [registered_entries (nextTime utcOffset) hb hs hd] at hlt
      have hle := hfirst m hm (toTimeT_lt hreg hafter)
      exact absurd (lt_of_fromTimeT_lt hlt) (Int.not_lt.mpr hle)

theorem launches_in_order (hexact : Exact e.1) {as : List (Action (TaskExpr utcOffset))}
    (hrun : Run (Steps (nextTime utcOffset)) .initial as s) (hreg : 0 ≤ registered)
    (hs : Steps (nextTime utcOffset) s (.cron id e registered) t) {bs : List (Action (TaskExpr utcOffset))}
    {u : Scheduler (TaskExpr utcOffset)} :
    (Run (Guarded (Steps (nextTime utcOffset)) (NotSetBack s.objects.length)) t bs u →
      InOrder utcOffset e registered s.objects.length u) ∧
    (Run (Guarded (Steps (nextTime utcOffset)) (OnTime utcOffset e s.objects.length)) t bs u →
      Complete utcOffset e registered s.objects.length u) := by
  have hb := (run_history (nextTime utcOffset) hrun).bookkeeping
  obtain ⟨hinorder, hcomplete⟩ := registered_inOrder hexact hreg hb hs
  exact ⟨fun hbs => hinorder.run hexact hreg hbs, fun hbs => (Complete.run hexact hreg hinorder hcomplete hbs).2⟩

end Registration

section Texts

/-- Five fields, without a restriction of the months and with one of the days of
the month or of the week at most. -/
def EveryMonth (expr : Bytes) : Prop :=
  ∃ minute hour dayOfMonth dayOfWeek, (split expr (char ' ')).filter (· ≠ []) =
    [minute, hour, dayOfMonth, [char '*'], dayOfWeek] ∧ (Star dayOfMonth ∨ Star dayOfWeek)

variable {expr : Bytes} {cex : CronExpr}

theorem fieldsOf_everyMonth (h : EveryMonth expr) : ∃ minute hour dayOfMonth dayOfWeek,
    fieldsOf expr = [bytes "0", minute, hour, dayOfMonth, [char '*'], dayOfWeek] ∧
      (Star dayOfMonth ∨ Star dayOfWeek) := by
  obtain ⟨minute, hour, dayOfMonth, dayOfWeek, hfields, hday⟩ := h
  refine ⟨minute, hour, dayOfMonth, dayOfWeek, ?_, hday⟩
  rw [fieldsOf, hfields]
  rfl

/-- The second of such an expression is the zeroth. -/
theorem exact_of_everyMonth (h : makeCron expr = pure cex) (hevery : EveryMonth expr) : Exact cex := by
  obtain ⟨_, _, _, _, hfields, hday⟩ := fieldsOf_everyMonth hevery
  have hsearch : Searchable cex :=
    (oneDayField_of_accepted h ⟨_, _, _, _, _, _, hfields, hday⟩).searchable
  obtain ⟨second, _, _, _, month, _, hfields', hread, _⟩ := makeCron_fields h
  cases hfields.symm.trans hfields'
  have hzero : setCronField (bytes "0") 0 0 59 = pure (1 : BitVec 60) := rfl
  have hseconds : cex.seconds = 1 := by
    have hread := hread.seconds
    rw [hzero] at hread
    injection hread with hread
    injection hread with hread
    exact hread.symm
  have hmonths : setCronField [char '*'] 0 1 12 = pure cex.months := hread.months
  refine ⟨hsearch, ?_, ?_⟩
  · exact fun i hi => setCronField_star fits_months (by decide) hmonths (Nat.succ_le_of_lt hi)
  · intro i j k hij hjk hi hk
    have honly : ∀ k < 60, 0 < k → (1 : BitVec 60).getLsbD k = false := by decide
    rw [hseconds, honly k (BitVec.lt_of_getLsbD hk) (by omega)] at hk
    cases hk

variable {utcOffset : Int} {e : TaskExpr utcOffset} {registered : Time} {s t : Scheduler (TaskExpr utcOffset)}
  {id : Bytes}

/-- A task whose clock is not set back is launched at matches only, in their order
and each at most once, and if every tick is in time at all of them. -/
theorem cron_task_in_order (hread : makeCron expr = pure e.1) (hevery : EveryMonth expr)
    {as : List (Action (TaskExpr utcOffset))} (hrun : Run (Steps (nextTime utcOffset)) .initial as s)
    (hreg : 0 ≤ registered)
    (hs : Steps (nextTime utcOffset) s (.cron id e registered) t) {bs : List (Action (TaskExpr utcOffset))}
    {u : Scheduler (TaskExpr utcOffset)} :
    (Run (Guarded (Steps (nextTime utcOffset)) (NotSetBack s.objects.length)) t bs u →
      (dues u s.objects.length).Pairwise (· < ·) ∧ ∀ p ∈ launchesOf u s.objects.length,
        (∃ m, Due utcOffset e m ∧ p.1 = fromTimeT m) ∧ registered < p.1 ∧ p.1 ≤ p.2) ∧
    (Run (Guarded (Steps (nextTime utcOffset)) (OnTime utcOffset e s.objects.length)) t bs u →
      ∀ m, Due utcOffset e m → registered < fromTimeT m →
        (∃ p ∈ launchesOf u s.objects.length, fromTimeT m ≤ p.1) → fromTimeT m ∈ dues u s.objects.length) := by
  obtain ⟨hinorder, hcomplete⟩ := launches_in_order (exact_of_everyMonth hread hevery) hrun hreg hs
  constructor
  · intro hbs
    have hend := hinorder hbs
    exact ⟨hend.sorted, hend.launched⟩
  · intro hbs m hm hafter hlaunch
    exact hcomplete hbs m hm hafter (.inl hlaunch)

def dailyTask : TaskExpr 28800 := ⟨daily, returns_of_searchable 28800 daily_oneDayField.searchable⟩

theorem everyMonth_daily : EveryMonth (bytes "8 8 * * *") :=
  ⟨bytes "8", bytes "8", bytes "*", bytes "*", by decide, .inl (.inl rfl)⟩

theorem read_daily : makeCron (bytes "8 8 * * *") = pure dailyTask.1 := rfl

theorem nextTime_daily : nextTime 28800 dailyTask 1700000000 = 1700006880 := by
  obtain ⟨hlater, hdue, hfirst⟩ :=
    nextTime_spec 28800 (exact_of_everyMonth read_daily everyMonth_daily) (t := 1700000000) (by decide)
  have hle := hfirst 1700006880 ⟨⟨by decide, by decide, by decide, by decide⟩, by decide⟩ (by decide)
  have hbits : ∀ k < 60, (daily.seconds.getLsbD k = true → k = 0) ∧ (daily.minutes.getLsbD k = true → k = 8) ∧
      (daily.hours.getLsbD k = true → k = 8) := by decide
  have hsecond := (hbits _ (Dial.value_lt .second _)).1 hdue.second
  have hminute := (hbits _ (Dial.value_lt .minute _)).2.1 hdue.minute
  have hhour := (hbits _ (Nat.lt_trans (Dial.value_lt .hour _) (by decide))).2.2 hdue.hour
  simp only [Dial.value, Dial.count, Dial.size, Dial.field, unit] at hsecond hminute hhour
  omega

/-- Registered in the night the task is launched at eight minutes past eight. -/
theorem cron_task_in_order_morning : ∃ t u : Scheduler (TaskExpr 28800),
    Steps (nextTime 28800) .initial (.cron (bytes "morning") dailyTask 1700000000000000000) t ∧
    Run (Guarded (Steps (nextTime 28800)) (OnTime 28800 dailyTask 0)) t
      [.tick 1700006880000000000 (fun _ => 1700006880000000000)] u ∧
    (1700006880 : Int) * ticksPerSecond ∈ dues u 0 := by
  obtain ⟨t, u, hs, hrun, hlaunch⟩ : ∃ t u : Scheduler (TaskExpr 28800),
      Steps (nextTime 28800) .initial (.cron (bytes "morning") dailyTask 1700000000000000000) t ∧
      Run (Guarded (Steps (nextTime 28800)) (OnTime 28800 dailyTask 0)) t
        [.tick 1700006880000000000 (fun _ => 1700006880000000000)] u ∧
      (1700006880000000000, 1700006880000000000) ∈ launchesOf u 0 := by
    have hnew : getNewTime (nextTime 28800) (.cronTask dailyTask) 1700000000000000000 = 1700006880000000000 := by
      rw [getNewTime, show toTimeT 1700000000000000000 = 1700000000 by decide, nextTime_daily]
      rfl
    have hs : Steps (nextTime 28800) .initial (.cron (bytes "morning") dailyTask 1700000000000000000)
        (Scheduler.initial.addTask 1700006880000000000
          ⟨.cronTask dailyTask, bytes "morning", true, false⟩) := by
      rw [← hnew]
      rfl
    refine ⟨_, _, hs, .cons ⟨fun _ d hd _ => ?_, rfl⟩ (.nil _), ?_⟩
    · have hd' : (d, 0) ∈ [((1700006880000000000 : Time), 0)] := hd
      cases List.mem_singleton.mp hd'
      have hlater := (nextTime_spec 28800 (e := dailyTask)
        (exact_of_everyMonth read_daily everyMonth_daily) (t := 1700006880) (by decide)).1
      exact ⟨Int.le_refl _, fromTimeT_lt hlater⟩
    · exact List.mem_singleton_self ((1700006880000000000 : Time), (1700006880000000000 : Time))
  have hdue : Due 28800 dailyTask 1700006880 := ⟨⟨by decide, by decide, by decide, by decide⟩, by decide⟩
  exact ⟨t, u, hs, hrun, (cron_task_in_order read_daily everyMonth_daily (.nil _) (by decide) hs).2
    hrun 1700006880 hdue (by decide) ⟨_, hlaunch, by decide⟩⟩

end Texts

end MigangBot.CronTasks
