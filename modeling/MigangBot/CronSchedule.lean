import MigangBot.SchedulerBookkeeping

namespace MigangBot.CronSchedule

open Lib.Maps Lib.Multimaps Lib.Runs Text Scheduling SchedulerSteps SchedulerBookkeeping

variable {Expr : Type} (cronNext : Expr → Int → Int) (matching : Expr → Int → Prop)

/-- What the cron library promises: the first matching second after its
argument, or the invalid time when it finds none. -/
def CronContract : Prop := ∀ e t, cronNext e t = invalidTime ∨
  (matching e (cronNext e t) ∧ t < cronNext e t ∧ ∀ m, matching e m → t < m → cronNext e t ≤ m)

/-- The launches of a task: the instant each was queued for and the clock of its
tick. -/
def launchesOf (s : Scheduler Expr) (i : Nat) : List (Time × Time) :=
  (s.executions.filter (fun x => x.task == i)).map (fun x => (x.due, x.launchedAt))

structure OnSchedule (e : Expr) (registered : Time) (i : Nat) (s : Scheduler Expr) : Prop where
  fires : ∀ p ∈ launchesOf s i,
    ∃ m, matching e m ∧ p.1 = fromTimeT m ∧ registered < p.1 ∧ p.1 ≤ p.2
  once : ((launchesOf s i).map Prod.fst).Nodup

/-- At each tick that launches the task, the instant found for the next launch
is a match, after the registration, and a new one. -/
def Meets (e : Expr) (registered : Time) (i : Nat) (s : Scheduler Expr) : Action Expr → Prop
  | .tick now readings => s.alive i = true → ∀ d, (d, i) ∈ s.tasks.entries → d ≤ now →
      let next := cronNext e (toTimeT (readings i))
      next ≠ invalidTime ∧ registered < fromTimeT next ∧ fromTimeT next ≠ d ∧
        ∀ p ∈ launchesOf s i, p.1 ≠ fromTimeT next
  | _ => True

/-- The condition in terms of the clock: it is not set back before the instant
the task is launched for. -/
def ClockKept (e : Expr) (i : Nat) (s : Scheduler Expr) : Action Expr → Prop
  | .tick now readings => s.alive i = true → ∀ d, (d, i) ∈ s.tasks.entries → d ≤ now →
      cronNext e (toTimeT (readings i)) ≠ invalidTime ∧ d ≤ readings i
  | _ => True

theorem lt_fromTimeT {t m : Int} (h : toTimeT t < m) : t < fromTimeT m := by
  have hdiv := Int.mul_tdiv_add_tmod t ticksPerSecond
  have hmod := Int.tmod_lt_of_pos t (b := ticksPerSecond) (by decide)
  rw [toTimeT] at h
  rw [fromTimeT]
  simp only [ticksPerSecond] at *
  omega

theorem le_toTimeT {t m : Int} (h : fromTimeT m ≤ t) : m ≤ toTimeT t := by
  have hdiv := Int.mul_tdiv_add_tmod t ticksPerSecond
  have hmod := Int.tmod_lt_of_pos t (b := ticksPerSecond) (by decide)
  have hle : m * ticksPerSecond ≤ t := h
  rw [toTimeT]
  simp only [ticksPerSecond] at *
  omega

theorem launchesOf_setStage (s : Scheduler Expr) (r : Nat) (stage : Stage) (i : Nat) :
    launchesOf (s.setStage r stage) i = launchesOf s i := by
  simp only [launchesOf, Scheduler.setStage]
  induction s.executions generalizing r with
  | nil => rw [List.modify_nil]
  | cons x xs ih =>
      cases r with
      | zero =>
          rw [List.modify_zero_cons, List.filter_cons, List.filter_cons]
          split <;> rfl
      | succ r =>
          rw [List.modify_succ_cons, List.filter_cons, List.filter_cons]
          split
          · rw [List.map_cons, List.map_cons, ih]
          · exact ih r

theorem launchesOf_tick (s : Scheduler Expr) (now : Time) (readings : Nat → Time) (i : Nat) :
    launchesOf (s.manageTasks cronNext now readings) i =
      launchesOf s i ++ ((s.dueTasks now).filter (fun e => e.2 == i)).map (fun e => (e.1, now)) := by
  rw [launchesOf, tick_executions, List.filter_append, List.map_append, List.filter_map, List.map_map]
  rfl

theorem launchesOf_length (s : Scheduler Expr) (i : Nat) : (launchesOf s i).length = s.launches i := by
  rw [launchesOf, List.length_map, ← List.countP_eq_length_filter]
  rfl

/-- The task of a cron call, which is never waited for. -/
structure IsCron (e : Expr) (i : Nat) (s : Scheduler Expr) : Prop where
  bookkeeping : Bookkeeping s
  object : ∃ task, s.objects[i]? = some task ∧ task.kind = .cronTask e ∧ task.recur = true ∧
    task.interval = false
  pending : s.pending i ≤ 1

theorem IsCron.not_readded {e : Expr} {i j : Nat} {s : Scheduler Expr} {task : SchedulerTask Expr}
    (h : IsCron e i s) (ho : s.objects[j]? = some task) (hint : task.interval = true) : j ≠ i := by
  rintro rfl
  obtain ⟨task', ho', _, _, hv⟩ := h.object
  rw [ho] at ho'
  cases ho'
  exact Bool.false_ne_true (hv.symm.trans hint)

theorem IsCron.inRange {e : Expr} {i : Nat} {s : Scheduler Expr} (h : IsCron e i s) : i < s.objects.length := by
  obtain ⟨_, ho, _⟩ := h.object
  exact (List.getElem?_eq_some_iff.mp ho).1

theorem IsCron.step {e : Expr} {i : Nat} {s t : Scheduler Expr} {a : Action Expr} (h : IsCron e i s)
    (hs : Steps cronNext s a t) : IsCron e i t := by
  have hb := step_bookkeeping cronNext h.bookkeeping hs
  obtain ⟨task, ho, hk, hr, hv⟩ := h.object
  cases step_effect cronNext hs with
  | added _ =>
      refine ⟨hb, ⟨task, ?_, hk, hr, hv⟩, ?_⟩
      · rw [addTask_objects, List.getElem?_append_left h.inRange, ho]
      · rw [addTask_pending, if_neg (Ne.symm (Nat.ne_of_lt h.inRange))]
        exact h.pending
  | unknown _ => exact h
  | @removed _ j _ =>
      refine ⟨hb, ?_, h.pending⟩
      rw [Scheduler.clearInterval, List.getElem?_modify, ho]
      by_cases hj : j = i
      · exact ⟨{ task with interval := false }, by simp [hj], hk, hr, rfl⟩
      · exact ⟨task, by simp [hj], hk, hr, hv⟩
  | @ticked now _ =>
      refine ⟨hb, by rw [tick_objects]; exact h.object, ?_⟩
      have hsplit := dueCount_add_laterCount s now i
      have hp := h.pending
      rw [tick_pending]
      split <;> omega
  | started _ _ => exact ⟨hb, h.object, h.pending⟩
  | finished _ _ _ => exact ⟨hb, h.object, h.pending⟩
  | readded _ _ ho' _ hint =>
      refine ⟨hb, h.object, Nat.le_trans (Nat.le_of_eq (pending_emplace s.tasks _ _ i)) ?_⟩
      rw [if_neg (h.not_readded ho' hint)]
      exact h.pending

section Schedule

/-- What holds of the entries and launches of a cron task as long as every next
instant was good. -/
structure Scheduled (e : Expr) (registered : Time) (i : Nat) (s : Scheduler Expr) : Prop where
  cron : IsCron e i s
  entries : ∀ d, (d, i) ∈ s.tasks.entries → (∃ m, matching e m ∧ d = fromTimeT m ∧ registered < d) ∧
    ∀ p ∈ launchesOf s i, p.1 ≠ d
  onSchedule : OnSchedule matching e registered i s

variable {matching} {e : Expr} {registered : Time} {i : Nat} {s t : Scheduler Expr}

theorem mem_recurrences (h : IsCron e i s) {now : Time} {readings : Nat → Time} {d : Time} :
    (d, i) ∈ (s.dueTasks now).filterMap (s.recurrence cronNext readings) ↔
      (∃ d₀, (d₀, i) ∈ s.dueTasks now) ∧ d = fromTimeT (cronNext e (toTimeT (readings i))) := by
  obtain ⟨task, ho, hk, hr, hv⟩ := h.object
  have hrec (d₀ : Time) : s.recurrence cronNext readings (d₀, i) =
      some (fromTimeT (cronNext e (toTimeT (readings i))), i) := by
    simp [Scheduler.recurrence, ho, hr, hv, hk, getNewTime]
  rw [List.mem_filterMap]
  constructor
  · rintro ⟨⟨d₀, j⟩, hmem, hj⟩
    have hji : j = i := by
      rw [Scheduler.recurrence] at hj
      split at hj
      next =>
        split at hj
        · cases hj
          rfl
        · cases hj
      next => cases hj
    subst hji
    rw [hrec] at hj
    cases hj
    exact ⟨⟨d₀, hmem⟩, rfl⟩
  · rintro ⟨⟨d₀, hmem⟩, rfl⟩
    exact ⟨_, hmem, hrec d₀⟩

theorem dueTasks_alive {now d : Time} (h : (d, i) ∈ s.dueTasks now) :
    s.alive i = true ∧ (d, i) ∈ s.tasks.entries ∧ d ≤ now := by
  rw [Scheduler.dueTasks, List.mem_filter, Multimap.mem_upTo, Scheduler.lockable, Bool.and_eq_true] at h
  exact ⟨h.2.1, h.1⟩

theorem tick_entries (h : IsCron e i s) {now d : Time} {readings : Nat → Time} :
    (d, i) ∈ (s.manageTasks cronNext now readings).tasks.entries ↔
      ((∃ d₀, (d₀, i) ∈ s.dueTasks now) ∧ d = fromTimeT (cronNext e (toTimeT (readings i)))) ∨
        ((d, i) ∈ s.tasks.entries ∧ now < d) := by
  rw [(manageTasks_perm cronNext s now readings).mem_iff, List.mem_append, mem_recurrences cronNext h]
  have hbeyond : (d, i) ∈ s.tasks.beyond now ↔ (d, i) ∈ s.tasks.entries ∧ now < d := by
    constructor
    · intro hm
      exact ⟨List.dropWhile_subset _ hm, Multimap.lt_of_mem_beyond hm⟩
    · rintro ⟨hm, hlt⟩
      rw [← s.tasks.upTo_append_beyond now, List.mem_append] at hm
      rcases hm with hm | hm
      · exact absurd (Multimap.le_of_mem_upTo hm) (Int.not_le.mpr hlt)
      · exact hm
  rw [hbeyond]

theorem mem_tick_launches {now : Time} {readings : Nat → Time} {p : Time × Time} :
    p ∈ launchesOf (s.manageTasks cronNext now readings) i ↔
      p ∈ launchesOf s i ∨ ((p.1, i) ∈ s.dueTasks now ∧ p.2 = now) := by
  rw [launchesOf_tick, List.mem_append]
  refine or_congr Iff.rfl ?_
  rw [List.mem_map]
  constructor
  · rintro ⟨⟨d, j⟩, hm, rfl⟩
    rw [List.mem_filter, beq_iff_eq] at hm
    obtain ⟨hm, rfl⟩ := hm
    exact ⟨hm, rfl⟩
  · rintro ⟨hm, hp⟩
    exact ⟨(p.1, i), List.mem_filter.mpr ⟨hm, beq_self_eq_true i⟩, by rw [← hp]⟩

theorem dueTasks_nodup (h : s.pending i ≤ 1) (now : Time) :
    (((s.dueTasks now).filter (fun e => e.2 == i)).map Prod.fst).Nodup := by
  have hle : ((s.dueTasks now).filter (fun e => e.2 == i)).length ≤ 1 := by
    rw [← List.countP_eq_length_filter, dueTasks_count]
    have hd := dueCount_add_laterCount s now i
    split <;> omega
  cases hl : (s.dueTasks now).filter (fun e => e.2 == i) with
  | nil => exact .nil
  | cons x xs =>
      rw [hl, List.length_cons] at hle
      rw [List.eq_nil_of_length_eq_zero (by omega : xs.length = 0)]
      exact List.nodup_singleton _

theorem Scheduled.ticked (hcontract : CronContract cronNext matching)
    (h : Scheduled matching e registered i s) {now : Time} {readings : Nat → Time}
    (hm : Meets cronNext e registered i s (.tick now readings))
    (hcron : IsCron e i (s.manageTasks cronNext now readings)) :
    Scheduled matching e registered i (s.manageTasks cronNext now readings) := by
  refine ⟨hcron, fun d hd => ?_, fun p hp => ?_, ?_⟩
  · rw [tick_entries cronNext h.cron] at hd
    rcases hd with ⟨⟨d₀, hd₀⟩, rfl⟩ | ⟨hd, hlt⟩
    · obtain ⟨halive, hmem, hle⟩ := dueTasks_alive hd₀
      obtain ⟨hvalid, hafter, _, hnew⟩ := hm halive d₀ hmem hle
      refine ⟨⟨_, ?_, rfl, hafter⟩, fun p hp => ?_⟩
      · rcases hcontract e (toTimeT (readings i)) with hinvalid | hfirst
        · exact absurd hinvalid hvalid
        · exact hfirst.1
      · rcases (mem_tick_launches cronNext).mp hp with hp | ⟨hp, _⟩
        · exact hnew p hp
        · obtain ⟨_, hmem', hle'⟩ := dueTasks_alive hp
          exact Ne.symm (hm halive p.1 hmem' hle').2.2.1
    · obtain ⟨hmatch, hnew⟩ := h.entries d hd
      refine ⟨hmatch, fun p hp => ?_⟩
      rcases (mem_tick_launches cronNext).mp hp with hp | ⟨hp, _⟩
      · exact hnew p hp
      · rintro rfl
        exact absurd (dueTasks_alive hp).2.2 (Int.not_le.mpr hlt)
  · rcases (mem_tick_launches cronNext).mp hp with hp | ⟨hp, hnow⟩
    · exact h.onSchedule.fires p hp
    · obtain ⟨_, hmem, hle⟩ := dueTasks_alive hp
      obtain ⟨⟨m, hmatch, hd, hafter⟩, _⟩ := h.entries p.1 hmem
      exact ⟨m, hmatch, hd, hafter, hnow ▸ hle⟩
  · rw [launchesOf_tick, List.map_append, List.nodup_append]
    refine ⟨h.onSchedule.once, ?_, fun a ha b hb => ?_⟩
    · rw [List.map_map]
      exact dueTasks_nodup h.cron.pending now
    · obtain ⟨p, hp, rfl⟩ := List.mem_map.mp ha
      rw [List.map_map] at hb
      obtain ⟨⟨d, j⟩, hd, rfl⟩ := List.mem_map.mp hb
      rw [List.mem_filter, beq_iff_eq] at hd
      obtain ⟨hd, rfl⟩ := hd
      exact (h.entries d (dueTasks_alive hd).2.1).2 p hp

theorem Scheduled.of_same (h : Scheduled matching e registered i s) (hcron : IsCron e i t)
    (hentries : ∀ d, (d, i) ∈ t.tasks.entries → (d, i) ∈ s.tasks.entries)
    (hsame : launchesOf t i = launchesOf s i) : Scheduled matching e registered i t := by
  refine ⟨hcron, fun d hd => ?_, ?_, ?_⟩
  · rw [hsame]
    exact h.entries d (hentries d hd)
  · rw [hsame]
    exact h.onSchedule.fires
  · rw [hsame]
    exact h.onSchedule.once

/-- Another task's time in the queue is no time of this one. -/
theorem mem_of_emplace {tasks : Multimap Time Nat} {time d : Time} {j k : Nat} (hj : k ≠ j)
    (hd : (d, j) ∈ (tasks.emplace time k).entries) : (d, j) ∈ tasks.entries := by
  rcases Multimap.mem_emplace.mp hd with heq | hd
  · cases heq
    exact absurd rfl hj
  · exact hd

theorem Scheduled.step (hcontract : CronContract cronNext matching)
    (h : Scheduled matching e registered i s) {a : Action Expr}
    (hs : Guarded (Steps cronNext) (Meets cronNext e registered i) s a t) :
    Scheduled matching e registered i t := by
  have hcron := h.cron.step cronNext hs.2
  cases step_effect cronNext hs.2 with
  | added _ => exact h.of_same hcron (fun _ => mem_of_emplace (Ne.symm (Nat.ne_of_lt h.cron.inRange))) rfl
  | unknown _ => exact h
  | removed _ => exact h.of_same hcron (fun _ hd => hd) rfl
  | ticked => exact h.ticked cronNext hcontract hs.1 hcron
  | started _ _ => exact h.of_same hcron (fun _ hd => hd) (launchesOf_setStage ..)
  | finished _ _ _ => exact h.of_same hcron (fun _ hd => hd) (launchesOf_setStage ..)
  | readded _ _ ho _ hint =>
      exact h.of_same hcron (fun _ => mem_of_emplace (h.cron.not_readded ho hint)) (launchesOf_setStage s _ .done i)

theorem Scheduled.run (hcontract : CronContract cronNext matching) (h : Scheduled matching e registered i s)
    {as : List (Action Expr)} (hrun : Run (Guarded (Steps cronNext) (Meets cronNext e registered i)) s as t) :
    Scheduled matching e registered i t :=
  hrun.invariant (Scheduled matching e registered i) (fun _ _ _ hi hs => hi.step cronNext hcontract hs) h

theorem IsCron.run (h : IsCron e i s) {as : List (Action Expr)} (hrun : Run (Steps cronNext) s as t) :
    IsCron e i t :=
  hrun.invariant (IsCron e i) (fun _ _ _ hi hs => hi.step cronNext hs) h

section Registration

variable {id : Bytes} (hb : Bookkeeping s) (hs : Steps cronNext s (.cron id e registered) t)

include hb hs

theorem registered_entries {d : Time} (hd : (d, s.objects.length) ∈ t.tasks.entries) :
    d = fromTimeT (cronNext e (toTimeT registered)) := by
  cases hs
  rcases Multimap.mem_emplace.mp hd with heq | hd
  · cases heq
    rfl
  · have hpos : 0 < s.pending s.objects.length := List.countP_pos_iff.mpr ⟨_, hd, by simp⟩
    rw [hb.pendingInRange _ (Nat.le_refl _)] at hpos
    exact absurd hpos (Nat.lt_irrefl 0)

theorem registered_launches : launchesOf t s.objects.length = [] := by
  apply List.eq_nil_of_length_eq_zero
  rw [launchesOf_length]
  cases hs
  exact hb.launchedInRange _ (Nat.le_refl _)

theorem registered_isCron : IsCron e s.objects.length t := by
  have hb' := step_bookkeeping cronNext hb hs
  cases hs
  refine ⟨hb', ⟨_, by rw [addTask_objects, List.getElem?_concat_length], rfl, rfl, rfl⟩, ?_⟩
  rw [addTask_pending, if_pos rfl, hb.pendingInRange _ (Nat.le_refl _)]

theorem registered_scheduled (hcontract : CronContract cronNext matching)
    (hvalid : cronNext e (toTimeT registered) ≠ invalidTime) :
    Scheduled matching e registered s.objects.length t := by
  have hnone := registered_launches cronNext hb hs
  refine ⟨registered_isCron cronNext hb hs, fun d hd => ?_, ?_, ?_⟩
  · rcases hcontract e (toTimeT registered) with hinvalid | hfirst
    · exact absurd hinvalid hvalid
    · rw [registered_entries cronNext hb hs hd, hnone]
      exact ⟨⟨_, hfirst.1, rfl, lt_fromTimeT hfirst.2.1⟩, fun p hp => by cases hp⟩
  · rw [hnone]
    exact fun p hp => by cases hp
  · rw [hnone]
    exact .nil

end Registration

/-- A tick at the instant of a task's entry launches it for that instant. -/
theorem launched_next (h : IsCron e i s) (halive : s.alive i = true) {d : Time}
    (hd : (d, i) ∈ s.tasks.entries) (readings : Nat → Time)
    (hon : OnSchedule matching e registered i (s.manageTasks cronNext d readings)) :
    registered < d ∧ ∀ p ∈ launchesOf s i, p.1 ≠ d := by
  have hdue : (d, i) ∈ s.dueTasks d := by
    rw [Scheduler.dueTasks, List.mem_filter, Multimap.mem_upTo, Scheduler.lockable, halive]
    obtain ⟨_, ho, _⟩ := h.object
    exact ⟨⟨hd, Int.le_refl d⟩, by rw [ho]; rfl⟩
  obtain ⟨_, _, _, hafter, _⟩ := hon.fires (d, d) ((mem_tick_launches cronNext).mpr (.inr ⟨hdue, rfl⟩))
  refine ⟨hafter, fun p hp hpd => ?_⟩
  have honce := hon.once
  rw [launchesOf_tick, List.map_append, List.nodup_append] at honce
  refine honce.2.2 p.1 (List.mem_map_of_mem hp) d ?_ hpd
  rw [List.map_map, List.mem_map]
  exact ⟨(d, i), List.mem_filter.mpr ⟨hdue, beq_self_eq_true i⟩, rfl⟩

variable (matching) in
theorem meets_of_onSchedule (h : IsCron e i s) (hafter : 0 ≤ registered) {a : Action Expr}
    (hs : Steps cronNext s a t)
    (hon : ∀ cs u, Run (Steps cronNext) t cs u → OnSchedule matching e registered i u) :
    Meets cronNext e registered i s a := by
  cases a with
  | tick now readings =>
      intro halive d hd hle
      have ht : t = s.manageTasks cronNext now readings := (Option.some.inj hs).symm
      have hcron := h.step cronNext hs
      obtain ⟨task, ho, _⟩ := h.object
      have hdue : (d, i) ∈ s.dueTasks now := by
        rw [Scheduler.dueTasks, List.mem_filter, Multimap.mem_upTo, Scheduler.lockable, halive, ho]
        exact ⟨⟨hd, hle⟩, rfl⟩
      have hlaunched : (d, now) ∈ launchesOf t i := by
        rw [ht]
        exact (mem_tick_launches cronNext).mpr (.inr ⟨hdue, rfl⟩)
      have halive' : t.alive i = true := by
        rw [alive_iff_undone, ht, tick_undone, lockableTask, halive, ho]
        rw [alive_iff_undone] at halive
        rcases halive with hown | hrun
        · exact .inl (by rw [Scheduler.owned, tick_idToTask]; exact hown)
        · exact .inr (Nat.lt_add_right _ hrun)
      have hnext : (fromTimeT (cronNext e (toTimeT (readings i))), i) ∈ t.tasks.entries := by
        rw [ht, tick_entries cronNext h]
        exact .inl ⟨⟨d, hdue⟩, rfl⟩
      obtain ⟨hreg, hnew⟩ := launched_next cronNext hcron halive' hnext readings
        (hon [.tick _ readings] _ (.cons rfl (.nil _)))
      refine ⟨fun hinvalid => ?_, hreg, fun heq => hnew _ hlaunched heq.symm, fun p hp => hnew p ?_⟩
      · rw [hinvalid] at hreg
        exact absurd (Int.lt_of_le_of_lt hafter hreg) (by decide)
      · rw [ht]
        exact (mem_tick_launches cronNext).mpr (.inl hp)
  | _ => trivial

end Schedule

/-- After a cron call that was accepted, in every state of every further run. -/
theorem cron_on_schedule (hcontract : CronContract cronNext matching) {as : List (Action Expr)}
    {s t : Scheduler Expr} (hrun : Run (Steps cronNext) .initial as s) {id : Bytes} {e : Expr}
    {registered : Time} (hs : Steps cronNext s (.cron id e registered) t) :
    (cronNext e (toTimeT registered) ≠ invalidTime → ∀ bs u,
      Run (Guarded (Steps cronNext) (Meets cronNext e registered s.objects.length)) t bs u →
        OnSchedule matching e registered s.objects.length u) ∧
    (0 ≤ registered → cronNext e (toTimeT registered) = invalidTime → t.owned s.objects.length = true →
      ∃ bs u, Run (Steps cronNext) t bs u ∧ ¬ OnSchedule matching e registered s.objects.length u) ∧
    (0 ≤ registered → ∀ bs u a v, Run (Steps cronNext) t bs u → Steps cronNext u a v →
      ¬ Meets cronNext e registered s.objects.length u a →
      ∃ cs w, Run (Steps cronNext) v cs w ∧ ¬ OnSchedule matching e registered s.objects.length w) := by
  have hb := (run_history cronNext hrun).bookkeeping
  have hcron := registered_isCron cronNext hb hs
  refine ⟨fun hvalid bs u hbs => ?_, fun hnow hinvalid hown => ?_, fun hnow bs u a v hbs hstep hnot => ?_⟩
  · have hscheduled := registered_scheduled cronNext hb hs hcontract hvalid
    exact (hscheduled.run cronNext hcontract hbs).onSchedule
  · have hentry : (fromTimeT invalidTime, s.objects.length) ∈ t.tasks.entries := by
      cases hs
      rw [← hinvalid]
      exact Multimap.mem_emplace.mpr (.inl rfl)
    refine ⟨[.tick (fromTimeT invalidTime) (fun _ => 0)], _, .cons rfl (.nil _), fun hon => ?_⟩
    have halive : t.alive s.objects.length = true := (alive_iff _ _).mpr (.inl hown)
    have hafter := (launched_next cronNext hcron halive hentry _ hon).1
    exact absurd (Int.lt_of_le_of_lt hnow hafter) (by decide)
  · by_contra hno
    refine hnot (meets_of_onSchedule cronNext matching (hcron.run cronNext hbs) hnow hstep ?_)
    intro cs w hcs
    by_contra hoff
    exact hno ⟨cs, w, hcs, hoff⟩

section Clock

variable {matching} {e : Expr} {registered : Time} {i : Nat} {s t : Scheduler Expr}

/-- Every launch so far was for an instant before the next one. -/
def Behind (i : Nat) (s : Scheduler Expr) : Prop :=
  ∀ d, (d, i) ∈ s.tasks.entries → ∀ p ∈ launchesOf s i, p.1 < d

theorem lt_next (hcontract : CronContract cronNext matching) {reading : Time}
    (hvalid : cronNext e (toTimeT reading) ≠ invalidTime) {d : Time} (hd : ∃ m, d = fromTimeT m)
    (hle : d ≤ reading) : d < fromTimeT (cronNext e (toTimeT reading)) := by
  obtain ⟨m, rfl⟩ := hd
  rcases hcontract e (toTimeT reading) with hinvalid | hfirst
  · exact absurd hinvalid hvalid
  · have hm : m < cronNext e (toTimeT reading) := Int.lt_of_le_of_lt (le_toTimeT hle) hfirst.2.1
    exact Int.mul_lt_mul_of_pos_right hm (by decide)

/-- A clock that is not set back, and a match at every rescheduling, is enough. -/
theorem meets_of_clockKept (hcontract : CronContract cronNext matching)
    (h : Scheduled matching e registered i s) (hbehind : Behind i s) {a : Action Expr}
    (hc : ClockKept cronNext e i s a) : Meets cronNext e registered i s a := by
  cases a with
  | tick now readings =>
      intro halive d hd hle
      obtain ⟨hvalid, hreading⟩ := hc halive d hd hle
      obtain ⟨⟨m, _, hm, hafter⟩, _⟩ := h.entries d hd
      have hlt := lt_next cronNext hcontract hvalid ⟨m, hm⟩ hreading
      exact ⟨hvalid, Int.lt_trans hafter hlt, Int.ne_of_gt hlt,
        fun p hp => Int.ne_of_lt (Int.lt_trans (hbehind d hd p hp) hlt)⟩
  | _ => trivial

theorem Behind.step (hcontract : CronContract cronNext matching) (h : Scheduled matching e registered i s)
    (hbehind : Behind i s) {a : Action Expr} (hc : ClockKept cronNext e i s a) (hs : Steps cronNext s a t) :
    Behind i t := by
  intro d hd p hp
  cases step_effect cronNext hs with
  | added _ => exact hbehind d (mem_of_emplace (Ne.symm (Nat.ne_of_lt h.cron.inRange)) hd) p hp
  | unknown _ => exact hbehind d hd p hp
  | removed _ => exact hbehind d hd p hp
  | @ticked now readings =>
      have hnext (d₀ : Time) (hd₀ : (d₀, i) ∈ s.dueTasks now) :
          d₀ < fromTimeT (cronNext e (toTimeT (readings i))) := by
        obtain ⟨halive, hmem, hle⟩ := dueTasks_alive hd₀
        obtain ⟨hvalid, hreading⟩ := hc halive d₀ hmem hle
        obtain ⟨⟨m, _, hm, _⟩, _⟩ := h.entries d₀ hmem
        exact lt_next cronNext hcontract hvalid ⟨m, hm⟩ hreading
      rw [tick_entries cronNext h.cron] at hd
      rw [mem_tick_launches] at hp
      rcases hd with ⟨⟨d₀, hd₀⟩, rfl⟩ | ⟨hd, hlt⟩
      · rcases hp with hp | ⟨hp, _⟩
        · exact Int.lt_trans (hbehind d₀ (dueTasks_alive hd₀).2.1 p hp) (hnext d₀ hd₀)
        · exact hnext p.1 hp
      · rcases hp with hp | ⟨hp, _⟩
        · exact hbehind d hd p hp
        · exact Int.lt_of_le_of_lt (dueTasks_alive hp).2.2 hlt
  | started _ _ =>
      rw [launchesOf_setStage] at hp
      exact hbehind d hd p hp
  | finished _ _ _ =>
      rw [launchesOf_setStage] at hp
      exact hbehind d hd p hp
  | readded _ _ ho _ hint =>
      have hp' : p ∈ launchesOf (s.setStage _ .done) i := hp
      rw [launchesOf_setStage] at hp'
      exact hbehind d (mem_of_emplace (h.cron.not_readded ho hint) hd) p hp'

theorem guarded_of_clockKept (hcontract : CronContract cronNext matching)
    (h : Scheduled matching e registered i s) (hbehind : Behind i s) {as : List (Action Expr)}
    (hrun : Run (Guarded (Steps cronNext) (ClockKept cronNext e i)) s as t) :
    Run (Guarded (Steps cronNext) (Meets cronNext e registered i)) s as t := by
  induction hrun with
  | nil => exact .nil _
  | cons hs _ ih =>
      have hmeets := meets_of_clockKept cronNext hcontract h hbehind hs.1
      exact .cons ⟨hmeets, hs.2⟩
        (ih (h.step cronNext hcontract ⟨hmeets, hs.2⟩) (hbehind.step cronNext hcontract h hs.1 hs.2))

end Clock

theorem cron_on_schedule_every_second : ∃ t u : Scheduler Unit,
    Steps (fun _ t => t + 1) .initial (.cron (bytes "beat") () 0) t ∧
      Run (Guarded (Steps (fun _ t => t + 1)) (Meets (fun _ t => t + 1) () 0 0)) t
        [.tick 1500000000 (fun _ => 1500000000)] u ∧
      OnSchedule (fun _ _ => True) () 0 0 u ∧ u.launches 0 = 1 := by
  have hcontract : CronContract (fun (_ : Unit) t => t + 1) (fun _ _ => True) :=
    fun _ t => .inr ⟨trivial, Int.lt_succ t, fun _ _ h => h⟩
  obtain ⟨t, u, hs, hrun, hone⟩ : ∃ t u : Scheduler Unit,
      Steps (fun _ t => t + 1) .initial (.cron (bytes "beat") () 0) t ∧
        Run (Guarded (Steps (fun _ t => t + 1)) (Meets (fun _ t => t + 1) () 0 0)) t
          [.tick 1500000000 (fun _ => 1500000000)] u ∧ u.launches 0 = 1 := by
    refine ⟨_, _, rfl, .cons ⟨fun _ d hd _ => ?_, rfl⟩ (.nil _), rfl⟩
    have hd' : (d, 0) ∈ [((1000000000 : Time), 0)] := hd
    cases List.mem_singleton.mp hd'
    exact ⟨by decide, by decide, by decide, fun p hp => by cases hp⟩
  exact ⟨t, u, hs, hrun, (cron_on_schedule _ _ hcontract (.nil _) hs).1 (by decide) _ _ hrun, hone⟩

/-- An expression that matches no instant is launched at the next tick, and again
at every one after it. -/
theorem cron_without_match : CronContract (fun (_ : Unit) _ => invalidTime) (fun _ _ => False) ∧
    ∃ t u : Scheduler Unit,
      Steps (fun _ _ => invalidTime) .initial (.cron (bytes "feb30") () 1700000000000000000) t ∧
      Run (Steps (fun _ _ => invalidTime)) t
        [.tick 1700000000000000001 (fun _ => 1700000000000000002),
          .tick 1700000000000000003 (fun _ => 1700000000000000004)] u ∧
      u.launches 0 = 2 ∧ ¬ OnSchedule (fun _ _ => False) () 1700000000000000000 0 u := by
  refine ⟨fun _ _ => .inl rfl, _, _, rfl, .cons rfl (.cons rfl (.nil _)), rfl, fun h => ?_⟩
  obtain ⟨_, hm, _⟩ := h.fires _ List.mem_cons_self
  exact hm

end MigangBot.CronSchedule
