import MigangBot.CronSchedule
import MigangBot.SchedulerRegistration

namespace MigangBot.SchedulerThread

open Lib.Maps Lib.Multimaps Lib.Runs Text Scheduling SchedulerSteps SchedulerBookkeeping SchedulerRegistration
  CronSchedule

/-- Where the managing thread stands in its loop: before the test of done, before
each of its two looks at the queue, in a sleep with its end, before manage_tasks. -/
inductive Place
  | top
  | asked
  | looked
  | asleep (wake : Option Time)
  | awake
  | ended
  deriving DecidableEq

/-- The scheduler with the thread of its own. A call that adds a task is in the
lock from its entry to its interrupt, and the destructor is closing between its
two statements. -/
structure Threads (Expr : Type) where
  scheduler : Scheduler Expr
  now : Time
  done : Bool
  interrupted : Bool
  locked : Bool
  closing : Bool
  place : Place

variable {Expr : Type}

def Threads.start (now : Time) : Threads Expr := ⟨.initial, now, false, false, false, false, .top⟩

/-- Whether a call, or the end of a coroutine, goes through add_task or
add_task_interval. -/
def adds (s : Scheduler Expr) : Action Expr → Bool
  | .remove _ | .start _ | .tick _ _ => false
  | .complete r _ _ =>
      ((s.executions[r]?).bind fun e => (s.objects[e.task]?).map fun task => e.readds && task.interval).getD false
  | _ => true

def isTick : Action Expr → Bool
  | .tick _ _ => true
  | _ => false

inductive Move (Expr : Type)
  | clock (time : Time)
  | call (a : Action Expr)
  | interrupt
  | manage (readings : Nat → Time)
  | shut
  | shutInterrupt

section Moves

variable (cronNext : Expr → Int → Int)

/-- The next statement of the managing thread. A look at the first entry of an
empty queue has no result, nor has a sleep before its end. -/
def Threads.turn (m : Threads Expr) (readings : Nat → Time) : Option (Threads Expr) :=
  match m.place with
  | .top => some { m with place := if m.done then .ended else .asked }
  | .asked => some { m with place := if m.scheduler.tasks.entries = [] then .asleep none else .looked }
  | .looked => (m.scheduler.tasks.entries.head?).map fun e => { m with place := .asleep (some e.1) }
  | .asleep wake =>
      if m.interrupted ∨ ∃ d ∈ wake, d ≤ m.now then some { m with interrupted := false, place := .awake } else none
  | .awake =>
      if m.locked then none
      else some { m with scheduler := m.scheduler.manageTasks cronNext m.now readings, place := .top }
  | .ended => none

def next (m : Threads Expr) : Move Expr → Option (Threads Expr)
  | .clock time => some { m with now := time }
  | .call a =>
      if isTick a then none
      else if adds m.scheduler a then
        if m.locked then none
        else (step cronNext m.scheduler a).map fun s => { m with scheduler := s, locked := true }
      else (step cronNext m.scheduler a).map fun s => { m with scheduler := s }
  | .interrupt => if m.locked then some { m with interrupted := true, locked := false } else none
  | .manage readings => m.turn cronNext readings
  | .shut => some { m with done := true, closing := true }
  | .shutInterrupt => if m.closing then some { m with interrupted := true, closing := false } else none

def Moves (m : Threads Expr) (v : Move Expr) (n : Threads Expr) : Prop := next cronNext m v = some n

/-- The managing thread cannot go on. -/
def Blocked (m : Threads Expr) : Prop := ∀ readings, m.turn cronNext readings = none

/-- All a move can do. -/
inductive Moved (m : Threads Expr) : Move Expr → Threads Expr → Prop
  | clock (time : Time) : Moved m (.clock time) { m with now := time }
  | added {a : Action Expr} {s : Scheduler Expr} (htick : isTick a = false) (hs : Steps cronNext m.scheduler a s)
      (hlock : m.locked = false) :
      Moved m (.call a) { m with scheduler := s, locked := true }
  | called {a : Action Expr} {s : Scheduler Expr} (htick : isTick a = false) (hs : Steps cronNext m.scheduler a s)
      (htasks : s.tasks = m.scheduler.tasks) :
      Moved m (.call a) { m with scheduler := s }
  | interrupt (hlock : m.locked = true) : Moved m .interrupt { m with interrupted := true, locked := false }
  | left {readings : Nat → Time} (hplace : m.place = .top) (hdone : m.done = true) :
      Moved m (.manage readings) { m with place := .ended }
  | asked {readings : Nat → Time} (hplace : m.place = .top) (hdone : m.done = false) :
      Moved m (.manage readings) { m with place := .asked }
  | empty {readings : Nat → Time} (hplace : m.place = .asked) (hempty : m.scheduler.tasks.entries = []) :
      Moved m (.manage readings) { m with place := .asleep none }
  | looked {readings : Nat → Time} (hplace : m.place = .asked) (hsome : m.scheduler.tasks.entries ≠ []) :
      Moved m (.manage readings) { m with place := .looked }
  | slept {readings : Nat → Time} {e : Time × Nat} (hplace : m.place = .looked)
      (hfirst : m.scheduler.tasks.entries.head? = some e) :
      Moved m (.manage readings) { m with place := .asleep (some e.1) }
  | woken {readings : Nat → Time} {wake : Option Time} (hplace : m.place = .asleep wake) :
      Moved m (.manage readings) { m with interrupted := false, place := .awake }
  | managed {readings : Nat → Time} (hplace : m.place = .awake) (hlock : m.locked = false) :
      Moved m (.manage readings)
        { m with scheduler := m.scheduler.manageTasks cronNext m.now readings, place := .top }
  | shut : Moved m .shut { m with done := true, closing := true }
  | shutInterrupt (hclosing : m.closing = true) :
      Moved m .shutInterrupt { m with interrupted := true, closing := false }

theorem tasks_of_not_adds {s t : Scheduler Expr} {a : Action Expr} (hs : Steps cronNext s a t)
    (htick : isTick a = false) (hadds : adds s a = false) : t.tasks = s.tasks := by
  cases step_effect cronNext hs with
  | added h =>
      cases a with
      | remove id | tick now readings | start r | complete r threw now => cases h
      | inAt id time | every id time now | cron id expression now | interval id time now => cases hadds
  | unknown _ => rfl
  | removed _ => rfl
  | ticked => cases htick
  | started _ _ => rfl
  | finished _ _ _ => rfl
  | readded he _ ho hre hint =>
      rw [adds, he, Option.bind_some, ho, Option.map_some, hre, hint] at hadds
      cases hadds

theorem executions_of_call {s t : Scheduler Expr} {a : Action Expr} (hs : Steps cronNext s a t)
    (htick : isTick a = false) : t.executions.length = s.executions.length := by
  cases step_effect cronNext hs with
  | added _ => rw [addTask_executions]
  | unknown _ => rfl
  | removed _ => rfl
  | ticked => cases htick
  | started _ _ => exact List.length_modify ..
  | finished _ _ _ => exact List.length_modify ..
  | readded _ _ _ _ _ => exact List.length_modify ..

/-- Only a tick takes entries out of the queue. -/
theorem entry_of_call {s t : Scheduler Expr} {a : Action Expr} (hs : Steps cronNext s a t)
    (htick : isTick a = false) {e : Time × Nat} (he : e ∈ s.tasks.entries) : e ∈ t.tasks.entries := by
  cases step_effect cronNext hs with
  | added _ => exact Multimap.mem_emplace.mpr (.inr he)
  | unknown _ => exact he
  | removed _ => exact he
  | ticked => cases htick
  | started _ _ => exact he
  | finished _ _ _ => exact he
  | readded _ _ _ _ _ => exact Multimap.mem_emplace.mpr (.inr he)

theorem moved_of_turn {m n : Threads Expr} {readings : Nat → Time} (h : m.turn cronNext readings = some n) :
    Moved cronNext m (.manage readings) n := by
  rw [Threads.turn] at h
  cases hplace : m.place with
  | top =>
      rw [hplace] at h
      cases h
      by_cases hdone : m.done = true
      · rw [if_pos hdone]
        exact .left hplace hdone
      · rw [if_neg hdone]
        exact .asked hplace (Bool.eq_false_iff.mpr hdone)
  | asked =>
      rw [hplace] at h
      cases h
      by_cases hempty : m.scheduler.tasks.entries = []
      · rw [if_pos hempty]
        exact .empty hplace hempty
      · rw [if_neg hempty]
        exact .looked hplace hempty
  | looked =>
      rw [hplace, Option.map_eq_some_iff] at h
      obtain ⟨e, he, rfl⟩ := h
      exact .slept hplace he
  | asleep wake =>
      rw [hplace] at h
      dsimp only at h
      split at h
      · cases h
        exact .woken hplace
      · cases h
  | awake =>
      rw [hplace] at h
      dsimp only at h
      split at h
      next => cases h
      next hlock =>
        cases h
        exact .managed hplace (Bool.eq_false_iff.mpr hlock)
  | ended =>
      rw [hplace] at h
      cases h

theorem moved_of_next {m n : Threads Expr} {v : Move Expr} (h : Moves cronNext m v n) : Moved cronNext m v n := by
  rw [Moves, next.eq_def] at h
  cases v with
  | clock time =>
      cases h
      exact .clock time
  | call a =>
      cases htick : isTick a with
      | true => simp [htick] at h
      | false =>
          cases hadds : adds m.scheduler a with
          | true =>
              cases hlock : m.locked with
              | true => simp [htick, hadds, hlock] at h
              | false =>
                  simp only [htick, hadds, hlock, Bool.false_eq_true, if_false, if_true, Option.map_eq_some_iff] at h
                  obtain ⟨s, hs, rfl⟩ := h
                  exact .added htick hs hlock
          | false =>
              simp only [htick, hadds, Bool.false_eq_true, if_false, Option.map_eq_some_iff] at h
              obtain ⟨s, hs, rfl⟩ := h
              exact .called htick hs (tasks_of_not_adds cronNext hs htick hadds)
  | interrupt =>
      dsimp only at h
      split at h
      next hlock =>
        cases h
        exact .interrupt hlock
      next => cases h
  | manage readings => exact moved_of_turn cronNext h
  | shut =>
      cases h
      exact .shut
  | shutInterrupt =>
      dsimp only at h
      split at h
      next hclosing =>
        cases h
        exact .shutInterrupt hclosing
      next => cases h

end Moves

section Wakefulness

variable {cronNext : Expr → Int → Int}

/-- A sleep that no interrupt is to end lasts no longer than the first entry
waits, and none goes on after the end was asked for. -/
structure Vigilant (m : Threads Expr) : Prop where
  looked : m.place = .looked → m.scheduler.tasks.entries ≠ []
  asleep : ∀ wake, m.place = .asleep wake → m.interrupted = false → m.locked = false →
    ∀ e ∈ m.scheduler.tasks.entries, ∃ d ∈ wake, d ≤ e.1
  closed : m.done = true →
    m.closing = true ∨ m.interrupted = true ∨ m.place = .awake ∨ m.place = .top ∨ m.place = .ended
  closing : m.closing = true → m.done = true
  ended : m.place = .ended → m.done = true

theorem vigilant_start (now : Time) : Vigilant (Threads.start now : Threads Expr) where
  looked h := by cases h
  asleep _ h := by cases h
  closed h := by cases h
  closing h := by cases h
  ended h := by cases h

theorem le_of_head? {tasks : Multimap Time Nat} {first e : Time × Nat} (hfirst : tasks.entries.head? = some first)
    (he : e ∈ tasks.entries) : first.1 ≤ e.1 := by
  have hsorted := tasks.sorted
  cases hes : tasks.entries with
  | nil =>
      rw [hes] at he
      cases he
  | cons x xs =>
      rw [hes, List.head?_cons, Option.some.injEq] at hfirst
      rw [hes, List.pairwise_cons] at hsorted
      rw [hes, List.mem_cons] at he
      subst hfirst
      rcases he with rfl | he
      · exact Int.le_refl _
      · exact hsorted.1 e he

/-- Between its test of done and its next sleep the thread has the interrupt of the
destructor before it. -/
theorem Vigilant.asking {m : Threads Expr} (h : Vigilant m) (hplace : m.place = .asked ∨ m.place = .looked)
    (hdone : m.done = true) : m.closing = true ∨ m.interrupted = true := by
  rcases h.closed hdone with hclosing | hinterrupted | hother
  · exact .inl hclosing
  · exact .inr hinterrupted
  · exfalso
    rcases hplace with hplace | hplace <;> rw [hplace] at hother <;> rcases hother with h | h | h <;> cases h

theorem Vigilant.moved {m n : Threads Expr} {v : Move Expr} (h : Vigilant m) (hm : Moved cronNext m v n) :
    Vigilant n := by
  cases hm with
  | clock time => exact ⟨h.looked, h.asleep, h.closed, h.closing, h.ended⟩
  | added htick hs hlock =>
      refine ⟨fun hplace => ?_, fun _ _ _ hfree => Bool.noConfusion hfree, h.closed, h.closing, h.ended⟩
      obtain ⟨e, es, hes⟩ := List.exists_cons_of_ne_nil (h.looked hplace)
      exact List.ne_nil_of_mem (entry_of_call cronNext hs htick (hes ▸ List.mem_cons_self))
  | called htick hs htasks =>
      refine ⟨fun hplace => ?_, fun wake hplace hquiet hfree => ?_, h.closed, h.closing, h.ended⟩
      · rw [htasks]
        exact h.looked hplace
      · rw [htasks]
        exact h.asleep wake hplace hquiet hfree
  | interrupt hlock =>
      exact ⟨h.looked, fun _ _ hquiet => Bool.noConfusion hquiet, fun _ => .inr (.inl rfl), h.closing, h.ended⟩
  | left hplace hdone => exact ⟨nofun, nofun, fun _ => .inr (.inr (.inr (.inr rfl))), h.closing, fun _ => hdone⟩
  | asked hplace hdone =>
      refine ⟨nofun, nofun, fun hyes => ?_, h.closing, nofun⟩
      rw [hdone] at hyes
      cases hyes
  | empty hplace hempty =>
      refine ⟨nofun, fun _ _ _ _ e he => ?_, fun hdone => ?_, h.closing, nofun⟩
      · rw [hempty] at he
        cases he
      · exact (h.asking (.inl hplace) hdone).imp id .inl
  | looked hplace hsome =>
      exact ⟨fun _ => hsome, nofun, fun hdone => (h.asking (.inl hplace) hdone).imp id .inl, h.closing, nofun⟩
  | slept hplace hfirst =>
      refine ⟨nofun, fun wake hwake _ _ e he => ?_, fun hdone => ?_, h.closing, nofun⟩
      · cases hwake
        exact ⟨_, rfl, le_of_head? hfirst he⟩
      · exact (h.asking (.inr hplace) hdone).imp id .inl
  | woken hplace => exact ⟨nofun, nofun, fun _ => .inr (.inr (.inl rfl)), h.closing, nofun⟩
  | managed hplace hlock => exact ⟨nofun, nofun, fun _ => .inr (.inr (.inr (.inl rfl))), h.closing, nofun⟩
  | shut => exact ⟨h.looked, h.asleep, fun _ => .inl rfl, fun _ => rfl, fun _ => rfl⟩
  | shutInterrupt hclosing =>
      exact ⟨h.looked, fun _ _ hquiet => Bool.noConfusion hquiet, fun _ => .inr (.inl rfl), nofun, h.ended⟩

theorem Vigilant.run {m n : Threads Expr} {vs : List (Move Expr)} (h : Vigilant m)
    (hrun : Run (Moves cronNext) m vs n) : Vigilant n :=
  hrun.invariant Vigilant (fun _ _ _ hi hs => hi.moved (moved_of_next cronNext hs)) h

/-- Where the thread cannot go on. -/
theorem blocked_cases {m : Threads Expr} (h : Vigilant m) (hblocked : Blocked cronNext m) :
    m.place = .ended ∨ (m.place = .awake ∧ m.locked = true) ∨
      ∃ wake, m.place = .asleep wake ∧ m.interrupted = false ∧ ∀ d ∈ wake, m.now < d := by
  have hnone := hblocked (fun _ => 0)
  rw [Threads.turn] at hnone
  cases hplace : m.place with
  | top | asked =>
      rw [hplace] at hnone
      cases hnone
  | looked =>
      rw [hplace, Option.map_eq_none_iff, List.head?_eq_none_iff] at hnone
      exact absurd hnone (h.looked hplace)
  | asleep wake =>
      rw [hplace] at hnone
      dsimp only at hnone
      split at hnone
      · cases hnone
      next hwake =>
        rw [not_or, Bool.not_eq_true] at hwake
        exact .inr (.inr ⟨wake, rfl, hwake.1, fun d hd => Int.not_le.mp fun hle => hwake.2 ⟨d, hd, hle⟩⟩)
  | awake =>
      rw [hplace] at hnone
      dsimp only at hnone
      split at hnone
      next hlock => exact .inr (.inl ⟨rfl, hlock⟩)
      next => cases hnone
  | ended => exact .inl rfl

/-- A thread that cannot go on, while no call holds the lock, has ended, or nothing
in the queue is due and its end was not asked for. -/
theorem Vigilant.blocked {m : Threads Expr} (h : Vigilant m) (hblocked : Blocked cronNext m)
    (hlock : m.locked = false) (hclosing : m.closing = false) :
    m.place = .ended ∨ (m.done = false ∧ ∀ e ∈ m.scheduler.tasks.entries, m.now < e.1) := by
  rcases blocked_cases h hblocked with hended | ⟨_, hheld⟩ | ⟨wake, hplace, hquiet, hlate⟩
  · exact .inl hended
  · rw [hlock] at hheld
    cases hheld
  · refine .inr ⟨Bool.eq_false_iff.mpr fun hdone => ?_, fun e he => ?_⟩
    · have hclosed := h.closed hdone
      rw [hclosing, hquiet, hplace] at hclosed
      simp at hclosed
    · obtain ⟨d, hd, hle⟩ := h.asleep wake hplace hquiet hlock e he
      exact Int.lt_of_lt_of_le (hlate d hd) hle

end Wakefulness

section Progress

variable {cronNext : Expr → Int → Int}

def isManage : Move Expr → Bool
  | .manage _ => true
  | _ => false

/-- The moves that leave an entry where it is: the clock is not set back before it,
its task is not removed and the end is not asked for. -/
def Leaves (id : Bytes) (due : Time) (_ : Threads Expr) : Move Expr → Prop
  | .clock time => due ≤ time
  | .call (.remove id') => id' ≠ id
  | .shut => False
  | _ => True

/-- How many statements there are until manage_tasks is over. -/
def Place.toManage : Place → Nat
  | .top => 5
  | .asked => 4
  | .looked => 3
  | .asleep _ => 2
  | .awake => 1
  | .ended => 0

structure Expecting (i : Nat) (id : Bytes) (due : Time) (m : Threads Expr) : Prop where
  waiting : Waiting i id due m.scheduler
  late : due ≤ m.now
  opened : m.done = false
  vigilant : Vigilant m

/-- The entry was launched, at its instant or later. -/
def Served (i : Nat) (due : Time) (m : Threads Expr) : Prop :=
  ∃ p ∈ launchesOf m.scheduler i, p.1 = due ∧ due ≤ p.2

theorem bookkeeping_moved {m n : Threads Expr} {v : Move Expr} (h : Bookkeeping m.scheduler)
    (hm : Moved cronNext m v n) : Bookkeeping n.scheduler := by
  cases hm with
  | added _ hs _ => exact step_bookkeeping cronNext h hs
  | called _ hs _ => exact step_bookkeeping cronNext h hs
  | @managed readings _ _ => exact step_bookkeeping cronNext h (a := .tick m.now readings) rfl
  | _ => exact h

theorem launch_kept {s t : Scheduler Expr} {a : Action Expr} (hs : Steps cronNext s a t) {i : Nat}
    {p : Time × Time} (hp : p ∈ launchesOf s i) : p ∈ launchesOf t i := by
  cases step_effect cronNext hs with
  | added _ => exact hp
  | unknown _ => exact hp
  | removed _ => exact hp
  | ticked =>
      rw [launchesOf_tick, List.mem_append]
      exact .inl hp
  | started _ _ =>
      rw [launchesOf_setStage]
      exact hp
  | finished _ _ _ =>
      rw [launchesOf_setStage]
      exact hp
  | @readded r _ _ _ _ _ _ _ _ _ =>
      rw [← launchesOf_setStage s r .done] at hp
      exact hp

theorem Served.moved {i : Nat} {due : Time} {m n : Threads Expr} {v : Move Expr} (h : Served i due m)
    (hm : Moved cronNext m v n) : Served i due n := by
  obtain ⟨p, hp, hrest⟩ := h
  cases hm with
  | added _ hs _ => exact ⟨p, launch_kept hs hp, hrest⟩
  | called _ hs _ => exact ⟨p, launch_kept hs hp, hrest⟩
  | @managed readings _ _ => exact ⟨p, launch_kept (a := .tick m.now readings) rfl hp, hrest⟩
  | _ => exact ⟨p, hp, hrest⟩

theorem before_of_leaves {id : Bytes} {due : Time} {m : Threads Expr} {a : Action Expr}
    (h : Leaves id due m (.call a)) (htick : isTick a = false) : Before id due a := by
  cases a with
  | remove id' => exact h
  | tick now readings => cases htick
  | _ => trivial

theorem Expecting.moved {i : Nat} {id : Bytes} {due : Time} {m n : Threads Expr} {v : Move Expr}
    (h : Expecting i id due m) (hleaves : Leaves id due m v) (hm : Moved cronNext m v n) :
    Served i due n ∨ (Expecting i id due n ∧
      n.place.toManage + (if isManage v then 1 else 0) ≤ m.place.toManage) := by
  have hvigilant := h.vigilant.moved hm
  cases hm with
  | clock time => exact .inr ⟨⟨h.waiting, hleaves, h.opened, hvigilant⟩, Nat.le_refl _⟩
  | added htick hs hlock =>
      have hwaiting := h.waiting.step cronNext (before_of_leaves hleaves htick) hs
      exact .inr ⟨⟨hwaiting, h.late, h.opened, hvigilant⟩, Nat.le_refl _⟩
  | called htick hs htasks =>
      have hwaiting := h.waiting.step cronNext (before_of_leaves hleaves htick) hs
      exact .inr ⟨⟨hwaiting, h.late, h.opened, hvigilant⟩, Nat.le_refl _⟩
  | interrupt hlock => exact .inr ⟨⟨h.waiting, h.late, h.opened, hvigilant⟩, Nat.le_refl _⟩
  | left hplace hdone =>
      rw [h.opened] at hdone
      cases hdone
  | asked hplace hdone =>
      rw [hplace]
      exact .inr ⟨⟨h.waiting, h.late, h.opened, hvigilant⟩, Nat.le_refl _⟩
  | empty hplace hempty =>
      have hqueued := h.waiting.queued
      rw [hempty] at hqueued
      cases hqueued
  | looked hplace hsome =>
      rw [hplace]
      exact .inr ⟨⟨h.waiting, h.late, h.opened, hvigilant⟩, Nat.le_refl _⟩
  | slept hplace hfirst =>
      rw [hplace]
      exact .inr ⟨⟨h.waiting, h.late, h.opened, hvigilant⟩, Nat.le_refl _⟩
  | woken hplace =>
      rw [hplace]
      exact .inr ⟨⟨h.waiting, h.late, h.opened, hvigilant⟩, Nat.le_refl _⟩
  | @managed readings hplace hlock =>
      obtain ⟨e, he, htask, hdue, hat⟩ := h.waiting.launched cronNext h.late readings
      refine .inl ⟨(due, m.now), ?_, rfl, h.late⟩
      rw [launchesOf, List.mem_map]
      refine ⟨e, List.mem_filter.mpr ⟨he, by rw [htask]; exact beq_self_eq_true i⟩, ?_⟩
      rw [hdue, hat]
  | shut => exact hleaves.elim
  | shutInterrupt hclosing => exact .inr ⟨⟨h.waiting, h.late, h.opened, hvigilant⟩, Nat.le_refl _⟩

theorem toManage_le (place : Place) : place.toManage ≤ 5 := by
  cases place <;> simp [Place.toManage]

theorem bookkeeping_run {m n : Threads Expr} {vs : List (Move Expr)} (h : Bookkeeping m.scheduler)
    (hrun : Run (Moves cronNext) m vs n) : Bookkeeping n.scheduler :=
  hrun.invariant (fun m => Bookkeeping m.scheduler)
    (fun _ _ _ hi hs => bookkeeping_moved hi (moved_of_next cronNext hs)) h

/-- An entry that is due is launched before the thread has made five more of its
moves, and until then only a call that holds the lock can keep it from the next. -/
theorem due_task_launched {now due : Time} {i : Nat} {id : Bytes} {m n : Threads Expr} {vs us : List (Move Expr)}
    (hrun : Run (Moves cronNext) (.start now) vs m) (hmapped : m.scheduler.idToTask.lookup id = some i)
    (hqueued : (due, i) ∈ m.scheduler.tasks.entries) (hlate : due ≤ m.now) (hopen : m.done = false)
    (hrest : Run (Guarded (Moves cronNext) (Leaves id due)) m us n) :
    (∃ p ∈ launchesOf n.scheduler i, p.1 = due ∧ due ≤ p.2) ∨
      (us.countP isManage < 5 ∧ (n.locked = true ∨ ¬ Blocked cronNext n)) := by
  have hbookkeeping : Bookkeeping m.scheduler := bookkeeping_run initial_bookkeeping hrun
  have hexpecting : Expecting i id due m :=
    ⟨⟨hbookkeeping, hmapped, hqueued⟩, hlate, hopen, (vigilant_start now).run hrun⟩
  rcases hrest.within (Expecting i id due) (Served i due) (fun m => m.place.toManage) isManage
    (fun _ _ _ hg hs => hg.moved (moved_of_next cronNext hs.2))
    (fun _ _ _ hi hs => hi.moved hs.1 (moved_of_next cronNext hs.2)) hexpecting with hserved | ⟨hn, hturns⟩
  · exact .inl hserved
  · have hnotEnded : n.place ≠ .ended := by
      intro hended
      have hdone := hn.vigilant.ended hended
      rw [hn.opened] at hdone
      cases hdone
    have hpositive : 0 < n.place.toManage := by
      cases hplace : n.place with
      | ended => exact absurd hplace hnotEnded
      | _ => exact Nat.succ_pos _
    have hmost := toManage_le m.place
    refine .inr ⟨by omega, ?_⟩
    by_contra hno
    rw [not_or, Bool.not_eq_true, not_not] at hno
    have hclosing : n.closing = false := by
      rw [Bool.eq_false_iff]
      intro hclosing
      have hdone := hn.vigilant.closing hclosing
      rw [hn.opened] at hdone
      cases hdone
    rcases hn.vigilant.blocked hno.2 hno.1 hclosing with hended | ⟨_, hlater⟩
    · exact hnotEnded hended
    · exact absurd hn.late (Int.not_le.mpr (hlater _ hn.waiting.queued))

/-- A task, and one whole turn of the loop. -/
theorem due_task_launched_added : ∃ m n : Threads Unit,
    Run (Moves fun _ t => t) (.start 0) [.call (.inAt (bytes "once") 7), .interrupt, .clock 8] m ∧
    Run (Guarded (Moves fun _ t => t) (Leaves (bytes "once") 7)) m (List.replicate 5 (.manage fun _ => 9)) n ∧
    ∃ p ∈ launchesOf n.scheduler 0, p.1 = 7 ∧ 7 ≤ p.2 := by
  obtain ⟨m, n, hrun, hmapped, hqueued, hlate, hopen, hrest⟩ : ∃ m n : Threads Unit,
      Run (Moves fun _ t => t) (.start 0) [.call (.inAt (bytes "once") 7), .interrupt, .clock 8] m ∧
      m.scheduler.idToTask.lookup (bytes "once") = some 0 ∧ (7, 0) ∈ m.scheduler.tasks.entries ∧ 7 ≤ m.now ∧ m.done = false ∧
      Run (Guarded (Moves fun _ t => t) (Leaves (bytes "once") 7)) m (List.replicate 5 (.manage fun _ => 9)) n :=
    ⟨_, _, .cons rfl (.cons rfl (.cons rfl (.nil _))), rfl, List.mem_cons_self, by decide, rfl,
      .cons ⟨trivial, rfl⟩ (.cons ⟨trivial, rfl⟩ (.cons ⟨trivial, rfl⟩ (.cons ⟨trivial, rfl⟩
        (.cons ⟨trivial, rfl⟩ (.nil _)))))⟩
  exact ⟨m, n, hrun, hrest, (due_task_launched hrun hmapped hqueued hlate hopen hrest).resolve_right
    fun hmore => Nat.lt_irrefl 5 hmore.1⟩

end Progress

section Shutdown

variable {cronNext : Expr → Int → Int}

/-- How many statements there are until the loop is left. -/
def Place.toEnd : Place → Nat
  | .ended => 0
  | .top => 1
  | .awake => 2
  | .asleep _ => 3
  | .looked => 4
  | .asked => 5

structure Closing (m : Threads Expr) : Prop where
  done : m.done = true
  vigilant : Vigilant m

theorem Closing.moved {m n : Threads Expr} {v : Move Expr} (h : Closing m) (hm : Moved cronNext m v n) :
    Closing n ∧ n.place.toEnd + (if isManage v then 1 else 0) ≤ m.place.toEnd := by
  have hvigilant := h.vigilant.moved hm
  cases hm with
  | asked _ hdone =>
      rw [h.done] at hdone
      cases hdone
  | left hplace _ | looked hplace _ | slept hplace _ | woken hplace | managed hplace _ =>
      rw [hplace]
      exact ⟨⟨h.done, hvigilant⟩, Nat.le_refl _⟩
  | empty hplace _ =>
      rw [hplace]
      exact ⟨⟨h.done, hvigilant⟩, Nat.le_succ 4⟩
  | shut => exact ⟨⟨rfl, hvigilant⟩, Nat.le_refl _⟩
  | _ => exact ⟨⟨h.done, hvigilant⟩, Nat.le_refl _⟩

/-- After its end the thread launches nothing. -/
theorem ended_moved {m n : Threads Expr} {v : Move Expr} (h : m.place = .ended) (hm : Moved cronNext m v n) :
    n.place = .ended ∧ n.scheduler.executions.length = m.scheduler.executions.length := by
  cases hm with
  | added htick hs _ => exact ⟨h, executions_of_call cronNext hs htick⟩
  | called htick hs _ => exact ⟨h, executions_of_call cronNext hs htick⟩
  | left hplace _ | asked hplace _ | empty hplace _ | looked hplace _ | slept hplace _ | woken hplace
  | managed hplace _ =>
      rw [h] at hplace
      cases hplace
  | _ => exact ⟨h, rfl⟩

/-- Once its end is asked for, the thread ends before it has made six more of its
moves, kept back by nothing but a call in the lock or the destructor itself, and
from then on no task is launched. -/
theorem shutdown_ends {now : Time} {m n : Threads Expr} {vs us : List (Move Expr)}
    (hrun : Run (Moves cronNext) (.start now) vs m) (hdone : m.done = true) (hrest : Run (Moves cronNext) m us n) :
    us.countP isManage ≤ 5 ∧
    (n.place = .ended ∨ n.locked = true ∨ n.closing = true ∨ ¬ Blocked cronNext n) ∧
    (n.place = .ended → ∀ ws k, Run (Moves cronNext) n ws k →
      k.place = .ended ∧ k.scheduler.executions.length = n.scheduler.executions.length) := by
  have hclosing : Closing m := ⟨hdone, (vigilant_start now).run hrun⟩
  rcases hrest.within Closing (fun _ => False) (fun m => m.place.toEnd) isManage (fun _ _ _ hg _ => hg.elim)
    (fun _ _ _ hi hs => .inr (hi.moved (moved_of_next cronNext hs))) hclosing with hno | ⟨hn, hturns⟩
  · exact hno.elim
  have hmost : m.place.toEnd ≤ 5 := by
    cases m.place <;> simp [Place.toEnd]
  refine ⟨by omega, ?_, fun hended ws k hlast => ?_⟩
  · by_contra hno
    simp only [not_or, Bool.not_eq_true, not_not] at hno
    obtain ⟨hplace, hlock, hopen, hblocked⟩ := hno
    rcases hn.vigilant.blocked hblocked hlock hopen with hended | ⟨hnot, _⟩
    · exact hplace hended
    · rw [hn.done] at hnot
      cases hnot
  · exact hlast.invariant
      (fun k => k.place = .ended ∧ k.scheduler.executions.length = n.scheduler.executions.length)
      (fun _ _ _ hi hs => (ended_moved hi.1 (moved_of_next cronNext hs)).imp id (fun he => he.trans hi.2))
      ⟨hended, rfl⟩

theorem shutdown_ends_asleep : ∃ m n : Threads Unit,
    Run (Moves fun _ t => t) (.start 0) [.manage (fun _ => 0), .manage (fun _ => 0), .shut] m ∧
    Run (Moves fun _ t => t) m (.shutInterrupt :: List.replicate 3 (.manage fun _ => 0)) n ∧
    (n.place = .ended ∨ n.locked = true ∨ n.closing = true ∨ ¬ Blocked (fun _ t => t) n) := by
  obtain ⟨m, n, hrun, hdone, hrest⟩ : ∃ m n : Threads Unit,
      Run (Moves fun _ t => t) (.start 0) [.manage (fun _ => 0), .manage (fun _ => 0), .shut] m ∧ m.done = true ∧
      Run (Moves fun _ t => t) m (.shutInterrupt :: List.replicate 3 (.manage fun _ => 0)) n :=
    ⟨_, _, .cons rfl (.cons rfl (.cons rfl (.nil _))), rfl, .cons rfl (.cons rfl (.cons rfl (.cons rfl (.nil _))))⟩
  exact ⟨m, n, hrun, hrest, (shutdown_ends hrun hdone hrest).2.1⟩

end Shutdown

end MigangBot.SchedulerThread
