import MigangBot.Text
import MigangBot.Lib.Maps
import MigangBot.Lib.Multimaps
import Mathlib.Data.Int.Order.Basic

namespace MigangBot.Scheduling

open Lib.Maps Lib.Multimaps Text

/-- Instants and durations of the system clock, in its ticks from the epoch. -/
abbrev Time := Int

def ticksPerSecond : Int := 1000000000

def toTimeT (t : Time) : Int := t.tdiv ticksPerSecond

def fromTimeT (seconds : Int) : Time := seconds * ticksPerSecond

def invalidTime : Int := -1

inductive TaskKind (Expr : Type)
  | inTask
  | everyTask (time : Time)
  | cronTask (cron : Expr)
  deriving DecidableEq

structure SchedulerTask (Expr : Type) where
  kind : TaskKind Expr
  taskUniqueId : Bytes
  recur : Bool
  interval : Bool
  deriving DecidableEq

inductive Stage
  | launched
  | running
  | done
  deriving DecidableEq

/-- One coroutine: the task its closure holds, which of the two closures it is,
and for the record the entry and the tick it comes from. -/
structure Execution where
  task : Nat
  readds : Bool
  stage : Stage
  due : Time
  launchedAt : Time
  deriving DecidableEq

/-- Tasks are named by the order they were made in; one that nothing owns any
more stays in the list but cannot be locked. -/
structure Scheduler (Expr : Type) where
  objects : List (SchedulerTask Expr)
  tasks : Multimap Time Nat
  idToTask : FiniteMap Bytes Nat
  autoIncreaseId : Nat
  executions : List Execution

variable {Expr : Type}

def Scheduler.initial : Scheduler Expr := ⟨[], .empty, ∅, 0, []⟩

def Scheduler.owned (s : Scheduler Expr) (i : Nat) : Bool := s.idToTask.entries.any (fun e => e.2 == i)

def Execution.holds (r : Execution) (i : Nat) : Bool := r.task == i && r.stage != .done

def Scheduler.alive (s : Scheduler Expr) (i : Nat) : Bool :=
  s.owned i || s.executions.any (fun r => r.holds i)

section Clock

variable (cronNext : Expr → Int → Int)

def getNewTime (kind : TaskKind Expr) (now : Time) : Time :=
  match kind with
  | .inTask => 0
  | .everyTask time => now + time
  | .cronTask cron => fromTimeT (cronNext cron (toTimeT now))

def internalId (n : Nat) : Bytes := bytes "__internal__" ++ (Nat.toDigits 10 n).map char

/-- The search ends with the first number whose identifier is free; one more
trial than there are identifiers always finds it. -/
def findRandomId (ids : FiniteMap Bytes Nat) : Nat → Nat → Nat
  | 0, n => n
  | trials + 1, n => if (ids.lookup (internalId n)).isSome then findRandomId ids trials (n + 1) else n

def Scheduler.randomNumber (s : Scheduler Expr) : Nat :=
  findRandomId s.idToTask (s.idToTask.keys.length + 1) s.autoIncreaseId

/-- The entry is queued before the identifier is looked at, and an identifier in
use keeps its task. -/
def Scheduler.addTask (s : Scheduler Expr) (time : Time) (t : SchedulerTask Expr) : Scheduler Expr :=
  let i := s.objects.length
  let n := s.randomNumber
  let id := if t.taskUniqueId.isEmpty then internalId n else t.taskUniqueId
  { s with
    objects := s.objects ++ [{ t with taskUniqueId := id }]
    tasks := s.tasks.emplace time i
    idToTask := if (s.idToTask.lookup id).isSome then s.idToTask else s.idToTask.insert id i
    autoIncreaseId := if t.taskUniqueId.isEmpty then n + 1 else s.autoIncreaseId }

def Scheduler.addTaskInterval (s : Scheduler Expr) (time : Time) (i : Nat) : Scheduler Expr :=
  { s with tasks := s.tasks.emplace time i }

def Scheduler.clearInterval (s : Scheduler Expr) (i : Nat) : Scheduler Expr :=
  { s with objects := s.objects.modify i (fun t => { t with interval := false }) }

def Scheduler.remove (s : Scheduler Expr) (id : Bytes) : Bool × Scheduler Expr :=
  match s.idToTask.lookup id with
  | none => (false, s)
  | some i => (true, { s.clearInterval i with idToTask := s.idToTask.erase id })

def Scheduler.launch (s : Scheduler Expr) (e : Time × Nat) (readds : Bool) (now : Time) : Scheduler Expr :=
  { s with executions := s.executions ++ [⟨e.2, readds, .launched, e.1, now⟩] }

/-- What the tick does with one due entry; the tasks that are to be added again
are collected in a multimap of their own. -/
def Scheduler.visit (now : Time) (readings : Nat → Time) (p : Scheduler Expr × Multimap Time Nat)
    (e : Time × Nat) : Scheduler Expr × Multimap Time Nat :=
  match p.1.objects[e.2]? with
  | none => p
  | some task =>
      if !p.1.alive e.2 then p
      else if task.interval then (p.1.launch e true now, p.2)
      else (p.1.launch e false now,
        if task.recur then p.2.emplace (getNewTime cronNext task.kind (readings e.2)) e.2 else p.2)

def Scheduler.manageTasks (s : Scheduler Expr) (now : Time) (readings : Nat → Time) : Scheduler Expr :=
  let p := (s.tasks.upTo now).foldl (Scheduler.visit cronNext now readings) (s, .empty)
  { p.1 with tasks := (p.1.tasks.eraseUpTo now).emplaceAll p.2.entries }

def Scheduler.setStage (s : Scheduler Expr) (r : Nat) (stage : Stage) : Scheduler Expr :=
  { s with executions := s.executions.modify r (fun e => { e with stage := stage }) }

/-- The end of a coroutine, by return or by a caught exception alike. -/
def Scheduler.complete (s : Scheduler Expr) (r : Nat) (e : Execution) (now : Time) : Scheduler Expr :=
  let s := s.setStage r .done
  match s.objects[e.task]? with
  | none => s
  | some task =>
      if e.readds && task.interval then s.addTaskInterval (getNewTime cronNext task.kind now) e.task else s

inductive Action (Expr : Type)
  | inAt (id : Bytes) (time : Time)
  | every (id : Bytes) (time : Time) (now : Time)
  | cron (id : Bytes) (expression : Expr) (now : Time)
  | interval (id : Bytes) (time : Time) (now : Time)
  | remove (id : Bytes)
  | tick (now : Time) (readings : Nat → Time)
  | start (r : Nat)
  | complete (r : Nat) (threw : Bool) (now : Time)

/-- The task an adding call makes, with the time of its first entry. -/
def Action.task : Action Expr → Option (Time × SchedulerTask Expr)
  | .inAt id time => some (time, ⟨.inTask, id, false, false⟩)
  | .every id time now => some (getNewTime cronNext (.everyTask time) now, ⟨.everyTask time, id, true, false⟩)
  | .cron id expression now =>
      some (getNewTime cronNext (.cronTask expression) now, ⟨.cronTask expression, id, true, false⟩)
  | .interval id time now => some (now, ⟨.everyTask time, id, true, true⟩)
  | _ => none

def step (s : Scheduler Expr) (a : Action Expr) : Option (Scheduler Expr) :=
  match a with
  | .remove id => some (s.remove id).2
  | .tick now readings => some (s.manageTasks cronNext now readings)
  | .start r =>
      match s.executions[r]? with
      | some e => if e.stage = .launched then some (s.setStage r .running) else none
      | none => none
  | .complete r _ now =>
      match s.executions[r]? with
      | some e => if e.stage = .running then some (s.complete cronNext r e now) else none
      | none => none
  | a => (a.task cronNext).map (fun p => s.addTask p.1 p.2)

end Clock

theorem owned_iff (s : Scheduler Expr) (i : Nat) :
    s.owned i = true ↔ ∃ id, s.idToTask.lookup id = some i := by
  simp [Scheduler.owned, any_entries_iff s.idToTask (fun v => v == i)]

theorem alive_iff (s : Scheduler Expr) (i : Nat) :
    s.alive i = true ↔ s.owned i = true ∨ ∃ r ∈ s.executions, r.task = i ∧ r.stage ≠ .done := by
  simp [Scheduler.alive, Execution.holds]

/-- How many entries a task has, how many executions of it are not over, and
how many it has had. -/
def Scheduler.pending (s : Scheduler Expr) (i : Nat) : Nat := s.tasks.entries.countP (fun e => e.2 == i)

def Scheduler.undone (s : Scheduler Expr) (i : Nat) : Nat := s.executions.countP (fun r => r.holds i)

def Scheduler.launches (s : Scheduler Expr) (i : Nat) : Nat := s.executions.countP (fun r => r.task == i)

def Scheduler.dueCount (s : Scheduler Expr) (now : Time) (i : Nat) : Nat :=
  (s.tasks.upTo now).countP (fun e => e.2 == i)

def Scheduler.laterCount (s : Scheduler Expr) (now : Time) (i : Nat) : Nat :=
  (s.tasks.beyond now).countP (fun e => e.2 == i)

theorem dueCount_add_laterCount (s : Scheduler Expr) (now : Time) (i : Nat) :
    s.dueCount now i + s.laterCount now i = s.pending i := by
  rw [Scheduler.dueCount, Scheduler.laterCount, ← List.countP_append, Multimap.upTo_append_beyond,
    Scheduler.pending]

theorem alive_iff_undone (s : Scheduler Expr) (i : Nat) :
    s.alive i = true ↔ s.owned i = true ∨ 0 < s.undone i := by
  rw [Scheduler.alive, Bool.or_eq_true, Scheduler.undone, List.countP_pos_iff, List.any_eq_true]

section Tick

variable (cronNext : Expr → Int → Int)

def Scheduler.lockable (s : Scheduler Expr) (e : Time × Nat) : Bool := s.alive e.2 && (s.objects[e.2]?).isSome

def Scheduler.execution (s : Scheduler Expr) (now : Time) (e : Time × Nat) : Execution :=
  ⟨e.2, (s.objects[e.2]?.map SchedulerTask.interval).getD false, .launched, e.1, now⟩

def Scheduler.recurrence (s : Scheduler Expr) (readings : Nat → Time) (e : Time × Nat) :
    Option (Time × Nat) :=
  match s.objects[e.2]? with
  | some task =>
      if task.recur && !task.interval then some (getNewTime cronNext task.kind (readings e.2), e.2) else none
  | none => none

theorem visit_eq (now : Time) (readings : Nat → Time) (s : Scheduler Expr) (m : Multimap Time Nat)
    (e : Time × Nat) :
    Scheduler.visit cronNext now readings (s, m) e =
      if s.lockable e then
        ({ s with executions := s.executions ++ [s.execution now e] },
          m.emplaceAll (s.recurrence cronNext readings e).toList)
      else (s, m) := by
  simp only [Scheduler.visit, Scheduler.lockable, Scheduler.execution, Scheduler.recurrence, Scheduler.launch]
  obtain ho | ⟨task, ho⟩ := Option.eq_none_or_eq_some s.objects[e.2]?
  · simp only [ho, Option.isSome_none, Bool.and_false, Bool.false_eq_true, if_false]
  · simp only [ho, Option.isSome_some, Bool.and_true, Option.map_some, Option.getD_some]
    cases s.alive e.2 <;> cases hi : task.interval <;> cases hr : task.recur <;> simp [Multimap.emplaceAll]

/-- Launching a task that could be locked leaves which ones can be. -/
theorem lockable_append (s : Scheduler Expr) {x : Execution} (h : s.alive x.task = true) :
    Scheduler.lockable { s with executions := s.executions ++ [x] } = s.lockable := by
  have halive (i : Nat) : Scheduler.alive { s with executions := s.executions ++ [x] } i = s.alive i := by
    by_cases hi : x.task = i
    · subst hi
      rw [h, alive_iff]
      rw [alive_iff] at h
      rcases h with h | ⟨r, hr, hrt⟩
      · exact .inl h
      · exact .inr ⟨r, List.mem_append_left _ hr, hrt⟩
    · have hx : x.holds i = false := by simp [Execution.holds, hi]
      simp [Scheduler.alive, Scheduler.owned, hx]
  funext e
  simp only [Scheduler.lockable, halive]

theorem foldl_visit (now : Time) (readings : Nat → Time) (es : List (Time × Nat)) (s : Scheduler Expr)
    (m : Multimap Time Nat) :
    es.foldl (Scheduler.visit cronNext now readings) (s, m) =
      ({ s with executions := s.executions ++ (es.filter s.lockable).map (s.execution now) },
        m.emplaceAll ((es.filter s.lockable).filterMap (s.recurrence cronNext readings))) := by
  induction es generalizing s m with
  | nil => simp [Multimap.emplaceAll]
  | cons e es ih =>
      rw [List.foldl_cons, visit_eq]
      by_cases he : s.lockable e = true
      · have halive : s.alive (s.execution now e).task = true := by
          rw [Scheduler.lockable, Bool.and_eq_true] at he
          exact he.1
        rw [if_pos he, ih, lockable_append s halive, List.filter_cons_of_pos he]
        simp only [List.map_cons, List.append_assoc, List.singleton_append, Prod.mk.injEq]
        refine ⟨rfl, ?_⟩
        rw [Multimap.emplaceAll, Multimap.emplaceAll, ← List.foldl_append]
        cases hr : s.recurrence cronNext readings e with
        | none => rw [List.filterMap_cons_none hr]; rfl
        | some p => rw [List.filterMap_cons_some hr]; rfl
      · rw [if_neg he, ih, List.filter_cons_of_neg he]

def Scheduler.dueTasks (s : Scheduler Expr) (now : Time) : List (Time × Nat) :=
  (s.tasks.upTo now).filter s.lockable

theorem manageTasks_eq (s : Scheduler Expr) (now : Time) (readings : Nat → Time) :
    s.manageTasks cronNext now readings =
      { s with
        executions := s.executions ++ (s.dueTasks now).map (s.execution now)
        tasks := (s.tasks.eraseUpTo now).emplaceAll (Multimap.empty.emplaceAll
          ((s.dueTasks now).filterMap (s.recurrence cronNext readings))).entries } := by
  rw [Scheduler.manageTasks, foldl_visit]
  rfl

theorem manageTasks_perm (s : Scheduler Expr) (now : Time) (readings : Nat → Time) :
    (s.manageTasks cronNext now readings).tasks.entries.Perm
      ((s.dueTasks now).filterMap (s.recurrence cronNext readings) ++ s.tasks.beyond now) := by
  have h := (Multimap.empty : Multimap Time Nat).emplaceAll_perm
    ((s.dueTasks now).filterMap (s.recurrence cronNext readings))
  rw [show (Multimap.empty : Multimap Time Nat).entries = [] from rfl, List.append_nil] at h
  rw [manageTasks_eq]
  exact ((s.tasks.eraseUpTo now).emplaceAll_perm _).trans (h.append_right _)

end Tick

end MigangBot.Scheduling
