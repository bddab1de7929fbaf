import MigangBot.SchedulerBookkeeping

namespace MigangBot.SchedulerRegistration

open Lib.Maps Lib.Multimaps Lib.Runs Text Scheduling SchedulerSteps SchedulerBookkeeping

variable {Expr : Type} (cronNext : Expr → Int → Int)

/-- A task under the identifier waits to run, or an execution of it is not over. -/
def Busy (s : Scheduler Expr) (id : Bytes) : Prop :=
  ∃ i task, s.objects[i]? = some task ∧ task.taskUniqueId = id ∧ s.alive i = true ∧
    (0 < s.pending i ∨ 0 < s.undone i)

/-- A one-shot task that has run to its end is still registered under the
identifier. -/
def Spent (s : Scheduler Expr) (id : Bytes) : Prop :=
  ∃ i task, s.idToTask.lookup id = some i ∧ s.objects[i]? = some task ∧ task.recur = false ∧
    0 < s.launches i ∧ s.undone i = 0

def Before (id : Bytes) (due : Time) : Action Expr → Prop
  | .remove id' => id' ≠ id
  | .tick now _ => now < due
  | _ => True

structure Live (s : Scheduler Expr) (i : Nat) (id : Bytes) (due : Time) : Prop where
  mapped : s.idToTask.lookup id = some i
  launched : ∀ as u now readings v, Run (Steps cronNext) s as u → (∀ a ∈ as, Before id due a) →
    Steps cronNext u (.tick now readings) v → due ≤ now →
    ∃ e ∈ v.executions, e.task = i ∧ e.due = due ∧ e.launchedAt = now

structure Waiting (i : Nat) (id : Bytes) (due : Time) (s : Scheduler Expr) : Prop where
  bookkeeping : Bookkeeping s
  mapped : s.idToTask.lookup id = some i
  queued : (due, i) ∈ s.tasks.entries

theorem Waiting.step {i : Nat} {id : Bytes} {due : Time} {s t : Scheduler Expr} {a : Action Expr}
    (h : Waiting i id due s) (ha : Before id due a) (hs : Steps cronNext s a t) : Waiting i id due t := by
  have hb := step_bookkeeping cronNext h.bookkeeping hs
  cases step_effect cronNext hs with
  | added _ =>
      refine ⟨hb, ?_, Multimap.mem_emplace.mpr (.inr h.queued)⟩
      rw [addTask_lookup, if_neg, h.mapped]
      rintro ⟨_, hnone⟩
      rw [h.mapped] at hnone
      cases hnone
  | unknown _ => exact h
  | removed _ =>
      refine ⟨hb, ?_, h.queued⟩
      rw [lookup_erase_eq, if_neg (Ne.symm ha), h.mapped]
  | @ticked now readings =>
      refine ⟨hb, by rw [tick_idToTask, h.mapped], ?_⟩
      rw [(manageTasks_perm cronNext s now readings).mem_iff, List.mem_append]
      have hq := h.queued
      rw [← s.tasks.upTo_append_beyond now, List.mem_append] at hq
      rcases hq with hq | hq
      · exact absurd (Multimap.le_of_mem_upTo hq) (Int.not_le.mpr ha)
      · exact .inr hq
  | started _ _ => exact ⟨hb, h.mapped, h.queued⟩
  | finished _ _ _ => exact ⟨hb, h.mapped, h.queued⟩
  | readded _ _ _ _ _ => exact ⟨hb, h.mapped, Multimap.mem_emplace.mpr (.inr h.queued)⟩

theorem Waiting.run {i : Nat} {id : Bytes} {due : Time} {s t : Scheduler Expr} {as : List (Action Expr)}
    (h : Waiting i id due s) (hrun : Run (Steps cronNext) s as t) (ha : ∀ a ∈ as, Before id due a) :
    Waiting i id due t := by
  induction hrun with
  | nil => exact h
  | cons hs _ ih =>
      exact ih (h.step cronNext (ha _ List.mem_cons_self) hs) (fun a hm => ha a (List.mem_cons_of_mem _ hm))

theorem Waiting.launched {i : Nat} {id : Bytes} {due : Time} {s : Scheduler Expr} (h : Waiting i id due s)
    {now : Time} (hnow : due ≤ now) (readings : Nat → Time) :
    ∃ e ∈ (s.manageTasks cronNext now readings).executions, e.task = i ∧ e.due = due ∧ e.launchedAt = now := by
  obtain ⟨task, ho, _⟩ := h.bookkeeping.ownedId id i h.mapped
  have hdue : (due, i) ∈ s.dueTasks now := by
    rw [Scheduler.dueTasks, List.mem_filter, Multimap.mem_upTo]
    refine ⟨⟨h.queued, hnow⟩, ?_⟩
    rw [Scheduler.lockable, ho, Bool.and_eq_true, alive_iff, owned_iff]
    exact ⟨.inl ⟨id, h.mapped⟩, rfl⟩
  refine ⟨s.execution now (due, i), ?_, rfl, rfl, rfl⟩
  rw [tick_executions, List.mem_append]
  exact .inr (List.mem_map_of_mem hdue)

/-- An identifier that is taken, though nothing under it waits or runs, is taken
by a one-shot task that is spent. -/
theorem spent_of_taken {s : Scheduler Expr} (h : Bookkeeping s) {id : Bytes} (hfree : ¬ Busy s id)
    {i : Nat} (hl : s.idToTask.lookup id = some i) : Spent s id := by
  obtain ⟨task, ho, hid⟩ := h.ownedId id i hl
  have hown : s.owned i = true := (owned_iff s i).mpr ⟨id, hl⟩
  have halive : s.alive i = true := (alive_iff s i).mpr (.inl hown)
  have hidle : s.pending i = 0 ∧ s.undone i = 0 := by
    have hnot : ¬ (0 < s.pending i ∨ 0 < s.undone i) := fun h' => hfree ⟨i, task, ho, hid, halive, h'⟩
    omega
  have hrec : task.recur = false := by
    cases hr : task.recur with
    | false => rfl
    | true =>
        cases hv : task.interval with
        | false =>
            have hp := h.recurring i task ho hown hr hv
            omega
        | true =>
            have hw := h.waited i task ho hv
            rw [if_pos hown] at hw
            omega
  have honce := (h.once i task ho hrec).2.2 hown
  exact ⟨i, task, hl, ho, hrec, by omega, hidle.2⟩

/-- For every adding call in every reachable state. -/
theorem registration_live_iff {as : List (Action Expr)} {s t : Scheduler Expr}
    (hrun : Run (Steps cronNext) .initial as s) {a : Action Expr} {due : Time} {task : SchedulerTask Expr}
    (ha : a.task cronNext = some (due, task)) (hs : Steps cronNext s a t)
    (hfree : ¬ Busy s (carriedId s task)) :
    Live cronNext t s.objects.length (carriedId s task) due ↔ ¬ Spent s (carriedId s task) := by
  have hb := (run_history cronNext hrun).bookkeeping
  have ht : t = s.addTask due task := by
    cases step_effect cronNext hs with
    | added ha' =>
        rw [ha] at ha'
        cases ha'
        rfl
    | _ => cases ha
  constructor
  · rintro hlive ⟨i, old, hl, ho, _⟩
    have hmapped := hlive.mapped
    rw [ht, addTask_lookup, if_neg, hl] at hmapped
    · cases hmapped
      exact absurd (List.getElem?_eq_some_iff.mp ho).1 (Nat.lt_irrefl _)
    · rintro ⟨_, hnone⟩
      rw [hl] at hnone
      cases hnone
  · intro hspent
    have hnone : s.idToTask.lookup (carriedId s task) = none := by
      cases hl : s.idToTask.lookup (carriedId s task) with
      | none => rfl
      | some i => exact absurd (spent_of_taken hb hfree hl) hspent
    have hw : Waiting s.objects.length (carriedId s task) due t := by
      refine ⟨step_bookkeeping cronNext hb hs, ?_, ?_⟩
      · rw [ht, addTask_lookup, if_pos ⟨rfl, hnone⟩]
      · rw [ht]
        exact Multimap.mem_emplace.mpr (.inl rfl)
    refine ⟨hw.mapped, fun as u now readings v hrun' hbefore htick hnow => ?_⟩
    cases htick
    exact (hw.run cronNext hrun' hbefore).launched cronNext hnow readings

/-- A reminder that is removed before it is due leaves its identifier to the next one. -/
theorem registration_live_removed : ∃ s t : Scheduler Unit,
    Run (Steps (fun _ _ => 0)) .initial [.inAt (bytes "remind") 5, .remove (bytes "remind")] s ∧
      Steps (fun _ _ => 0) s (.inAt (bytes "remind") 9) t ∧ Live (fun _ _ => 0) t 1 (bytes "remind") 9 := by
  have hrun : Run (Steps (fun _ _ => 0)) (Scheduler.initial : Scheduler Unit)
      [.inAt (bytes "remind") 5, .remove (bytes "remind")] _ := .cons rfl (.cons rfl (.nil _))
  refine ⟨_, _, hrun, rfl, (registration_live_iff (fun _ _ => 0) hrun (a := .inAt (bytes "remind") 9) rfl rfl ?_).mpr ?_⟩
  · rintro ⟨i, task, ho, _, halive, _⟩
    cases i with
    | zero => exact absurd halive (by decide)
    | succ i => cases ho
  · rintro ⟨i, task, hl, _⟩
    cases hl

def remindHistory : List (Action Unit) :=
  [.inAt (bytes "remind") 5, .tick 5 (fun _ => 5), .start 0, .complete 0 false 6]

/-- Once the first reminder has run, a second one under its identifier is never
launched. -/
theorem registration_dropped : ∃ s t : Scheduler Unit, Run (Steps (fun _ _ => 0)) .initial remindHistory s ∧
    ¬ Busy s (bytes "remind") ∧ Steps (fun _ _ => 0) s (.inAt (bytes "remind") 10) t ∧
      ¬ Live (fun _ _ => 0) t 1 (bytes "remind") 10 ∧
      ∃ v, Steps (fun _ _ => 0) t (.tick 10 (fun _ => 10)) v ∧ v.launches 1 = 0 := by
  refine ⟨_, _, .cons rfl (.cons rfl (.cons rfl (.cons rfl (.nil _)))), ?_, rfl,
    fun hlive => absurd hlive.mapped (by decide), _, rfl, rfl⟩
  rintro ⟨i, task, ho, _, _, hp⟩
  cases i with
  | zero => exact absurd hp (by decide)
  | succ i => cases ho

end MigangBot.SchedulerRegistration
