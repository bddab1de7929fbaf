import MigangBot.SchedulerBookkeeping

namespace MigangBot.SchedulerRemoval

open Lib.Maps Lib.Multimaps Lib.Runs Text Scheduling SchedulerSteps SchedulerBookkeeping

variable {Expr : Type} (cronNext : Expr → Int → Int)

def begun (s : Scheduler Expr) (i : Nat) : Nat :=
  s.executions.countP (fun e => e.task == i && e.stage != .launched)

def unbegun (s : Scheduler Expr) (i : Nat) : Nat :=
  s.executions.countP (fun e => e.task == i && e.stage == .launched)

/-- What a tick may do after the removal: as long as it would launch the removed
task, no execution may be outstanding and none may have begun since. -/
def Meets (begunThen i : Nat) (s : Scheduler Expr) : Action Expr → Prop
  | .tick now _ => s.alive i = true → (∃ e ∈ s.tasks.entries, e.2 = i ∧ e.1 ≤ now) → s.launches i = begunThen
  | _ => True

theorem begun_add_unbegun (s : Scheduler Expr) (i : Nat) : begun s i + unbegun s i = s.launches i := by
  rw [begun, unbegun, Scheduler.launches]
  induction s.executions with
  | nil => rfl
  | cons e es ih =>
      simp only [List.countP_cons]
      by_cases ht : e.task = i <;> cases hs : e.stage <;> simp [ht] <;> omega

theorem begun_le_launches (s : Scheduler Expr) (i : Nat) : begun s i ≤ s.launches i :=
  Nat.le.intro (begun_add_unbegun s i)

/-- A removed task: nothing owns it, its entries do not come back once gone,
and there is at most one. -/
structure Removed (i : Nat) (s : Scheduler Expr) : Prop where
  bookkeeping : Bookkeeping s
  inRange : i < s.objects.length
  notOwned : s.owned i = false
  notWaited : ∀ task, s.objects[i]? = some task → task.interval = false
  pending : s.pending i ≤ 1

theorem removed_of_remove {s s' : Scheduler Expr} (h : Bookkeeping s) {id : Bytes} {i : Nat}
    (hl : s.idToTask.lookup id = some i) (hr : s.remove id = (true, s')) : Removed i s' := by
  rw [Scheduler.remove, hl] at hr
  cases hr
  obtain ⟨task, ho, _⟩ := h.ownedId id i hl
  have hown : s.owned i = true := (owned_iff s i).mpr ⟨id, hl⟩
  refine ⟨removed_bookkeeping h hl, ?_, ?_, fun task' ho' => ?_, ?_⟩
  · rw [Scheduler.clearInterval, List.length_modify]
    exact (List.getElem?_eq_some_iff.mp ho).1
  · rw [owned_removed h hl]
    simp
  · rw [Scheduler.clearInterval, List.getElem?_modify_eq, Option.map_eq_map, Option.map_eq_some_iff] at ho'
    obtain ⟨_, _, rfl⟩ := ho'
    rfl
  · change s.pending i ≤ 1
    cases hrec : task.recur with
    | false =>
        have honce := (h.once i task ho hrec).2.1
        omega
    | true =>
        cases hint : task.interval with
        | false => exact Nat.le_of_eq (h.recurring i task ho hown hrec hint)
        | true =>
            have hw := h.waited i task ho hint
            rw [if_pos hown] at hw
            omega

theorem tick_pending_le (s : Scheduler Expr) (now : Time) (readings : Nat → Time) (i : Nat) :
    (s.manageTasks cronNext now readings).pending i ≤ s.pending i := by
  rw [tick_pending, ← dueCount_add_laterCount s now i]
  split <;> omega

theorem Removed.pending_step {i : Nat} {s t : Scheduler Expr} {a : Action Expr} (h : Removed i s)
    (hs : Steps cronNext s a t) : t.pending i ≤ s.pending i := by
  cases step_effect cronNext hs with
  | added _ =>
      rw [addTask_pending, if_neg (Ne.symm (Nat.ne_of_lt h.inRange))]
      exact Nat.le_refl _
  | unknown _ => exact Nat.le_refl _
  | removed _ => exact Nat.le_refl _
  | ticked => exact tick_pending_le cronNext s _ _ i
  | started _ _ => exact Nat.le_refl _
  | finished _ _ _ => exact Nat.le_refl _
  | @readded r e _ now task he _ ho hre hint =>
      have hne : e.task ≠ i := by
        rintro rfl
        exact Bool.false_ne_true ((h.notWaited task ho).symm.trans hint)
      refine Nat.le_trans (Nat.le_of_eq (pending_emplace s.tasks _ e.task i)) ?_
      rw [if_neg hne]
      exact Nat.le_refl _

theorem Removed.step {i : Nat} {s t : Scheduler Expr} {a : Action Expr} (h : Removed i s)
    (hs : Steps cronNext s a t) : Removed i t := by
  have hb := step_bookkeeping cronNext h.bookkeeping hs
  have hp := Nat.le_trans (h.pending_step cronNext hs) h.pending
  cases step_effect cronNext hs with
  | @added _ time task _ =>
      refine ⟨hb, ?_, by rw [owned_addTask s time task (Nat.ne_of_lt h.inRange), h.notOwned], fun task' ho => ?_, hp⟩
      · rw [addTask_objects, List.length_append]
        exact Nat.lt_add_right _ h.inRange
      · rw [addTask_objects, List.getElem?_append_left h.inRange] at ho
        exact h.notWaited task' ho
  | unknown _ => exact h
  | @removed _ j hl =>
      refine ⟨hb, ?_, by rw [owned_removed h.bookkeeping hl, h.notOwned, Bool.false_and], fun task ho => ?_, hp⟩
      · rw [Scheduler.clearInterval, List.length_modify]
        exact h.inRange
      · obtain ⟨task₀, ho₀, _, _, _, hv, _⟩ := removed_object ho
        rw [← Bool.not_eq_true]
        intro hint
        exact Bool.false_ne_true ((h.notWaited task₀ ho₀).symm.trans (hv hint))
  | ticked =>
      refine ⟨hb, by rw [tick_objects]; exact h.inRange, ?_, fun task ho => ?_, hp⟩
      · rw [Scheduler.owned, tick_idToTask]
        exact h.notOwned
      · rw [tick_objects] at ho
        exact h.notWaited task ho
  | started _ _ => exact ⟨hb, h.inRange, h.notOwned, h.notWaited, hp⟩
  | finished _ _ _ => exact ⟨hb, h.inRange, h.notOwned, h.notWaited, hp⟩
  | readded _ _ _ _ _ => exact ⟨hb, h.inRange, h.notOwned, h.notWaited, hp⟩

theorem launches_step {i : Nat} {s t : Scheduler Expr} {a : Action Expr} (hs : Steps cronNext s a t) :
    t.launches i = s.launches i ∨ ∃ now readings, a = .tick now readings ∧ s.alive i = true ∧
      (∃ e ∈ s.tasks.entries, e.2 = i ∧ e.1 ≤ now) ∧ t.launches i = s.launches i + s.dueCount now i := by
  cases step_effect cronNext hs with
  | added _ => exact .inl rfl
  | unknown _ => exact .inl rfl
  | removed _ => exact .inl rfl
  | @ticked now readings =>
      rw [tick_launches]
      by_cases hl : lockableTask s i = true ∧ 0 < s.dueCount now i
      · right
        rw [if_pos hl.1]
        rw [lockableTask, Bool.and_eq_true] at hl
        obtain ⟨e, he, hei⟩ := List.countP_pos_iff.mp hl.2
        obtain ⟨hmem, hle⟩ := Multimap.mem_upTo.mp he
        exact ⟨now, readings, rfl, hl.1.1, ⟨e, hmem, by simpa using hei, hle⟩, rfl⟩
      · left
        split
        next hlock =>
          have hz : ¬ 0 < s.dueCount now i := fun h => hl ⟨hlock, h⟩
          omega
        next => rfl
  | started _ _ => exact .inl (setStage_launches s _ _ i)
  | finished _ _ _ => exact .inl (setStage_launches s _ _ i)
  | readded _ _ _ _ _ => exact .inl (setStage_launches s _ _ i)

theorem begun_setStage {s : Scheduler Expr} {r : Nat} {e : Execution} (h : s.executions[r]? = some e)
    (stage : Stage) (i : Nat) :
    begun (s.setStage r stage) i + (if e.task = i ∧ e.stage ≠ .launched then 1 else 0) =
      begun s i + (if e.task = i ∧ stage ≠ .launched then 1 else 0) := by
  have hc := countP_modify h (fun e => { e with stage := stage }) (fun e => e.task == i && e.stage != .launched)
  simpa [begun, Scheduler.setStage] using hc

theorem begun_done {s : Scheduler Expr} {r : Nat} {e : Execution} (h : s.executions[r]? = some e)
    (hst : e.stage = .running) (i : Nat) : begun (s.setStage r .done) i = begun s i := by
  have hc := begun_setStage h .done i
  rw [hst] at hc
  simp only [ne_eq, reduceCtorEq, not_false_eq_true, and_true] at hc
  exact Nat.add_right_cancel hc

theorem begun_step {i : Nat} {s t : Scheduler Expr} {a : Action Expr} (hs : Steps cronNext s a t) :
    begun s i ≤ begun t i := by
  cases step_effect cronNext hs with
  | added _ => exact Nat.le_refl _
  | unknown _ => exact Nat.le_refl _
  | removed _ => exact Nat.le_refl _
  | ticked =>
      rw [begun, begun, tick_executions, List.countP_append]
      exact Nat.le_add_right _ _
  | started he hst =>
      have hc := begun_setStage he .running i
      rw [if_neg (fun h => h.2 hst)] at hc
      omega
  | finished he hst _ => exact Nat.le_of_eq (begun_done he hst i).symm
  | readded he hst _ _ _ => exact Nat.le_of_eq (begun_done he hst i).symm

theorem begun_run {i : Nat} {s t : Scheduler Expr} {as : List (Action Expr)}
    (h : Run (Steps cronNext) s as t) : begun s i ≤ begun t i := by
  induction h with
  | nil => exact Nat.le_refl _
  | cons hs _ ih => exact Nat.le_trans (begun_step cronNext hs) ih

theorem Removed.run {i : Nat} {s t : Scheduler Expr} {as : List (Action Expr)} (h : Removed i s)
    (hrun : Run (Steps cronNext) s as t) : Removed i t :=
  hrun.invariant (Removed i) (fun _ _ _ hr hs => hr.step cronNext hs) h

theorem dueCount_le_pending (s : Scheduler Expr) (now : Time) (i : Nat) : s.dueCount now i ≤ s.pending i :=
  Nat.le.intro (dueCount_add_laterCount s now i)

/-- A run whose ticks meet the condition launches at most once beyond what had
begun. -/
theorem launches_guarded {i b : Nat} {s t : Scheduler Expr} {as : List (Action Expr)} (h : Removed i s)
    (hb : s.launches i ≤ b + 1) (hrun : Run (Guarded (Steps cronNext) (Meets b i)) s as t) :
    t.launches i ≤ b + 1 := by
  induction hrun with
  | nil => exact hb
  | @cons s t u a as hs _ ih =>
      refine ih (h.step cronNext hs.2) ?_
      rcases launches_step cronNext hs.2 with heq | ⟨now, readings, rfl, halive, hdue, heq⟩
      · rw [heq]
        exact hb
      · have hone := Nat.le_trans (dueCount_le_pending s now i) h.pending
        have hthen := hs.1 halive hdue
        omega

/-- What is launched can all begin, whatever else goes on. -/
theorem all_begin (s : Scheduler Expr) (i : Nat) :
    ∃ as t, Run (Steps cronNext) s as t ∧ begun t i = s.launches i := by
  induction hn : unbegun s i generalizing s with
  | zero => exact ⟨[], s, .nil s, by rw [← begun_add_unbegun, hn, Nat.add_zero]⟩
  | succ n ih =>
      have hpos : 0 < unbegun s i := by omega
      obtain ⟨e, he, hp⟩ := List.countP_pos_iff.mp hpos
      rw [Bool.and_eq_true, beq_iff_eq, beq_iff_eq] at hp
      obtain ⟨r, hr⟩ := List.mem_iff_getElem?.mp he
      have hstart : Steps cronNext s (.start r) (s.setStage r .running) := by
        rw [Steps, step, hr]
        exact if_pos hp.2
      have hbegun := begun_setStage hr .running i
      rw [if_neg (fun h => h.2 hp.2), if_pos ⟨hp.1, by decide⟩] at hbegun
      have hsum := begun_add_unbegun s i
      have hsum' := begun_add_unbegun (s.setStage r .running) i
      rw [setStage_launches] at hsum'
      obtain ⟨as, t, hrun, ht⟩ := ih (s.setStage r .running) (by omega)
      exact ⟨_, t, .cons hstart hrun, by rw [ht, setStage_launches]⟩

theorem undone_step {i : Nat} {s t : Scheduler Expr} {a : Action Expr} (hs : Steps cronNext s a t) :
    t.undone i + s.launches i ≤ s.undone i + t.launches i := by
  cases step_effect cronNext hs with
  | added _ => exact Nat.le_refl _
  | unknown _ => exact Nat.le_refl _
  | removed _ => exact Nat.le_refl _
  | ticked =>
      rw [tick_undone, tick_launches]
      omega
  | @started r e he hst =>
      have hu := setStage_undone he .running i
      have hholds : e.holds i = true ↔ e.task = i ∧ Stage.running ≠ Stage.done := by
        simp [Execution.holds, hst]
      simp only [hholds] at hu
      rw [setStage_launches]
      omega
  | finished he hst _ =>
      have hu := setStage_undone he .done i
      rw [if_neg (c := _ ∧ Stage.done ≠ Stage.done) (fun h => h.2 rfl)] at hu
      rw [setStage_launches]
      omega
  | @readded r e _ now task he hst _ _ _ =>
      have hu := setStage_undone he .done i
      rw [if_neg (c := _ ∧ Stage.done ≠ Stage.done) (fun h => h.2 rfl)] at hu
      have hl := setStage_launches s r .done i
      have hu' : ((s.setStage r .done).addTaskInterval (getNewTime cronNext task.kind now) e.task).undone i =
        (s.setStage r .done).undone i := rfl
      have hl' : ((s.setStage r .done).addTaskInterval (getNewTime cronNext task.kind now) e.task).launches i =
        (s.setStage r .done).launches i := rfl
      omega

theorem unbegun_le_undone (s : Scheduler Expr) (i : Nat) : unbegun s i ≤ s.undone i := by
  apply List.countP_mono_left
  intro e _ h
  rw [Bool.and_eq_true, beq_iff_eq, beq_iff_eq] at h
  simp [Execution.holds, h.1, h.2]

/-- Without an entry or without an execution a removed task is never launched
again. -/
theorem quiet_run {i : Nat} {s t : Scheduler Expr} {as : List (Action Expr)} (h : Removed i s)
    (hq : s.pending i = 0 ∨ s.undone i = 0) (hrun : Run (Steps cronNext) s as t) :
    t.launches i = s.launches i := by
  induction hrun with
  | nil => rfl
  | @cons s t u a as hs _ ih =>
      have heq : t.launches i = s.launches i := by
        rcases launches_step cronNext hs with heq | ⟨now, readings, rfl, halive, ⟨e, he, hei, _⟩, _⟩
        · exact heq
        · rw [alive_iff_undone, h.notOwned] at halive
          have hpos : 0 < s.pending i := List.countP_pos_iff.mpr ⟨e, he, by simpa using hei⟩
          rcases hq with hq | hq
          · omega
          · rcases halive with halive | halive
            · cases halive
            · omega
      rw [← heq]
      refine ih (h.step cronNext hs) ?_
      have hp := h.pending_step cronNext hs
      have hu := undone_step (i := i) cronNext hs
      omega

theorem quiet_of_remove {s s' : Scheduler Expr} (h : Bookkeeping s) {id : Bytes} {i : Nat}
    {task : SchedulerTask Expr} (hl : s.idToTask.lookup id = some i) (ho : s.objects[i]? = some task)
    (hr : s.remove id = (true, s')) (hkind : task.recur = false ∨ task.interval = true) :
    (s'.pending i = 0 ∨ s'.undone i = 0) ∧ unbegun s' i ≤ 1 := by
  rw [Scheduler.remove, hl] at hr
  cases hr
  have hown : s.owned i = true := (owned_iff s i).mpr ⟨id, hl⟩
  have hunbegun := unbegun_le_undone s i
  have hundone := undone_le_launches s i
  change (s.pending i = 0 ∨ s.undone i = 0) ∧ unbegun s i ≤ 1
  rcases hkind with hrec | hint
  · have honce := (h.once i task ho hrec).2.1
    omega
  · have hw := h.waited i task ho hint
    rw [if_pos hown] at hw
    omega

/-- What can begin after a removal that found its task. -/
theorem removed_begins {as : List (Action Expr)} {s s' : Scheduler Expr}
    (hrun : Run (Steps cronNext) .initial as s) {id : Bytes} {i : Nat} {task : SchedulerTask Expr}
    (hl : s.idToTask.lookup id = some i) (ho : s.objects[i]? = some task) (hr : s.remove id = (true, s')) :
    (task.recur = false ∨ task.interval = true → ∀ bs t, Run (Steps cronNext) s' bs t →
      begun t i ≤ begun s' i + 1) ∧
    (unbegun s' i ≤ 1 → ∀ bs t, Run (Guarded (Steps cronNext) (Meets (begun s' i) i)) s' bs t →
      begun t i ≤ begun s' i + 1) ∧
    (1 < unbegun s' i → ∃ bs t, Run (Steps cronNext) s' bs t ∧ begun s' i + 1 < begun t i) ∧
    (∀ bs t a u, Run (Steps cronNext) s' bs t → Steps cronNext t a u → ¬ Meets (begun s' i) i t a →
      ∃ cs v, Run (Steps cronNext) u cs v ∧ begun s' i + 1 < begun v i) := by
  have hb := (run_history cronNext hrun).bookkeeping
  have hremoved := removed_of_remove hb hl hr
  have hsum := begun_add_unbegun s' i
  refine ⟨fun hkind bs t hbs => ?_, fun hone bs t hbs => ?_, fun hmore => ?_, fun bs t a u hbs hs hnot => ?_⟩
  · obtain ⟨hq, hone⟩ := quiet_of_remove hb hl ho hr hkind
    have heq := quiet_run cronNext hremoved hq hbs
    have hle := begun_le_launches t i
    omega
  · have hle := launches_guarded cronNext hremoved (b := begun s' i) (by omega) hbs
    exact Nat.le_trans (begun_le_launches t i) hle
  · obtain ⟨bs, t, hbs, ht⟩ := all_begin cronNext s' i
    exact ⟨bs, t, hbs, by omega⟩
  · obtain ⟨cs, v, hcs, hv⟩ := all_begin cronNext u i
    refine ⟨cs, v, hcs, ?_⟩
    have hsince := begun_run (i := i) cronNext hbs
    have hle := begun_le_launches t i
    cases a with
    | tick now readings =>
        have hmeets : ∃ _ : t.alive i = true, (∃ e ∈ t.tasks.entries, e.2 = i ∧ e.1 ≤ now) ∧
            t.launches i ≠ begun s' i := by
          by_contra hno
          refine hnot fun halive hdue => ?_
          by_contra hne
          exact hno ⟨halive, hdue, hne⟩
        obtain ⟨halive, ⟨e, he, hei, hle'⟩, hne⟩ := hmeets
        have hpos : 0 < t.dueCount now i :=
          List.countP_pos_iff.mpr ⟨e, Multimap.mem_upTo.mpr ⟨he, hle'⟩, by simpa using hei⟩
        have hlock : lockableTask t i = true := by
          rw [lockableTask, halive, Bool.true_and, Option.isSome_iff_exists]
          exact ⟨_, List.getElem?_eq_getElem (hremoved.run cronNext hbs).inRange⟩
        cases hs
        rw [tick_launches, if_pos hlock] at hv
        omega
    | _ => exact absurd trivial hnot

def cleanHistory : List (Action Unit) := [.every (bytes "clean") 3 0, .tick 4 (fun _ => 4), .start 0]

theorem removed_begins_once : ∃ s s' t : Scheduler Unit,
    Run (Steps (fun _ _ => 0)) .initial cleanHistory s ∧ s.remove (bytes "clean") = (true, s') ∧
      Run (Guarded (Steps (fun _ _ => 0)) (Meets (begun s' 0) 0)) s' [.tick 7 (fun _ => 7), .start 1] t ∧
      begun t 0 ≤ begun s' 0 + 1 := by
  obtain ⟨s, s', t, hrun, hl, ⟨task, ho⟩, hr, hone, hguarded⟩ : ∃ s s' t : Scheduler Unit,
      Run (Steps (fun _ _ => 0)) .initial cleanHistory s ∧ s.idToTask.lookup (bytes "clean") = some 0 ∧
        (∃ task, s.objects[0]? = some task) ∧ s.remove (bytes "clean") = (true, s') ∧ unbegun s' 0 ≤ 1 ∧
        Run (Guarded (Steps (fun _ _ => 0)) (Meets (begun s' 0) 0)) s' [.tick 7 (fun _ => 7), .start 1] t :=
    ⟨_, _, _, .cons rfl (.cons rfl (.cons rfl (.nil _))), rfl, ⟨_, rfl⟩, rfl, by decide,
      .cons ⟨fun _ _ => rfl, rfl⟩ (.cons ⟨trivial, rfl⟩ (.nil _))⟩
  exact ⟨s, s', t, hrun, hr, hguarded, (removed_begins (fun _ _ => 0) hrun hl ho hr).2.1 hone _ _ hguarded⟩

/-- Two launches outstanding when the task is removed both begin. -/
theorem removed_begins_twice : ∃ s s' t : Scheduler Unit,
    Run (Steps (fun _ _ => 0)) .initial
        [.every (bytes "clean") 3 0, .tick 4 (fun _ => 4), .tick 7 (fun _ => 7)] s ∧
      s.remove (bytes "clean") = (true, s') ∧ Run (Steps (fun _ _ => 0)) s' [.start 0, .start 1] t ∧
      begun s' 0 = 0 ∧ begun t 0 = 2 :=
  ⟨_, _, _, .cons rfl (.cons rfl (.cons rfl (.nil _))), rfl, .cons rfl (.cons rfl (.nil _)), rfl, rfl⟩

end MigangBot.SchedulerRemoval
