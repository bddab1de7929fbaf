import MigangBot.SchedulerSteps
import MigangBot.Lib.Runs

namespace MigangBot.SchedulerBookkeeping

open Lib.Maps Lib.Multimaps Lib.Runs Text Scheduling SchedulerSteps

variable {Expr : Type}

/-- What the three maps agree on between two steps. -/
structure Bookkeeping (s : Scheduler Expr) : Prop where
  pendingInRange : ∀ i, s.objects.length ≤ i → s.pending i = 0
  launchedInRange : ∀ i, s.objects.length ≤ i → s.launches i = 0
  ownedId : ∀ id i, s.idToTask.lookup id = some i →
    ∃ task, s.objects[i]? = some task ∧ task.taskUniqueId = id
  once : ∀ i task, s.objects[i]? = some task → task.recur = false →
    task.interval = false ∧ s.pending i + s.launches i ≤ 1 ∧
      (s.owned i = true → s.pending i + s.launches i = 1)
  recurring : ∀ i task, s.objects[i]? = some task → s.owned i = true → task.recur = true →
    task.interval = false → s.pending i = 1
  waited : ∀ i task, s.objects[i]? = some task → task.interval = true →
    if s.owned i = true then s.pending i + s.undone i = 1 else s.undone i = 0
  readds : ∀ (r : Nat) (e : Execution) task, s.executions[r]? = some e → e.stage ≠ .done →
    s.objects[e.task]? = some task → task.interval = true → e.readds = true

theorem initial_bookkeeping : Bookkeeping (Scheduler.initial : Scheduler Expr) where
  pendingInRange _ _ := rfl
  launchedInRange _ _ := rfl
  ownedId _ _ h := by cases h
  once _ _ h := by cases h
  recurring _ _ h := by cases h
  waited _ _ h := by cases h
  readds _ _ _ h := by cases h

theorem owned_addTask (s : Scheduler Expr) (time : Time) (t : SchedulerTask Expr) {i : Nat}
    (hi : i ≠ s.objects.length) : (s.addTask time t).owned i = s.owned i := by
  rw [Bool.eq_iff_iff, owned_iff, owned_iff]
  simp only [addTask_lookup]
  constructor
  · rintro ⟨id, h⟩
    split at h
    · cases h
      exact absurd rfl hi
    · exact ⟨id, h⟩
  · rintro ⟨id, h⟩
    refine ⟨id, ?_⟩
    rw [if_neg, h]
    rintro ⟨_, hnone⟩
    rw [h] at hnone
    cases hnone

theorem addTask_old {s : Scheduler Expr} {time : Time} {t task : SchedulerTask Expr} {i : Nat}
    (h : (s.addTask time t).objects[i]? = some task) (hne : i ≠ s.objects.length) : s.objects[i]? = some task := by
  rw [addTask_objects, getElem?_snoc] at h
  exact h.resolve_right fun hnew => hne hnew.1

theorem addTask_new {s : Scheduler Expr} {time : Time} {t task : SchedulerTask Expr}
    (h : (s.addTask time t).objects[s.objects.length]? = some task) :
    task = { t with taskUniqueId := carriedId s t } := by
  rw [addTask_objects] at h
  simpa using h.symm

theorem Bookkeeping.not_launched {s : Scheduler Expr} (h : Bookkeeping s) {r : Nat} {e : Execution}
    (he : s.executions[r]? = some e) : e.task ≠ s.objects.length := by
  intro heq
  have hmem : 0 < s.launches e.task := List.countP_pos_iff.mpr ⟨e, List.mem_of_getElem? he, by simp⟩
  rw [h.launchedInRange e.task (Nat.le_of_eq heq.symm)] at hmem
  exact absurd hmem (Nat.lt_irrefl 0)

theorem added_bookkeeping {s : Scheduler Expr} (h : Bookkeeping s) (time : Time) {t : SchedulerTask Expr}
    (ht : t.recur = false → t.interval = false) : Bookkeeping (s.addTask time t) := by
  have hpending : ∀ i, i ≠ s.objects.length → (s.addTask time t).pending i = s.pending i := by
    intro i hne
    rw [addTask_pending, if_neg (Ne.symm hne), Nat.add_zero]
  have hpendingNew : (s.addTask time t).pending s.objects.length = 1 := by
    rw [addTask_pending, if_pos rfl, h.pendingInRange _ (Nat.le_refl _)]
  have hlaunches : ∀ i, (s.addTask time t).launches i = s.launches i := fun i => rfl
  have hundone : ∀ i, (s.addTask time t).undone i = s.undone i := fun i => rfl
  have hundoneNew : s.undone s.objects.length = 0 := by
    have hle := undone_le_launches s s.objects.length
    rw [h.launchedInRange _ (Nat.le_refl _)] at hle
    exact Nat.le_zero.mp hle
  refine ⟨fun i hi => ?_, fun i hi => ?_, fun id i hl => ?_, fun i task hi hr => ?_,
    fun i task hi ho hr hv => ?_, fun i task hi hv => ?_, fun r e task he hs ho hv => ?_⟩
  · rw [addTask_objects, List.length_append, List.length_singleton] at hi
    rw [hpending i (by omega), h.pendingInRange i (by omega)]
  · rw [addTask_objects, List.length_append, List.length_singleton] at hi
    rw [hlaunches, h.launchedInRange i (by omega)]
  · rw [addTask_lookup] at hl
    split at hl
    next hid =>
      cases hl
      exact ⟨_, by rw [addTask_objects, List.getElem?_concat_length], hid.1.symm⟩
    next =>
      obtain ⟨task, hi, hid⟩ := h.ownedId id i hl
      exact ⟨task, by rw [addTask_objects, getElem?_snoc_of_some hi], hid⟩
  · by_cases hne : i = s.objects.length
    · subst hne
      have hlen := h.launchedInRange _ (Nat.le_refl s.objects.length)
      rw [hpendingNew, hlaunches, hlen, addTask_new hi]
      rw [addTask_new hi] at hr
      exact ⟨ht hr, Nat.le_refl 1, fun _ => rfl⟩
    · rw [hpending i hne, hlaunches, owned_addTask s time t hne]
      exact h.once i task (addTask_old hi hne) hr
  · by_cases hne : i = s.objects.length
    · subst hne
      exact hpendingNew
    · rw [hpending i hne]
      exact h.recurring i task (addTask_old hi hne) (owned_addTask s time t hne ▸ ho) hr hv
  · by_cases hne : i = s.objects.length
    · subst hne
      rw [hpendingNew, hundone, hundoneNew]
      split <;> rfl
    · rw [hpending i hne, hundone, owned_addTask s time t hne]
      exact h.waited i task (addTask_old hi hne) hv
  · exact h.readds r e task he hs (addTask_old ho (h.not_launched he)) hv

theorem Bookkeeping.owned_unique {s : Scheduler Expr} (h : Bookkeeping s) {id id' : Bytes} {i : Nat}
    (hl : s.idToTask.lookup id = some i) (hl' : s.idToTask.lookup id' = some i) : id = id' := by
  obtain ⟨task, ho, hid⟩ := h.ownedId id i hl
  obtain ⟨task', ho', hid'⟩ := h.ownedId id' i hl'
  rw [ho] at ho'
  cases ho'
  rw [← hid, hid']

theorem owned_removed {s : Scheduler Expr} (h : Bookkeeping s) {id : Bytes} {j : Nat}
    (hl : s.idToTask.lookup id = some j) (i : Nat) :
    Scheduler.owned { s.clearInterval j with idToTask := s.idToTask.erase id } i =
      (s.owned i && i != j) := by
  rw [Bool.eq_iff_iff, owned_iff, Bool.and_eq_true, owned_iff, bne_iff_ne]
  simp only [lookup_erase_eq]
  constructor
  · rintro ⟨id', hl'⟩
    split at hl'
    · cases hl'
    next hne =>
      refine ⟨⟨id', hl'⟩, ?_⟩
      rintro rfl
      exact hne (h.owned_unique hl' hl)
  · rintro ⟨⟨id', hl'⟩, hij⟩
    refine ⟨id', ?_⟩
    rw [if_neg, hl']
    rintro rfl
    rw [hl] at hl'
    cases hl'
    exact hij rfl

theorem removed_object {s : Scheduler Expr} {j i : Nat} {task : SchedulerTask Expr}
    (h : (s.clearInterval j).objects[i]? = some task) :
    ∃ task₀, s.objects[i]? = some task₀ ∧ task.taskUniqueId = task₀.taskUniqueId ∧
      task.kind = task₀.kind ∧ task.recur = task₀.recur ∧ (task.interval = true → task₀.interval = true) ∧
      (i ≠ j → task.interval = task₀.interval) := by
  rw [Scheduler.clearInterval, List.getElem?_modify, Option.map_eq_map, Option.map_eq_some_iff] at h
  obtain ⟨task₀, ho, ht⟩ := h
  refine ⟨task₀, ho, ?_⟩
  split at ht
  next hij =>
    subst ht
    exact ⟨rfl, rfl, rfl, fun hf => absurd hf Bool.false_ne_true, fun hne => absurd hij.symm hne⟩
  next =>
    subst ht
    exact ⟨rfl, rfl, rfl, id, fun _ => rfl⟩

theorem removed_bookkeeping {s : Scheduler Expr} (h : Bookkeeping s) {id : Bytes} {j : Nat}
    (hl : s.idToTask.lookup id = some j) :
    Bookkeeping { s.clearInterval j with idToTask := s.idToTask.erase id } := by
  have howned := owned_removed h hl
  have hlen : (s.clearInterval j).objects.length = s.objects.length := List.length_modify ..
  refine ⟨fun i hi => h.pendingInRange i (hlen ▸ hi), fun i hi => h.launchedInRange i (hlen ▸ hi),
    fun id' i hl' => ?_, fun i task hi hr => ?_, fun i task hi ho hr hv => ?_, fun i task hi hv => ?_,
    fun r e task he hs ho hv => ?_⟩
  · rw [lookup_erase_eq] at hl'
    split at hl'
    · cases hl'
    next hne =>
      obtain ⟨task, hi, hid⟩ := h.ownedId id' i hl'
      have hij : j ≠ i := fun hji => hne (h.owned_unique hl' (hji ▸ hl))
      exact ⟨task, by rw [← hi]; exact List.getElem?_modify_ne _ _ hij, hid⟩
  · obtain ⟨task₀, ho, _, _, hr₀, hv, _⟩ := removed_object hi
    obtain ⟨hv₀, hle, heq⟩ := h.once i task₀ ho (hr₀ ▸ hr)
    refine ⟨?_, hle, fun hown => ?_⟩
    · rw [← Bool.not_eq_true]
      intro ht
      rw [hv ht] at hv₀
      cases hv₀
    · rw [howned, Bool.and_eq_true] at hown
      exact heq hown.1
  · obtain ⟨task₀, ho₀, _, _, hr₀, _, hv₀⟩ := removed_object hi
    rw [howned, Bool.and_eq_true, bne_iff_ne] at ho
    exact h.recurring i task₀ ho₀ ho.1 (hr₀ ▸ hr) (hv₀ ho.2 ▸ hv)
  · obtain ⟨task₀, ho₀, _, _, _, hv₀, _⟩ := removed_object hi
    have hij : i ≠ j := by
      rintro rfl
      rw [Scheduler.clearInterval] at hi
      rw [List.getElem?_modify_eq, Option.map_eq_map, Option.map_eq_some_iff] at hi
      obtain ⟨_, _, rfl⟩ := hi
      cases hv
    have hw := h.waited i task₀ ho₀ (hv₀ hv)
    rw [howned, bne_iff_ne.mpr hij, Bool.and_true]
    exact hw
  · obtain ⟨task₀, ho₀, _, _, _, hv₀, _⟩ := removed_object ho
    exact h.readds r e task₀ he hs ho₀ (hv₀ hv)

section Ticks

variable (cronNext : Expr → Int → Int)

theorem lockable_of_owned {s : Scheduler Expr} {i : Nat} {task : SchedulerTask Expr}
    (ho : s.objects[i]? = some task) (hown : s.owned i = true) : lockableTask s i = true := by
  rw [lockableTask, ho, Bool.and_eq_true, alive_iff]
  exact ⟨.inl hown, rfl⟩

/-- A task that nobody owns and no coroutine works on is gone. -/
theorem not_lockable {s : Scheduler Expr} {i : Nat} (hown : ¬ s.owned i = true) (hundone : s.undone i = 0) :
    lockableTask s i = false := by
  rw [lockableTask, Bool.and_eq_false_iff]
  left
  rw [← Bool.not_eq_true, alive_iff_undone, hundone]
  rintro (h | h)
  · exact hown h
  · exact absurd h (Nat.lt_irrefl 0)

theorem ticked_bookkeeping {s : Scheduler Expr} (h : Bookkeeping s) (now : Time) (readings : Nat → Time) :
    Bookkeeping (s.manageTasks cronNext now readings) := by
  have hsplit := dueCount_add_laterCount s now
  have howned (i : Nat) : (s.manageTasks cronNext now readings).owned i = s.owned i := by
    rw [Scheduler.owned, Scheduler.owned, tick_idToTask]
  refine ⟨fun i hi => ?_, fun i hi => ?_, fun id i hl => ?_, fun i task hi hr => ?_,
    fun i task hi ho hr hv => ?_, fun i task hi hv => ?_, fun r e task he hs ho hv => ?_⟩
  · rw [tick_objects] at hi
    have hp := h.pendingInRange i hi
    rw [tick_pending]
    have hs := hsplit i
    split <;> omega
  · rw [tick_objects] at hi
    have hp := h.pendingInRange i hi
    have hl := h.launchedInRange i hi
    rw [tick_launches, hl]
    have hs := hsplit i
    split <;> omega
  · rw [tick_idToTask] at hl
    rw [tick_objects]
    exact h.ownedId id i hl
  · rw [tick_objects] at hi
    obtain ⟨hv, hle, heq⟩ := h.once i task hi hr
    have hk : keepsEntry s i = false := by simp [keepsEntry, hi, hr]
    have hs := hsplit i
    rw [tick_pending, tick_launches, hk, Bool.and_false, if_neg Bool.false_ne_true, howned]
    refine ⟨hv, ?_, fun hown => ?_⟩
    · split <;> omega
    · rw [if_pos (lockable_of_owned hi hown)]
      have := heq hown
      omega
  · rw [tick_objects] at hi
    rw [howned] at ho
    have hk : keepsEntry s i = true := by simp [keepsEntry, hi, hr, hv]
    rw [tick_pending, hk, lockable_of_owned hi ho, Bool.and_self, if_pos rfl, Nat.add_comm, hsplit]
    exact h.recurring i task hi ho hr hv
  · rw [tick_objects] at hi
    have hk : keepsEntry s i = false := by simp [keepsEntry, hi, hv]
    have hw := h.waited i task hi hv
    have hs := hsplit i
    rw [howned, tick_pending, tick_undone, hk, Bool.and_false, if_neg Bool.false_ne_true]
    by_cases hown : s.owned i = true
    · rw [if_pos hown] at hw
      rw [if_pos hown, if_pos (lockable_of_owned hi hown)]
      omega
    · rw [if_neg hown] at hw
      rw [if_neg hown, not_lockable hown hw, if_neg Bool.false_ne_true, hw]
  · rw [tick_objects] at ho
    rw [tick_executions, List.getElem?_append] at he
    split at he
    · exact h.readds r e task he hs ho hv
    next =>
      rw [List.getElem?_map, Option.map_eq_some_iff] at he
      obtain ⟨entry, _, rfl⟩ := he
      have ho' : s.objects[entry.2]? = some task := ho
      rw [Scheduler.execution, ho']
      exact hv

theorem setStage_execution {s : Scheduler Expr} {r r' : Nat} {stage : Stage} {e : Execution}
    (h : (s.setStage r stage).executions[r']? = some e) :
    ∃ e₀, s.executions[r']? = some e₀ ∧ e.task = e₀.task ∧ e.readds = e₀.readds ∧
      (r = r' ∧ e.stage = stage ∨ r ≠ r' ∧ e.stage = e₀.stage) := by
  rw [Scheduler.setStage, List.getElem?_modify, Option.map_eq_map, Option.map_eq_some_iff] at h
  obtain ⟨e₀, he₀, rfl⟩ := h
  refine ⟨e₀, he₀, ?_⟩
  by_cases hrr : r = r'
  · rw [if_pos hrr]
    exact ⟨rfl, rfl, .inl ⟨hrr, rfl⟩⟩
  · rw [if_neg hrr]
    exact ⟨rfl, rfl, .inr ⟨hrr, rfl⟩⟩

theorem started_bookkeeping {s : Scheduler Expr} (h : Bookkeeping s) {r : Nat} {e : Execution}
    (he : s.executions[r]? = some e) (hs : e.stage = .launched) : Bookkeeping (s.setStage r .running) := by
  have hundone (i : Nat) : (s.setStage r .running).undone i = s.undone i := by
    have hu := setStage_undone he .running i
    have hholds : e.holds i = true ↔ e.task = i := by simp [Execution.holds, hs]
    by_cases hi : e.task = i
    · rw [if_pos (hholds.mpr hi), if_pos ⟨hi, by decide⟩] at hu
      exact Nat.add_right_cancel hu
    · rw [if_neg (fun h' => hi (hholds.mp h')), if_neg (fun h' => hi h'.1)] at hu
      exact Nat.add_right_cancel hu
  refine ⟨h.pendingInRange, fun i hi => ?_, h.ownedId, fun i task hi hr => ?_, h.recurring,
    fun i task hi hv => ?_, fun r' e' task he' hs' ho hv => ?_⟩
  · rw [setStage_launches]
    exact h.launchedInRange i hi
  · rw [setStage_launches]
    exact h.once i task hi hr
  · rw [hundone]
    exact h.waited i task hi hv
  · obtain ⟨e₀, he₀, htask, hreadds, hstage⟩ := setStage_execution he'
    have hundone₀ : e₀.stage ≠ .done := by
      rcases hstage with ⟨rfl, -⟩ | ⟨-, hstage⟩
      · rw [he] at he₀
        cases he₀
        rw [hs]
        decide
      · exact hstage ▸ hs'
    rw [hreadds]
    exact h.readds r' e₀ task he₀ hundone₀ (htask ▸ ho) hv

/-- A coroutine that is over: the entry, if any, is put back in the same step. -/
theorem ended_bookkeeping {s : Scheduler Expr} (h : Bookkeeping s) {r : Nat} {e : Execution}
    (he : s.executions[r]? = some e) (hs : e.stage = .running) (tasks : Multimap Time Nat)
    (hreadd : ∀ i, tasks.entries.countP (fun e => e.2 == i) = s.pending i +
      if i = e.task ∧ e.readds = true ∧ (∃ task, s.objects[i]? = some task ∧ task.interval = true) then 1 else 0) :
    Bookkeeping { s.setStage r .done with tasks := tasks } := by
  have hundone (i : Nat) : (s.setStage r .done).undone i + (if e.task = i then 1 else 0) = s.undone i := by
    have hu := setStage_undone he .done i
    rw [if_neg (c := e.task = i ∧ Stage.done ≠ Stage.done) (fun h' => h'.2 rfl)] at hu
    simpa [Execution.holds, hs] using hu
  have hrun : 1 ≤ s.undone e.task := by
    have hu := hundone e.task
    rw [if_pos rfl] at hu
    omega
  -- the task of the coroutine, if it is waited for, is owned and has no entry
  have hback (i : Nat) (task : SchedulerTask Expr) (ho : s.objects[i]? = some task)
      (hi : e.task = i) (hv : task.interval = true) :
      e.readds = true ∧ s.owned i = true ∧ s.pending i + s.undone i = 1 := by
    subst hi
    have hw := h.waited e.task task ho hv
    refine ⟨h.readds r e task he (by rw [hs]; decide) ho hv, ?_⟩
    split at hw
    next hown => exact ⟨hown, hw⟩
    next => omega
  have hkeep (i : Nat) (task : SchedulerTask Expr) (ho : s.objects[i]? = some task)
      (hv : task.interval = false) : tasks.entries.countP (fun e => e.2 == i) = s.pending i := by
    rw [hreadd, if_neg, Nat.add_zero]
    rintro ⟨_, _, task', ho', hv'⟩
    rw [ho] at ho'
    cases ho'
    rw [hv] at hv'
    cases hv'
  refine ⟨fun i hi => ?_, fun i hi => ?_, h.ownedId, fun i task hi hr => ?_, fun i task hi ho hr hv => ?_,
    fun i task hi hv => ?_, fun r' e' task he' hs' ho hv => ?_⟩
  · refine (hreadd i).trans ?_
    rw [h.pendingInRange i hi, if_neg]
    rintro ⟨_, _, task, ho, _⟩
    exact absurd (List.getElem?_eq_some_iff.mp ho).1 (Nat.not_lt.mpr hi)
  · exact (setStage_launches s r .done i).trans (h.launchedInRange i hi)
  · obtain ⟨hv, hle⟩ := h.once i task hi hr
    have hp : Scheduler.pending { s.setStage r .done with tasks := tasks } i = s.pending i := hkeep i task hi hv
    have hl : Scheduler.launches { s.setStage r .done with tasks := tasks } i = s.launches i :=
      setStage_launches s r .done i
    rw [hp, hl]
    exact ⟨hv, hle⟩
  · exact (hkeep i task hi hv).trans (h.recurring i task hi ho hr hv)
  · have hp : Scheduler.pending { s.setStage r .done with tasks := tasks } i = _ := hreadd i
    have hu := hundone i
    have hw := h.waited i task hi hv
    rw [hp]
    change if s.owned i = true then _ + (s.setStage r .done).undone i = 1 else (s.setStage r .done).undone i = 0
    by_cases hie : e.task = i
    · obtain ⟨hre, hown, hsum⟩ := hback i task hi hie hv
      rw [if_pos hie] at hu
      rw [if_pos hown, if_pos ⟨hie.symm, hre, task, hi, hv⟩]
      omega
    · rw [if_neg hie] at hu
      by_cases hown : s.owned i = true
      · rw [if_pos hown] at hw ⊢
        rw [if_neg (fun h' => hie h'.1.symm)]
        omega
      · rw [if_neg hown] at hw ⊢
        omega
  · obtain ⟨e₀, he₀, htask, hreadds, hstage⟩ := setStage_execution he'
    rcases hstage with ⟨-, hdone⟩ | ⟨-, hstage⟩
    · exact absurd hdone hs'
    · rw [hreadds]
      exact h.readds r' e₀ task he₀ (hstage ▸ hs') (htask ▸ ho) hv

end Ticks

section Runs

variable (cronNext : Expr → Int → Int)

def Steps (s : Scheduler Expr) (a : Action Expr) (t : Scheduler Expr) : Prop := step cronNext s a = some t

theorem task_interval {a : Action Expr} {time : Time} {t : SchedulerTask Expr}
    (h : a.task cronNext = some (time, t)) : t.recur = false → t.interval = false := by
  cases a <;> cases h <;> simp

theorem step_bookkeeping {s t : Scheduler Expr} {a : Action Expr} (h : Bookkeeping s)
    (hs : Steps cronNext s a t) : Bookkeeping t := by
  cases step_effect cronNext hs with
  | added ha => exact added_bookkeeping h _ (task_interval cronNext ha)
  | unknown _ => exact h
  | removed hl => exact removed_bookkeeping h hl
  | ticked => exact ticked_bookkeeping cronNext h _ _
  | started he hst => exact started_bookkeeping h he hst
  | finished he hst hno =>
      refine ended_bookkeeping h he hst s.tasks (fun i => ?_)
      rw [if_neg]
      · rfl
      · rintro ⟨rfl, hre, task, ho, hv⟩
        have hf := hno task ho
        rw [hre, hv] at hf
        cases hf
  | @readded r e _ now task he hst ho hre hv =>
      refine ended_bookkeeping h he hst
        (s.tasks.emplace (getNewTime cronNext task.kind now) e.task) (fun i => ?_)
      rw [pending_emplace]
      by_cases hi : e.task = i
      · subst hi
        rw [if_pos rfl, if_pos ⟨rfl, hre, task, ho, hv⟩]
        rfl
      · rw [if_neg hi, if_neg (fun h' => hi h'.1.symm)]
        rfl

/-- The adding calls of a history have made its tasks, one each and in order. -/
structure MadeBy (t₀ task : SchedulerTask Expr) (owned : Bool) : Prop where
  kind : task.kind = t₀.kind
  recur : task.recur = t₀.recur
  interval : owned = true → task.interval = t₀.interval

def made (as : List (Action Expr)) : List (Time × SchedulerTask Expr) :=
  as.filterMap (fun a => a.task cronNext)

structure History (as : List (Action Expr)) (s : Scheduler Expr) : Prop where
  bookkeeping : Bookkeeping s
  length : s.objects.length = (made cronNext as).length
  madeBy : ∀ i p task, (made cronNext as)[i]? = some p → s.objects[i]? = some task →
    MadeBy p.2 task (s.owned i)

theorem made_snoc (as : List (Action Expr)) (a : Action Expr) :
    made cronNext (as ++ [a]) = made cronNext as ++ (a.task cronNext).toList := by
  rw [made, made, List.filterMap_append]
  cases h : a.task cronNext <;> simp [h]

theorem History.added {as : List (Action Expr)} {s : Scheduler Expr} (h : History cronNext as s)
    {a : Action Expr} {time : Time} {t : SchedulerTask Expr} (ha : a.task cronNext = some (time, t)) :
    History cronNext (as ++ [a]) (s.addTask time t) := by
  refine ⟨added_bookkeeping h.bookkeeping time (task_interval cronNext ha), ?_, fun i p task hp ho => ?_⟩
  · rw [made_snoc, ha, addTask_objects, List.length_append, List.length_append, h.length]
    rfl
  · rw [made_snoc, ha, Option.toList_some, getElem?_snoc, ← h.length] at hp
    rcases hp with hp | ⟨rfl, rfl⟩
    · have hlt := (List.getElem?_eq_some_iff.mp hp).1
      rw [← h.length] at hlt
      rw [owned_addTask s time t (Nat.ne_of_lt hlt)]
      exact h.madeBy i p task hp (addTask_old ho (Nat.ne_of_lt hlt))
    · cases addTask_new ho
      exact ⟨rfl, rfl, fun _ => rfl⟩

theorem History.other {as : List (Action Expr)} {s t : Scheduler Expr} (h : History cronNext as s)
    {a : Action Expr} (ha : a.task cronNext = none) (hb : Bookkeeping t)
    (hlen : t.objects.length = s.objects.length)
    (hobj : ∀ i task, t.objects[i]? = some task → ∃ task₀, s.objects[i]? = some task₀ ∧
      task.kind = task₀.kind ∧ task.recur = task₀.recur ∧
      (t.owned i = true → s.owned i = true ∧ task.interval = task₀.interval)) :
    History cronNext (as ++ [a]) t := by
  have hmade : made cronNext (as ++ [a]) = made cronNext as := by simp [made_snoc, ha]
  refine ⟨hb, by rw [hmade, hlen, h.length], fun i p task hp ho => ?_⟩
  rw [hmade] at hp
  obtain ⟨task₀, ho₀, hk, hr, hv⟩ := hobj i task ho
  have hm := h.madeBy i p task₀ hp ho₀
  exact ⟨hk.trans hm.kind, hr.trans hm.recur, fun hown => (hv hown).2.trans (hm.interval (hv hown).1)⟩

theorem history_step {as : List (Action Expr)} {s t : Scheduler Expr} {a : Action Expr}
    (h : History cronNext as s) (hs : Steps cronNext s a t) : History cronNext (as ++ [a]) t := by
  have hb := step_bookkeeping cronNext h.bookkeeping hs
  cases step_effect cronNext hs with
  | added ha => exact h.added cronNext ha
  | unknown _ => exact h.other cronNext rfl hb rfl (fun i task ho => ⟨task, ho, rfl, rfl, fun hown => ⟨hown, rfl⟩⟩)
  | @removed _ j hl =>
      refine h.other cronNext rfl hb (List.length_modify ..) (fun i task ho => ?_)
      obtain ⟨task₀, ho₀, _, hk, hr, _, hv⟩ := removed_object ho
      refine ⟨task₀, ho₀, hk, hr, fun hown => ?_⟩
      rw [owned_removed h.bookkeeping hl, Bool.and_eq_true, bne_iff_ne] at hown
      exact ⟨hown.1, hv hown.2⟩
  | @ticked now readings =>
      refine h.other cronNext rfl hb (by rw [tick_objects]) (fun i task ho => ?_)
      rw [tick_objects] at ho
      refine ⟨task, ho, rfl, rfl, fun hown => ⟨?_, rfl⟩⟩
      rw [Scheduler.owned, tick_idToTask] at hown
      exact hown
  | started _ _ => exact h.other cronNext rfl hb rfl (fun i task ho => ⟨task, ho, rfl, rfl, fun hown => ⟨hown, rfl⟩⟩)
  | finished _ _ _ => exact h.other cronNext rfl hb rfl (fun i task ho => ⟨task, ho, rfl, rfl, fun hown => ⟨hown, rfl⟩⟩)
  | readded _ _ _ _ _ => exact h.other cronNext rfl hb rfl (fun i task ho => ⟨task, ho, rfl, rfl, fun hown => ⟨hown, rfl⟩⟩)

theorem run_history {as : List (Action Expr)} {s : Scheduler Expr}
    (h : Run (Steps cronNext) .initial as s) : History cronNext as s := by
  have hstart : History cronNext [] (Scheduler.initial : Scheduler Expr) :=
    ⟨initial_bookkeeping, rfl, fun i p task hp _ => by cases hp⟩
  exact h.history_invariant (History cronNext) (fun _ _ _ _ hi hs => history_step cronNext hi hs) [] hstart

end Runs

end MigangBot.SchedulerBookkeeping
