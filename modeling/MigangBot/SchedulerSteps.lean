import MigangBot.Scheduling
import Mathlib.Data.List.Nodup

namespace MigangBot.SchedulerSteps

open Lib.Maps Lib.Multimaps Text Scheduling

variable {Expr : Type}

theorem countP_filter_key {α : Type} (l : List α) (key : α → Nat) (q : α → Bool) {i : Nat} {b : Bool}
    (hq : ∀ a, key a = i → q a = b) :
    (l.filter q).countP (fun a => key a == i) = if b then l.countP (fun a => key a == i) else 0 := by
  rw [List.countP_filter]
  have hpq (a : α) : (key a == i && q a) = (key a == i && b) := by
    by_cases h : key a = i
    · rw [hq a h]
    · rw [beq_eq_false_iff_ne.mpr h, Bool.false_and, Bool.false_and]
  rw [funext hpq]
  cases b <;> simp

theorem countP_modify {α : Type} {l : List α} {i : Nat} {a : α} (h : l[i]? = some a) (f : α → α)
    (p : α → Bool) :
    (l.modify i f).countP p + (if p a then 1 else 0) = l.countP p + (if p (f a) then 1 else 0) := by
  obtain ⟨hi, ha⟩ := List.getElem?_eq_some_iff.mp h
  obtain ⟨l₁, a', l₂, hl, hlen, hmod⟩ := List.exists_of_modify f hi
  have haa : a' = a := by
    rw [← ha]
    simp [hl, ← hlen]
  rw [hmod, hl, haa]
  simp only [List.countP_append, List.countP_cons]
  omega

section Counts

variable (cronNext : Expr → Int → Int) (s : Scheduler Expr) (now : Time) (readings : Nat → Time)

def lockableTask (i : Nat) : Bool := s.alive i && (s.objects[i]?).isSome

theorem dueTasks_count (i : Nat) :
    (s.dueTasks now).countP (fun e => e.2 == i) = if lockableTask s i then s.dueCount now i else 0 :=
  countP_filter_key _ _ _ (fun e he => by rw [Scheduler.lockable, he, lockableTask])

@[simp] theorem tick_objects : (s.manageTasks cronNext now readings).objects = s.objects := by
  rw [manageTasks_eq]

@[simp] theorem tick_idToTask : (s.manageTasks cronNext now readings).idToTask = s.idToTask := by
  rw [manageTasks_eq]

theorem tick_executions : (s.manageTasks cronNext now readings).executions =
    s.executions ++ (s.dueTasks now).map (s.execution now) := by
  rw [manageTasks_eq]

theorem tick_launches (i : Nat) : (s.manageTasks cronNext now readings).launches i =
    s.launches i + if lockableTask s i then s.dueCount now i else 0 := by
  rw [Scheduler.launches, tick_executions, List.countP_append, List.countP_map, ← dueTasks_count]
  rfl

theorem tick_undone (i : Nat) : (s.manageTasks cronNext now readings).undone i =
    s.undone i + if lockableTask s i then s.dueCount now i else 0 := by
  rw [Scheduler.undone, tick_executions, List.countP_append, List.countP_map, ← dueTasks_count]
  have hholds : (fun r : Execution => r.holds i) ∘ s.execution now = fun e => e.2 == i := by
    funext e
    simp only [Function.comp_apply, Execution.holds, Scheduler.execution]
    rw [show (Stage.launched != Stage.done) = true from rfl, Bool.and_true]
  rw [hholds]
  rfl

/-- Only tasks that recur and are not waited for keep their entry. -/
def keepsEntry (i : Nat) : Bool := (s.objects[i]?.map (fun t => t.recur && !t.interval)).getD false

theorem recurrence_count (e : Time × Nat) (i : Nat) :
    ((s.recurrence cronNext readings e).map (fun e => e.2 == i)).getD false = (e.2 == i && keepsEntry s i) := by
  rw [Scheduler.recurrence, keepsEntry]
  by_cases hi : e.2 = i
  · subst hi
    obtain ho | ⟨task, ho⟩ := Option.eq_none_or_eq_some s.objects[e.2]?
    · simp [ho]
    · simp only [ho, Option.map_some, Option.getD_some, beq_self_eq_true, Bool.true_and]
      cases task.recur <;> cases task.interval <;> simp
  · obtain ho | ⟨task, ho⟩ := Option.eq_none_or_eq_some s.objects[e.2]?
    · simp [ho, hi]
    · simp only [ho]
      cases task.recur <;> cases task.interval <;> simp [hi]

theorem tick_pending (i : Nat) : (s.manageTasks cronNext now readings).pending i =
    s.laterCount now i + if lockableTask s i && keepsEntry s i then s.dueCount now i else 0 := by
  have hrec : ((s.dueTasks now).filterMap (s.recurrence cronNext readings)).countP (fun e => e.2 == i) =
      if keepsEntry s i then (s.dueTasks now).countP (fun e => e.2 == i) else 0 := by
    rw [List.countP_filterMap]
    simp only [recurrence_count]
    cases keepsEntry s i <;> simp
  rw [Scheduler.pending, (manageTasks_perm cronNext s now readings).countP_eq, List.countP_append, hrec,
    dueTasks_count, Scheduler.laterCount, Nat.add_comm]
  cases keepsEntry s i <;> cases lockableTask s i <;> simp

@[simp] theorem setStage_launches (r : Nat) (stage : Stage) (i : Nat) :
    (s.setStage r stage).launches i = s.launches i := by
  obtain ho | ⟨e, ho⟩ := Option.eq_none_or_eq_some s.executions[r]?
  · rw [Scheduler.setStage, List.modify_eq_self (List.getElem?_eq_none_iff.mp ho)]
  · have h := countP_modify ho (fun e => { e with stage := stage }) (fun x => x.task == i)
    exact Nat.add_right_cancel h

variable {s} in
theorem setStage_undone {r : Nat} {e : Execution} (h : s.executions[r]? = some e) (stage : Stage) (i : Nat) :
    (s.setStage r stage).undone i + (if e.holds i then 1 else 0) =
      s.undone i + (if e.task = i ∧ stage ≠ .done then 1 else 0) := by
  have hc := countP_modify h (fun e => { e with stage := stage }) (fun x => x.holds i)
  simp only [Scheduler.undone, Scheduler.setStage]
  rw [hc]
  simp [Execution.holds]

theorem pending_emplace (tasks : Multimap Time Nat) (time : Time) (j i : Nat) :
    (tasks.emplace time j).entries.countP (fun e => e.2 == i) =
      tasks.entries.countP (fun e => e.2 == i) + if j = i then 1 else 0 := by
  rw [(tasks.emplace_perm time j).countP_eq, List.countP_cons]
  simp

end Counts

theorem undone_le_launches (s : Scheduler Expr) (i : Nat) : s.undone i ≤ s.launches i := by
  apply List.countP_mono_left
  intro r _ h
  rw [Execution.holds, Bool.and_eq_true] at h
  exact h.1

section RandomId

theorem char_digit {c : Char} (hc : c.isDigit = true) : Char.ofNat (char c).toNat = c := by
  have hlt : c.toNat < 256 := by
    simp only [Char.isDigit, Bool.and_eq_true, decide_eq_true_eq, ge_iff_le, UInt32.le_iff_toNat_le] at hc
    exact Nat.lt_of_le_of_lt hc.2 (by decide)
  rw [char, UInt8.toNat_ofNat', Nat.mod_eq_of_lt hlt, Char.ofNat_toNat]

theorem internalId_injective : Function.Injective internalId := by
  intro m n h
  have hback (n : Nat) : ((Nat.toDigits 10 n).map char).map (fun u => Char.ofNat u.toNat) = Nat.toDigits 10 n := by
    rw [List.map_map]
    refine (List.map_congr_left fun c hc => ?_).trans (List.map_id _)
    exact char_digit (Nat.isDigit_of_mem_toDigits (by decide) (by decide) hc)
  have hdigits : Nat.toDigits 10 m = Nat.toDigits 10 n := by
    rw [← hback m, ← hback n, List.append_cancel_left h]
  rw [← Nat.ofDigitChars_toDigits (b := 10) (n := m) (by decide) (by decide), hdigits,
    Nat.ofDigitChars_toDigits (by decide) (by decide)]

theorem findRandomId_free (ids : FiniteMap Bytes Nat) (trials n : Nat) :
    ids.lookup (internalId (findRandomId ids trials n)) = none ∨
      ∀ k, n ≤ k → k < n + trials → internalId k ∈ ids.keys := by
  induction trials generalizing n with
  | zero => exact .inr fun k hk hlt => absurd hk (by omega)
  | succ trials ih =>
      rw [findRandomId]
      by_cases h : (ids.lookup (internalId n)).isSome = true
      · rw [if_pos h]
        rcases ih (n + 1) with hfree | hall
        · exact .inl hfree
        · refine .inr fun k hk hlt => ?_
          by_cases hkn : k = n
          · subst hkn
            exact AList.mem_keys.mp (AList.lookup_isSome.mp h)
          · exact hall k (by omega) (by omega)
      · rw [if_neg h]
        exact .inl (Option.not_isSome_iff_eq_none.mp h)

/-- More numbers are tried than there are identifiers, so one of them is free. -/
theorem randomNumber_free (s : Scheduler Expr) : s.idToTask.lookup (internalId s.randomNumber) = none := by
  rcases findRandomId_free s.idToTask (s.idToTask.keys.length + 1) s.autoIncreaseId with h | h
  · exact h
  · have hsub : (List.range' s.autoIncreaseId (s.idToTask.keys.length + 1)).map internalId ⊆ s.idToTask.keys := by
      intro id hid
      obtain ⟨k, hk, rfl⟩ := List.mem_map.mp hid
      rw [List.mem_range'_1] at hk
      exact h k hk.1 hk.2
    have hnodup : ((List.range' s.autoIncreaseId (s.idToTask.keys.length + 1)).map internalId).Nodup :=
      List.Nodup.map internalId_injective List.nodup_range'
    have hlen := (List.subperm_of_subset hnodup hsub).length_le
    rw [List.length_map, List.length_range'] at hlen
    omega

end RandomId

section AddTask

variable (s : Scheduler Expr)

/-- The identifier a task is queued under. -/
def carriedId (t : SchedulerTask Expr) : Bytes :=
  if t.taskUniqueId.isEmpty then internalId s.randomNumber else t.taskUniqueId

@[simp] theorem addTask_objects (time : Time) (t : SchedulerTask Expr) :
    (s.addTask time t).objects = s.objects ++ [{ t with taskUniqueId := carriedId s t }] := rfl

@[simp] theorem addTask_executions (time : Time) (t : SchedulerTask Expr) :
    (s.addTask time t).executions = s.executions := rfl

theorem addTask_pending (time : Time) (t : SchedulerTask Expr) (i : Nat) :
    (s.addTask time t).pending i = s.pending i + if s.objects.length = i then 1 else 0 :=
  pending_emplace s.tasks time s.objects.length i

theorem addTask_lookup (time : Time) (t : SchedulerTask Expr) (id : Bytes) :
    (s.addTask time t).idToTask.lookup id =
      if id = carriedId s t ∧ s.idToTask.lookup id = none then some s.objects.length
      else s.idToTask.lookup id := by
  have hid : (s.addTask time t).idToTask =
      if (s.idToTask.lookup (carriedId s t)).isSome then s.idToTask
      else s.idToTask.insert (carriedId s t) s.objects.length := rfl
  rw [hid]
  cases hl : s.idToTask.lookup (carriedId s t) with
  | some j =>
      rw [if_pos (by rfl), if_neg]
      rintro ⟨rfl, hnone⟩
      rw [hl] at hnone
      cases hnone
  | none =>
      rw [if_neg (by simp), lookup_insert_eq]
      by_cases h : id = carriedId s t
      · rw [if_pos h, if_pos ⟨h, h ▸ hl⟩]
      · rw [if_neg h, if_neg (fun h' => h h'.1)]

end AddTask

section Effects

variable (cronNext : Expr → Int → Int)

/-- All a step can do. -/
inductive Effect (s : Scheduler Expr) : Action Expr → Scheduler Expr → Prop
  | added {a : Action Expr} {time : Time} {t : SchedulerTask Expr} :
      a.task cronNext = some (time, t) → Effect s a (s.addTask time t)
  | unknown {id : Bytes} : s.idToTask.lookup id = none → Effect s (.remove id) s
  | removed {id : Bytes} {i : Nat} : s.idToTask.lookup id = some i →
      Effect s (.remove id) { s.clearInterval i with idToTask := s.idToTask.erase id }
  | ticked {now : Time} {readings : Nat → Time} :
      Effect s (.tick now readings) (s.manageTasks cronNext now readings)
  | started {r : Nat} {e : Execution} : s.executions[r]? = some e → e.stage = .launched →
      Effect s (.start r) (s.setStage r .running)
  | finished {r : Nat} {e : Execution} {threw : Bool} {now : Time} :
      s.executions[r]? = some e → e.stage = .running →
      (∀ task, s.objects[e.task]? = some task → (e.readds && task.interval) = false) →
      Effect s (.complete r threw now) (s.setStage r .done)
  | readded {r : Nat} {e : Execution} {threw : Bool} {now : Time} {task : SchedulerTask Expr} :
      s.executions[r]? = some e → e.stage = .running → s.objects[e.task]? = some task →
      e.readds = true → task.interval = true →
      Effect s (.complete r threw now)
        ((s.setStage r .done).addTaskInterval (getNewTime cronNext task.kind now) e.task)

theorem step_effect {s t : Scheduler Expr} {a : Action Expr} (h : step cronNext s a = some t) :
    Effect cronNext s a t := by
  cases a with
  | inAt id time => cases h; exact .added rfl
  | every id time now => cases h; exact .added rfl
  | cron id expression now => cases h; exact .added rfl
  | interval id time now => cases h; exact .added rfl
  | remove id =>
      rw [step, Scheduler.remove] at h
      cases hl : s.idToTask.lookup id with
      | none =>
          rw [hl] at h
          cases h
          exact .unknown hl
      | some i =>
          rw [hl] at h
          cases h
          exact .removed hl
  | tick now readings => cases h; exact .ticked
  | start r =>
      rw [step] at h
      split at h
      next e he =>
        split at h
        next hs => cases h; exact .started he hs
        next => cases h
      next => cases h
  | complete r threw now =>
      rw [step] at h
      split at h
      next e he =>
        split at h
        next hs =>
          rw [Scheduler.complete] at h
          have hobj : (s.setStage r .done).objects = s.objects := rfl
          simp only [hobj] at h
          split at h
          next hnone =>
            cases h
            exact .finished he hs (fun task ht => by rw [hnone] at ht; cases ht)
          next task ht =>
            split at h
            next hre =>
              rw [Bool.and_eq_true] at hre
              cases h
              exact .readded he hs ht hre.1 hre.2
            next hre =>
              cases h
              refine .finished he hs (fun task' ht' => ?_)
              rw [ht] at ht'
              cases ht'
              exact (Bool.not_eq_true _).mp hre
        next => cases h
      next => cases h

end Effects

end MigangBot.SchedulerSteps
