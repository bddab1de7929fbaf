import MigangBot.Waiters
import MigangBot.Lib.Runs
import Mathlib.Logic.Function.Basic

namespace MigangBot.Futures

open Lib.Runs Waiters

variable {σ α ι : Type}

/-- What is relied on of co::Event: its waits do not pass before it is signalled,
and the first one after a signal passes, whether it began before or after. -/
structure CoEvent (σ : Type) where
  initial : σ
  signal : σ → σ
  wait : σ → Option σ
  wait_initial : wait initial = none
  wait_signal : ∀ e, (wait (signal e)).isSome

/-- There is no value before the first assignment, and none after it was moved out. -/
structure SharedState (σ α : Type) where
  event : σ
  value : Option α
  isComplete : Bool

/-- How far CoFutureWrapper::get has come, with wait_for and get of the future. -/
inductive Getter (α : Type)
  | waitFor
  | waiting
  | timeout
  | get
  | blocked
  | moving
  | returned (v : α)
  | dropped (v : α)

/-- How far one that has a weak pointer to the promise has come with set_value. -/
inductive Setter (α : Type)
  | outside
  | holding (v : α)
  | assigned (v : α)
  | complete (v : α)
  | done (v : α)
  | missed

def Setter.Gave (v : α) : Setter α → Prop
  | .assigned w | .complete w | .done w => w = v
  | _ => False

structure State (σ α ι : Type) where
  shared : SharedState σ α
  getter : Getter α
  setters : ι → Setter α

/-- Every reading and writing of a field of the shared state is a statement. -/
inductive Statement (ι α : Type)
  | check
  | wake
  | expire
  | giveUp
  | checkAgain
  | wakeAgain
  | move
  | drop
  | lock (i : ι) (v : α)
  | miss (i : ι)
  | assign (i : ι)
  | complete (i : ι)
  | signal (i : ι)

def Statement.ofGetter : Statement ι α → Bool
  | .check | .wake | .expire | .giveUp | .checkAgain | .wakeAgain | .move => true
  | _ => false

namespace State

def start (event : CoEvent σ) : State σ α ι := ⟨⟨event.initial, none, false⟩, .waitFor, fun _ => .outside⟩

def get (s : State σ α ι) (g : Getter α) : State σ α ι := { s with getter := g }

def set [DecidableEq ι] (s : State σ α ι) (shared : SharedState σ α) (i : ι) (p : Setter α) : State σ α ι :=
  ⟨shared, s.getter, Function.update s.setters i p⟩

variable [DecidableEq ι] (s : State σ α ι) (shared : SharedState σ α) (i : ι) (p : Setter α)

theorem setters_set_self : (s.set shared i p).setters i = p := by
  dsimp only [set]
  exact Function.update_self i p s.setters

theorem setters_set {i j : ι} (h : j ≠ i) : (s.set shared i p).setters j = s.setters j := by
  dsimp only [set]
  exact Function.update_of_ne h p s.setters

end State

section Steps

variable [DecidableEq ι] (event : CoEvent σ) (default : α)

inductive Step : State σ α ι → Statement ι α → State σ α ι → Prop
  | ready {s : State σ α ι} : s.getter = .waitFor → s.shared.isComplete = true → Step s .check (s.get .get)
  | wait {s : State σ α ι} : s.getter = .waitFor → s.shared.isComplete = false → Step s .check (s.get .waiting)
  | wake {s : State σ α ι} {e : σ} : s.getter = .waiting → event.wait s.shared.event = some e →
      Step s .wake { s with shared := { s.shared with event := e }, getter := .get }
  | expire {s : State σ α ι} : s.getter = .waiting → event.wait s.shared.event = none →
      Step s .expire (s.get .timeout)
  | giveUp {s : State σ α ι} : s.getter = .timeout → Step s .giveUp (s.get (.returned default))
  | complete {s : State σ α ι} : s.getter = .get → s.shared.isComplete = true → Step s .checkAgain (s.get .moving)
  | incomplete {s : State σ α ι} : s.getter = .get → s.shared.isComplete = false → Step s .checkAgain (s.get .blocked)
  | wakeAgain {s : State σ α ι} {e : σ} : s.getter = .blocked → event.wait s.shared.event = some e →
      Step s .wakeAgain { s with shared := { s.shared with event := e }, getter := .moving }
  | move {s : State σ α ι} {v : α} : s.getter = .moving → s.shared.value = some v →
      Step s .move { s with shared := { s.shared with value := none }, getter := .returned v }
  | drop {s : State σ α ι} {v : α} : s.getter = .returned v → Step s .drop (s.get (.dropped v))
  | lock {s : State σ α ι} {i : ι} {v : α} : s.setters i = .outside → (∀ w, s.getter ≠ .dropped w) →
      Step s (.lock i v) (s.set s.shared i (.holding v))
  | miss {s : State σ α ι} {i : ι} {w : α} : s.setters i = .outside → s.getter = .dropped w →
      Step s (.miss i) (s.set s.shared i .missed)
  | assign {s : State σ α ι} {i : ι} {v : α} : s.setters i = .holding v →
      Step s (.assign i) (s.set { s.shared with value := some v } i (.assigned v))
  | setComplete {s : State σ α ι} {i : ι} {v : α} : s.setters i = .assigned v →
      Step s (.complete i) (s.set { s.shared with isComplete := true } i (.complete v))
  | signal {s : State σ α ι} {i : ι} {v : α} : s.setters i = .complete v →
      Step s (.signal i) (s.set { s.shared with event := event.signal s.shared.event } i (.done v))

end Steps

section Invariant

/-- The value that was given to a setter, from the lock on. -/
def Setter.Has (v : α) : Setter α → Prop
  | .holding w => w = v
  | p => p.Gave v

def Setter.Sent : Setter α → Prop
  | .complete _ | .done _ => True
  | _ => False

def Getter.Unmoved : Getter α → Prop
  | .returned _ | .dropped _ => False
  | _ => True

def Signalled (past : List (Statement ι α)) : Prop := ∃ i, Statement.signal i ∈ past

/-- What has become of an answer: the timer went off, or it was taken from a setter
that had it in place. -/
def Answer (default : α) (past : List (Statement ι α)) (w : α) : Prop :=
  Statement.expire ∈ past ∧ w = default ∨
    Statement.expire ∉ past ∧ ∃ i, Statement.lock i w ∈ past ∧ Statement.assign i ∈ past

/-- The shared state against the setters. -/
structure Memory (event : CoEvent σ) (past : List (Statement ι α)) (s : State σ α ι) : Prop where
  locked : ∀ i v, (s.setters i).Has v → .lock i v ∈ past
  assigned : ∀ i v, (s.setters i).Gave v → .assign i ∈ past
  source : ∀ v, s.shared.value = some v → ∃ i, (s.setters i).Gave v
  kept : ∀ i v, (s.setters i).Gave v → s.getter.Unmoved → s.shared.value.isSome
  complete : s.shared.isComplete = true → ∃ i v, (s.setters i).Gave v
  sent : ∀ i, (s.setters i).Sent → s.shared.isComplete = true
  signalled : Signalled past → s.shared.isComplete = true
  passes : (event.wait s.shared.event).isSome → s.shared.isComplete = true

/-- What holds where the getter is. It never waits for a signal that has been given,
and get of the future never waits. -/
def At (event : CoEvent σ) (default : α) (past : List (Statement ι α)) (shared : SharedState σ α) : Getter α → Prop
  | .waitFor => .expire ∉ past
  | .waiting => .expire ∉ past ∧ (Signalled past → (event.wait shared.event).isSome)
  | .timeout => .expire ∈ past
  | .get | .moving => .expire ∉ past ∧ shared.isComplete = true
  | .blocked => False
  | .returned w | .dropped w => Answer default past w

/-- The timer goes off before the first signal only. -/
def Early (pre : List (Statement ι α)) (a : Statement ι α) : Prop := a = .expire → ¬ Signalled pre

structure Inv (event : CoEvent σ) (default : α) (past : List (Statement ι α)) (s : State σ α ι) : Prop where
  memory : Memory event past s
  place : At event default past s.shared s.getter
  early : Along Early past

variable {event : CoEvent σ} {default : α} {past : List (Statement ι α)} {s t : State σ α ι} {a : Statement ι α}

theorem Setter.Gave.has {v : α} {p : Setter α} (h : p.Gave v) : p.Has v := by
  cases p with
  | assigned | complete | done => exact h
  | outside | holding | missed => cases h

theorem signalled_snoc : Signalled (past ++ [a]) ↔ Signalled past ∨ ∃ i, a = .signal i := by
  simp only [Signalled, List.mem_append, List.mem_singleton, exists_or, eq_comm (a := a)]

theorem signalled_snoc_of_ne (ha : ∀ i, a ≠ .signal i) : Signalled (past ++ [a]) ↔ Signalled past := by
  rw [signalled_snoc, or_iff_left fun ⟨i, hi⟩ => ha i hi]

theorem mem_snoc_of_ne {b : Statement ι α} (hab : b ≠ a) : b ∈ past ++ [a] ↔ b ∈ past := by
  rw [List.mem_append, List.mem_singleton, or_iff_left hab]

theorem Answer.snoc {w : α} (h : Answer default past w) (ha : a ≠ .expire) : Answer default (past ++ [a]) w := by
  rw [Answer, mem_snoc_of_ne ha.symm]
  rcases h with h | ⟨hne, i, hlock, hassign⟩
  · exact .inl h
  · exact .inr ⟨hne, i, List.mem_append_left _ hlock, List.mem_append_left _ hassign⟩

theorem inv_start : Inv event default [] (State.start event : State σ α ι) where
  memory :=
    { locked := fun i v h => by cases h
      assigned := fun i v h => by cases h
      source := fun v h => by cases h
      kept := fun i v h => by cases h
      complete := fun h => by cases h
      sent := fun i h => by cases h
      signalled := fun ⟨i, hi⟩ => by cases hi
      passes := fun h => by
        rw [State.start, event.wait_initial] at h
        cases h }
  place := List.not_mem_nil
  early := along_nil

/-- A statement of the getter that leaves the value where it is, or has moved it. -/
theorem Memory.get (h : Memory event past s) (ha : ∀ i, a ≠ .signal i) (hsetters : t.setters = s.setters)
    (hcomplete : t.shared.isComplete = s.shared.isComplete)
    (hvalue : t.shared.value = s.shared.value ∨ t.shared.value = none ∧ ¬ t.getter.Unmoved)
    (hunmoved : t.getter.Unmoved → s.getter.Unmoved)
    (hpasses : (event.wait t.shared.event).isSome → s.shared.isComplete = true) : Memory event (past ++ [a]) t where
  locked i v hi := List.mem_append_left _ (h.locked i v (hsetters ▸ hi))
  assigned i v hi := List.mem_append_left _ (h.assigned i v (hsetters ▸ hi))
  source v hv := by
    rw [hsetters]
    rcases hvalue with hvalue | ⟨hnone, _⟩
    · exact h.source v (hvalue ▸ hv)
    · rw [hnone] at hv
      cases hv
  kept i v hi hg := by
    rcases hvalue with hvalue | ⟨_, hmoved⟩
    · rw [hvalue]
      exact h.kept i v (hsetters ▸ hi) (hunmoved hg)
    · exact absurd hg hmoved
  complete hc := by
    rw [hsetters]
    exact h.complete (hcomplete ▸ hc)
  sent i hi := hcomplete ▸ h.sent i (hsetters ▸ hi)
  signalled hs := hcomplete ▸ h.signalled ((signalled_snoc_of_ne ha).mp hs)
  passes hp := hcomplete ▸ hpasses hp

/-- What a statement of one setter has to keep, where the others stay. -/
structure Keeps (event : CoEvent σ) (past : List (Statement ι α)) (s : State σ α ι) (shared : SharedState σ α) (i : ι)
    (p : Setter α) : Prop where
  locked : ∀ v, p.Has v → .lock i v ∈ past
  assigned : ∀ v, p.Gave v → .assign i ∈ past
  gave : ∀ v, (s.setters i).Gave v → p.Gave v
  source : ∀ v, shared.value = some v → p.Gave v ∨ s.shared.value = some v
  kept : (∀ v, p.Gave v → (s.setters i).Gave v) ∧ shared.value = s.shared.value ∨ shared.value.isSome
  complete : shared.isComplete = true → s.shared.isComplete = true ∨ ∃ v, p.Gave v
  still : s.shared.isComplete = true → shared.isComplete = true
  sent : p.Sent → shared.isComplete = true
  passes : (event.wait shared.event).isSome → (event.wait s.shared.event).isSome ∨ shared.isComplete = true

theorem Memory.set [DecidableEq ι] {shared : SharedState σ α} {i : ι} {p : Setter α} (h : Memory event past s)
    (hk : Keeps event (past ++ [a]) s shared i p) (ha : ∀ j, a = .signal j → p.Sent) :
    Memory event (past ++ [a]) (s.set shared i p) := by
  have hself := s.setters_set_self shared i p
  have hother : ∀ j, j ≠ i → (s.set shared i p).setters j = s.setters j := fun j hj => s.setters_set shared p hj
  have hgave : ∀ j v, (s.setters j).Gave v → ((s.set shared i p).setters j).Gave v := by
    intro j v hj
    by_cases hji : j = i
    · subst hji
      rw [hself]
      exact hk.gave v hj
    · rwa [hother j hji]
  constructor
  · intro j v hj
    by_cases hji : j = i
    · subst hji
      exact hk.locked v (hself ▸ hj)
    · exact List.mem_append_left _ (h.locked j v (hother j hji ▸ hj))
  · intro j v hj
    by_cases hji : j = i
    · subst hji
      exact hk.assigned v (hself ▸ hj)
    · exact List.mem_append_left _ (h.assigned j v (hother j hji ▸ hj))
  · intro v hv
    rcases hk.source v hv with hp | hv
    · exact ⟨i, by rwa [hself]⟩
    · obtain ⟨j, hj⟩ := h.source v hv
      exact ⟨j, hgave j v hj⟩
  · intro j v hj hunmoved
    rcases hk.kept with ⟨hback, hvalue⟩ | hsome
    · refine hvalue ▸ h.kept j v ?_ hunmoved
      by_cases hji : j = i
      · subst hji
        exact hback v (hself ▸ hj)
      · exact hother j hji ▸ hj
    · exact hsome
  · intro hc
    rcases hk.complete hc with hc | ⟨v, hp⟩
    · obtain ⟨j, v, hj⟩ := h.complete hc
      exact ⟨j, v, hgave j v hj⟩
    · exact ⟨i, v, by rwa [hself]⟩
  · intro j hj
    by_cases hji : j = i
    · subst hji
      exact hk.sent (hself ▸ hj)
    · exact hk.still (h.sent j (hother j hji ▸ hj))
  · intro hs
    rcases signalled_snoc.mp hs with hs | ⟨j, hj⟩
    · exact hk.still (h.signalled hs)
    · exact hk.sent (ha j hj)
  · intro hp
    rcases hk.passes hp with hp | hc
    · exact hk.still (h.passes hp)
    · exact hc

/-- A statement of a setter keeps what holds where the getter is. -/
theorem At.set {shared shared' : SharedState σ α} {g : Getter α} (h : At event default past shared g)
    (ha : a ≠ .expire) (hstill : shared.isComplete = true → shared'.isComplete = true)
    (hpasses : (event.wait shared.event).isSome → (event.wait shared'.event).isSome)
    (hsignal : ∀ i, a = .signal i → (event.wait shared'.event).isSome) :
    At event default (past ++ [a]) shared' g := by
  cases g with
  | waitFor => exact (mem_snoc_of_ne ha.symm).not.mpr h
  | waiting =>
      refine ⟨(mem_snoc_of_ne ha.symm).not.mpr h.1, fun hs => ?_⟩
      rcases signalled_snoc.mp hs with hs | ⟨i, hi⟩
      · exact hpasses (h.2 hs)
      · exact hsignal i hi
  | timeout => exact List.mem_append_left _ h
  | get | moving => exact ⟨(mem_snoc_of_ne ha.symm).not.mpr h.1, hstill h.2⟩
  | blocked => exact h
  | returned w | dropped w => exact h.snoc ha

theorem early_of_ne (ha : a ≠ .expire) : Early past a := fun heq => absurd heq ha

theorem early_snoc (h : Along Early past) (ha : a ≠ .expire) : Along Early (past ++ [a]) :=
  along_snoc.mpr ⟨h, early_of_ne ha⟩

theorem Inv.set [DecidableEq ι] {shared : SharedState σ α} {i : ι} {p : Setter α} (h : Inv event default past s)
    (hk : Keeps event (past ++ [a]) s shared i p) (ha : a ≠ .expire) (hsent : ∀ j, a = .signal j → p.Sent)
    (hpasses : (event.wait s.shared.event).isSome → (event.wait shared.event).isSome)
    (hsignal : ∀ i, a = .signal i → (event.wait shared.event).isSome) :
    Inv event default (past ++ [a]) (s.set shared i p) :=
  ⟨h.memory.set hk hsent, h.place.set ha hk.still hpasses hsignal, early_snoc h.early ha⟩

theorem not_expire_snoc (h : .expire ∉ past) (ha : a ≠ .expire) : .expire ∉ past ++ [a] :=
  (mem_snoc_of_ne ha.symm).not.mpr h

/-- A statement of the getter before the value is moved, with the event it leaves. -/
theorem Inv.get (h : Inv event default past s) (hunmoved : s.getter.Unmoved) (ha : ∀ i, a ≠ .signal i) {e : σ}
    (he : (event.wait e).isSome → s.shared.isComplete = true) {g : Getter α}
    (hplace : At event default (past ++ [a]) { s.shared with event := e } g) (hearly : Early past a) :
    Inv event default (past ++ [a]) { s with shared := { s.shared with event := e }, getter := g } :=
  ⟨h.memory.get ha rfl rfl (.inl rfl) (fun _ => hunmoved) he, hplace, along_snoc.mpr ⟨h.early, hearly⟩⟩

theorem Inv.atPlace {g : Getter α} (h : Inv event default past s) (hg : s.getter = g) :
    At event default past s.shared g :=
  hg ▸ h.place

/-- Before the first assignment a setter leaves the shared state alone. -/
theorem keeps_outside {i : ι} {p : Setter α} (hi : s.setters i = .outside) (hlocked : ∀ v, p.Has v → .lock i v ∈ past)
    (hgave : ∀ v, ¬ p.Gave v) (hsent : ¬ p.Sent) : Keeps event past s s.shared i p where
  locked := hlocked
  assigned w hw := absurd hw (hgave w)
  gave w hw := by
    rw [hi] at hw
    cases hw
  source w hw := .inr hw
  kept := .inl ⟨fun w hw => absurd hw (hgave w), rfl⟩
  complete hc := .inl hc
  still hc := hc
  sent hs := absurd hs hsent
  passes hp := .inl hp

theorem Memory.locked_snoc (h : Memory event past s) {i : ι} {p : Setter α} (hi : s.setters i = p) {v : α}
    (hv : p.Has v) : .lock i v ∈ past ++ [a] :=
  List.mem_append_left _ (h.locked i v (hi ▸ hv))

theorem Memory.assigned_snoc (h : Memory event past s) {i : ι} {p : Setter α} (hi : s.setters i = p) {v : α}
    (hv : p.Gave v) : .assign i ∈ past ++ [a] :=
  List.mem_append_left _ (h.assigned i v (hi ▸ hv))

theorem Memory.keeps_assigned (h : Memory event past s) {i : ι} {v : α} (hi : s.setters i = .holding v) :
    Keeps event (past ++ [.assign i]) s { s.shared with value := some v } i (.assigned v) where
  locked w hw := h.locked_snoc hi hw
  assigned w hw := List.mem_append_right _ List.mem_cons_self
  gave w hw := by
    rw [hi] at hw
    cases hw
  source w hw := .inl (Option.some.inj hw)
  kept := .inr rfl
  complete hc := .inl hc
  still hc := hc
  sent hs := by cases hs
  passes hp := .inl hp

theorem Memory.keeps_complete (h : Memory event past s) {i : ι} {v : α} (hi : s.setters i = .assigned v) :
    Keeps event (past ++ [.complete i]) s { s.shared with isComplete := true } i (.complete v) where
  locked w hw := h.locked_snoc hi hw
  assigned w hw := h.assigned_snoc hi hw
  gave w hw := by
    rw [hi] at hw
    exact hw
  source w hw := .inr hw
  kept := .inl ⟨fun w hw => hi ▸ hw, rfl⟩
  complete _ := .inr ⟨v, rfl⟩
  still _ := rfl
  sent _ := rfl
  passes _ := .inr rfl

theorem Memory.keeps_done (h : Memory event past s) {i : ι} {v : α} (hi : s.setters i = .complete v) :
    Keeps event (past ++ [.signal i]) s { s.shared with event := event.signal s.shared.event } i (.done v) where
  locked w hw := h.locked_snoc hi hw
  assigned w hw := h.assigned_snoc hi hw
  gave w hw := by
    rw [hi] at hw
    exact hw
  source w hw := .inr hw
  kept := .inl ⟨fun w hw => hi ▸ hw, rfl⟩
  complete hc := .inl hc
  still hc := hc
  sent _ := h.sent i (hi ▸ trivial)
  passes _ := .inr (h.sent i (hi ▸ trivial))

theorem inv_step [DecidableEq ι] (h : Inv event default past s) (hstep : Step event default s a t) :
    Inv event default (past ++ [a]) t := by
  cases hstep with
  | ready hg hc =>
      have hplace := h.atPlace hg
      refine h.get (by rw [hg]; trivial) (fun _ ha => by cases ha) h.memory.passes ?_ (early_of_ne nofun)
      exact ⟨not_expire_snoc hplace nofun, hc⟩
  | wait hg hc =>
      have hplace := h.atPlace hg
      refine h.get (by rw [hg]; trivial) (fun _ ha => by cases ha) h.memory.passes ?_ (early_of_ne nofun)
      refine ⟨not_expire_snoc hplace nofun, fun hs => ?_⟩
      have hcomplete := h.memory.signalled ((signalled_snoc_of_ne nofun).mp hs)
      rw [hc] at hcomplete
      cases hcomplete
  | wake hg he =>
      have hplace := h.atPlace hg
      have hc := h.memory.passes (by rw [he]; rfl)
      refine h.get (by rw [hg]; trivial) (fun _ ha => by cases ha) (fun _ => hc) ?_ (early_of_ne nofun)
      exact ⟨not_expire_snoc hplace.1 nofun, hc⟩
  | expire hg he =>
      have hplace := h.atPlace hg
      have hexpired : .expire ∈ past ++ [.expire] := List.mem_append_right _ List.mem_cons_self
      refine h.get (by rw [hg]; trivial) (fun _ ha => by cases ha) h.memory.passes hexpired fun _ hs => ?_
      have hpasses := hplace.2 hs
      rw [he] at hpasses
      cases hpasses
  | giveUp hg =>
      have hplace := h.atPlace hg
      refine h.get (by rw [hg]; trivial) (fun _ ha => by cases ha) h.memory.passes ?_ (early_of_ne nofun)
      exact .inl ⟨List.mem_append_left _ hplace, rfl⟩
  | complete hg hc =>
      have hplace := h.atPlace hg
      refine h.get (by rw [hg]; trivial) (fun _ ha => by cases ha) h.memory.passes ?_ (early_of_ne nofun)
      exact ⟨not_expire_snoc hplace.1 nofun, hc⟩
  | incomplete hg hc =>
      have hplace := h.atPlace hg
      rw [hplace.2] at hc
      cases hc
  | wakeAgain hg he => exact absurd (h.atPlace hg) not_false
  | move hg hv =>
      have hplace := h.atPlace hg
      obtain ⟨i, hi⟩ := h.memory.source _ hv
      refine ⟨h.memory.get nofun rfl rfl (.inr ⟨rfl, not_false⟩) (fun hf => absurd hf not_false) h.memory.passes, ?_,
        early_snoc h.early nofun⟩
      exact .inr ⟨not_expire_snoc hplace.1 nofun, i, List.mem_append_left _ (h.memory.locked i _ hi.has),
        List.mem_append_left _ (h.memory.assigned i _ hi)⟩
  | drop hg =>
      have hplace := h.atPlace hg
      exact ⟨h.memory.get nofun rfl rfl (.inl rfl) (fun hf => absurd hf not_false) h.memory.passes, hplace.snoc nofun,
        early_snoc h.early nofun⟩
  | lock hi hg =>
      refine h.set (keeps_outside hi ?_ (fun _ => not_false) not_false) nofun nofun id nofun
      rintro w rfl
      exact List.mem_append_right _ List.mem_cons_self
  | miss hi hg => exact h.set (keeps_outside hi nofun (fun _ => not_false) not_false) nofun nofun id nofun
  | assign hi => exact h.set (h.memory.keeps_assigned hi) nofun nofun id nofun
  | setComplete hi => exact h.set (h.memory.keeps_complete hi) nofun nofun id nofun
  | signal hi =>
      exact h.set (h.memory.keeps_done hi) nofun (fun _ _ => trivial) (fun _ => event.wait_signal _)
        fun _ _ => event.wait_signal _

theorem inv_run [DecidableEq ι] {as : List (Statement ι α)} (h : Run (Step event default) (State.start event) as s) :
    Inv event default as s :=
  h.history_invariant (Inv event default) (fun _ _ _ _ hinv hstep => inv_step hinv hstep) [] inv_start

end Invariant

section Result

variable [DecidableEq ι] {event : CoEvent σ} {default : α} {past as : List (Statement ι α)} {s t : State σ α ι}
  {a : Statement ι α}

/-- The statements that are left to the getter at most. -/
def Getter.left : Getter α → Nat
  | .waitFor => 4
  | .waiting => 3
  | .get | .blocked => 2
  | .timeout | .moving => 1
  | .returned _ | .dropped _ => 0

/-- Until it returns, the getter has a statement to make: it waits with a timer, and
where it waits without one there is a value. -/
theorem Inv.progress (h : Inv event default past s) (hunmoved : s.getter.Unmoved) :
    ∃ a t, a.ofGetter = true ∧ Step event default s a t := by
  cases hg : s.getter with
  | waitFor =>
      cases hc : s.shared.isComplete with
      | true => exact ⟨_, _, rfl, .ready hg hc⟩
      | false => exact ⟨_, _, rfl, .wait hg hc⟩
  | waiting =>
      cases he : event.wait s.shared.event with
      | some e => exact ⟨_, _, rfl, .wake hg he⟩
      | none => exact ⟨_, _, rfl, .expire hg he⟩
  | timeout => exact ⟨_, _, rfl, .giveUp hg⟩
  | get => exact ⟨_, _, rfl, .complete hg (h.atPlace hg).2⟩
  | blocked => exact absurd (h.atPlace hg) not_false
  | moving =>
      obtain ⟨i, v, hi⟩ := h.memory.complete (h.atPlace hg).2
      obtain ⟨w, hw⟩ := Option.isSome_iff_exists.mp (h.memory.kept i v hi hunmoved)
      exact ⟨_, _, rfl, .move hg hw⟩
  | returned w | dropped w =>
      rw [hg] at hunmoved
      exact absurd hunmoved not_false

theorem Inv.left_step (hinv : Inv event default past s) (h : Step event default s a t) :
    t.getter.left + (if a.ofGetter then 1 else 0) ≤ s.getter.left := by
  cases h with
  | incomplete hg hc =>
      rw [(hinv.atPlace hg).2] at hc
      cases hc
  | wakeAgain hg he => exact absurd (hinv.atPlace hg) not_false
  | ready hg | wait hg | wake hg | expire hg | giveUp hg | complete hg | move hg | drop hg =>
      rw [hg]
      exact Nat.le_of_ble_eq_true rfl
  | lock | miss | assign | setComplete | signal => exact Nat.le_refl _

theorem left_run (h : Run (Step event default) (State.start event) as s) :
    as.countP Statement.ofGetter + s.getter.left ≤ 4 := by
  refine (h.history_invariant (fun past s => Inv event default past s ∧
    past.countP Statement.ofGetter + s.getter.left ≤ 4) ?_ [] ⟨inv_start, Nat.le_refl 4⟩).2
  rintro past s a t ⟨hinv, hleft⟩ hstep
  refine ⟨inv_step hinv hstep, ?_⟩
  have hless := hinv.left_step hstep
  rw [List.countP_append, List.countP_singleton]
  omega

/-- In every interleaving with the setters, get ends: it gives the default when its
timer went off, which happens before the first signal only, and else a value that a
setter had put in place. -/
theorem get_settles (h : Run (Step event default) (State.start event) as s) :
    (∀ w, s.getter = .returned w → Answer default as w) ∧
      (∀ pre post, as = pre ++ .expire :: post → ¬ Signalled pre) ∧
      (s.getter.Unmoved → ∃ a t, a.ofGetter = true ∧ Step event default s a t) ∧
      as.countP Statement.ofGetter ≤ 4 := by
  have hinv := inv_run h
  refine ⟨fun w hw => hinv.atPlace hw, fun pre post heq => hinv.early pre .expire post heq rfl, hinv.progress, ?_⟩
  exact (Nat.le_add_right _ _).trans (left_run h)

/-- An event that keeps one signal until a wait takes it. -/
def latch : CoEvent Bool where
  initial := false
  signal _ := true
  wait e := if e then some false else none
  wait_initial := rfl
  wait_signal _ := rfl

def heard : List (Statement Nat Nat) :=
  [.check, .lock 0 7, .assign 0, .complete 0, .signal 0, .wake, .checkAgain, .move]

def unheard : List (Statement Nat Nat) :=
  [.check, .lock 0 7, .expire, .assign 0, .complete 0, .signal 0, .giveUp]

/-- The value of a setter that comes with its signal after the timer is lost, although
the setter found the promise alive. -/
theorem get_settles_both :
    (∃ s, Run (Step latch 0) (State.start latch) heard s ∧ s.getter = .returned 7 ∧ Answer 0 heard 7) ∧
      ∃ s, Run (Step latch 0) (State.start latch) unheard s ∧ s.getter = .returned 0 ∧ Answer 0 unheard 0 := by
  have hheard : Run (Step latch 0) (State.start latch) heard _ :=
    .cons (.wait rfl rfl) (.cons (.lock rfl nofun) (.cons (.assign rfl) (.cons (.setComplete rfl) (.cons (.signal rfl)
      (.cons (.wake rfl rfl) (.cons (.complete rfl rfl) (.cons (.move rfl rfl) (.nil _))))))))
  have hunheard : Run (Step latch 0) (State.start latch) unheard _ :=
    .cons (.wait rfl rfl) (.cons (.lock rfl nofun) (.cons (.expire rfl rfl) (.cons (.assign rfl)
      (.cons (.setComplete rfl) (.cons (.signal rfl) (.cons (.giveUp rfl) (.nil _)))))))
  exact ⟨⟨_, hheard, rfl, (get_settles hheard).1 7 rfl⟩, ⟨_, hunheard, rfl, (get_settles hunheard).1 0 rfl⟩⟩

end Result

section Waiting

def given (past : List (Statement ι α)) : List α :=
  past.filterMap fun a => match a with
    | .lock _ v => some v
    | _ => none

theorem given_snoc (past : List (Statement ι α)) (a : Statement ι α) :
    given (past ++ [a]) = given past ++ given [a] :=
  List.filterMap_append

theorem mem_given {past : List (Statement ι α)} {i : ι} {v : α} (h : .lock i v ∈ past) : v ∈ given past :=
  List.mem_filterMap.mpr ⟨_, h, rfl⟩

def Getter.owns : Getter α → Bool
  | .dropped _ => false
  | _ => true

/-- The waiter of the registry behind a promise: it is alive until the wrapper is
dropped, and receives what finds it alive. -/
def waiterOf (place : Place) (past : List (Statement ι Message)) (s : State σ Message ι) : Waiter :=
  ⟨place, s.getter.owns, given past⟩

variable [DecidableEq ι] {event : CoEvent σ} {default : Message} {place : Place} {past : List (Statement ι Message)}
  {s t : State σ Message ι} {a : Statement ι Message}

theorem waiter_receives {i : ι} {m : Message} (h : Step event default s (.lock i m) t) :
    (waiterOf place past s).alive = true ∧
      waiterOf place (past ++ [.lock i m]) t = (waiterOf place past s).receive m := by
  cases h with
  | lock hi hg =>
      constructor
      · cases hs : s.getter with
        | dropped w => exact absurd hs (hg w)
        | _ => rw [waiterOf, hs, Getter.owns]; exact nofun
      · rw [waiterOf, given_snoc]
        rfl

theorem waiter_expires (h : Step event default s .drop t) :
    waiterOf place (past ++ [.drop]) t = (waiterOf place past s).expired := by
  cases h with
  | drop hg =>
      rw [waiterOf, given_snoc]
      exact congrArg (Waiter.mk place false) (List.append_nil _)

/-- Nothing else is seen of a promise in the registry. -/
theorem waiter_stays (h : Step event default s a t) (hdrop : a ≠ .drop) (hlock : ∀ i m, a ≠ .lock i m) :
    waiterOf place (past ++ [a]) t = waiterOf place past s := by
  have hgiven : given (past ++ [a]) = given past := by
    rw [given_snoc]
    cases a with
    | lock i m => exact absurd rfl (hlock i m)
    | _ => exact List.append_nil _
  have howns : t.getter.owns = s.getter.owns := by
    cases h with
    | drop hg => exact absurd rfl hdrop
    | lock hi hg => exact absurd rfl (hlock _ _)
    | ready hg | wait hg | wake hg | expire hg | giveUp hg | complete hg | incomplete hg | wakeAgain hg | move hg =>
        rw [hg]
        rfl
    | miss | assign | setComplete | signal => rfl
  rw [waiterOf, hgiven, howns, waiterOf]

/-- Without its timer a wait returns a message that its waiter has received. -/
theorem returned_received {as : List (Statement ι Message)} (h : Run (Step event default) (State.start event) as s)
    {m : Message} (hm : s.getter = .returned m) (htimer : .expire ∉ as) : m ∈ (waiterOf place as s).received := by
  rcases (get_settles h).1 m hm with ⟨hmem, _⟩ | ⟨_, i, hlock, _⟩
  · exact absurd hmem htimer
  · exact mem_given hlock

end Waiting

end MigangBot.Futures
