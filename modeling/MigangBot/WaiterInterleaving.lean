import MigangBot.WaiterDelivery
import MigangBot.Lib.Runs

namespace MigangBot.WaiterInterleaving

open Lib.Exceptions Lib.Maps Lib.Runs Text ApiTypes Waiters WaiterDelivery

/-- Where the coroutine of a message stands: it has seen that its message is
needed; it holds the mutex of its user and has left the popping loop; it has
found its group empty; it is done. -/
inductive Pc
  | checked
  | looped
  | foundEmpty
  | done
  deriving DecidableEq

structure Handler where
  message : Message
  pc : Pc
  deriving DecidableEq

structure System where
  registry : Registry
  handlers : List Handler

def System.init : System := ⟨.empty, []⟩

def holds (g : GId) (u : QId) (h : Handler) : Bool :=
  (h.pc == .looped || h.pc == .foundEmpty) && h.message.key == g && h.message.userId == u

def System.locked (s : System) (g : GId) (u : QId) : Bool := s.handlers.any (holds g u)

def System.handlerAt (s : System) (h : Nat) (pc : Pc) : Option Message :=
  match s.handlers[h]? with
  | some x => if x.pc = pc then some x.message else none
  | none => none

def System.advance (s : System) (h : Nat) (m : Message) (pc : Pc) : List Handler :=
  s.handlers.set h ⟨m, pc⟩

inductive Action
  | waitForNextMessage (groupId : Option GId) (userId : QId)
  | expire (w : Nat)
  | isNeedMessage (m : Message)
  | loop (h : Nat)
  | groupEmpty (h : Nat)
  | eraseGroup (h : Nat)

/-- One step of one party. A step that waits for a mutex has no result; a
lookup that fails has a failing one. -/
def step (s : System) : Action → Option (Outcome System)
  | .waitForNextMessage g u =>
      if s.locked (g.getD 0) u then none
      else some (.ok { s with registry := s.registry.waitForNextMessage g u })
  | .expire w => some (.ok { s with registry := s.registry.expire w })
  | .isNeedMessage m =>
      some (.ok (if s.registry.isNeedMessage m.key m.userId then
        { s with handlers := s.handlers ++ [⟨m, .checked⟩] } else s))
  | .loop h => do
      let m ← s.handlerAt h .checked
      if s.locked m.key m.userId then none
      else some (do return ⟨← s.registry.feedLoop m.key m.userId m, s.advance h m .looped⟩)
  | .groupEmpty h => do
      let m ← s.handlerAt h .looped
      some (do return { s with
        handlers := s.advance h m (if ← s.registry.groupEmpty m.key then .foundEmpty else .done) })
  | .eraseGroup h => do
      let m ← s.handlerAt h .foundEmpty
      some (.ok ⟨s.registry.eraseGroup m.key, s.advance h m .done⟩)

def Step (s : System) (a : Action) (t : System) : Prop := step s a = some (.ok t)

def Registered (s : Registry) (w : Nat) : Prop :=
  ∃ g u q, find₂ s.someoneGroupMessage g u = some q ∧ w ∈ q

def Unexpired (s : Registry) (w : Nat) : Prop := ∃ x, s.waiters[w]? = some x ∧ x.alive = true

/-- No lookup fails, and no registered waiter that still waits leaves the map
without a message. -/
def Safe (s : System) (a : Action) : Prop :=
  (∀ e, step s a ≠ some (.error e)) ∧
  ∀ t, Step s a t → ∀ w, Registered s.registry w → Unexpired s.registry w →
    Registered t.registry w ∨ ∃ x, t.registry.waiters[w]? = some x ∧ x.received ≠ []

/-- A loop drains a queue when only its last waiter can still wait. -/
def Drains (s : System) (m : Message) : Prop :=
  ∀ q, find₂ s.registry.someoneGroupMessage m.key m.userId = some q →
    ∀ w ∈ q.dropLast, ¬ Unexpired s.registry w

/-- The three windows a step must not fall into: draining a queue another
handler has checked but not entered, registering in a group found empty and
not yet erased, and erasing a group another handler is about to test. -/
def Meets (s : System) : Action → Prop
  | .waitForNextMessage g _ => ∀ h m, s.handlerAt h .foundEmpty = some m → m.key ≠ g.getD 0
  | .loop h => ∀ m, s.handlerAt h .checked = some m → Drains s m →
      ∀ h' m', h' ≠ h → s.handlerAt h' .checked = some m' →
        ¬ (m'.key = m.key ∧ m'.userId = m.userId)
  | .eraseGroup h => ∀ m, s.handlerAt h .foundEmpty = some m →
      ∀ h' m', s.handlerAt h' .looped = some m' → m'.key ≠ m.key
  | _ => True

theorem handlerAt_eq_some {s : System} {h : Nat} {pc : Pc} {m : Message} :
    s.handlerAt h pc = some m ↔ s.handlers[h]? = some ⟨m, pc⟩ := by
  simp only [System.handlerAt]
  cases s.handlers[h]? with
  | none => simp
  | some x =>
      cases x with
      | mk m' pc' => by_cases hpc : pc' = pc <;> simp [hpc]

theorem handlerAt_advance {s : System} {h : Nat} {pc pc₀ : Pc} {m m₀ : Message} {registry : Registry}
    (h₀ : s.handlerAt h pc₀ = some m₀) (h' : Nat) (pc' : Pc) :
    System.handlerAt ⟨registry, s.advance h m pc⟩ h' pc' =
      if h' = h then (if pc = pc' then some m else none) else s.handlerAt h' pc' := by
  have hlt := (List.getElem?_eq_some_iff.mp (handlerAt_eq_some.mp h₀)).1
  by_cases hh : h' = h
  · subst hh
    simp [System.handlerAt, System.advance, hlt]
  · have hne : h ≠ h' := Ne.symm hh
    simp [System.handlerAt, System.advance, hh, List.getElem?_set_ne hne]

/-- A checked handler's queue is still there, the group of one that left its
loop too, and nobody waits in a group found empty. -/
structure Inv (s : System) : Prop where
  consistent : Consistent s.registry
  checked : ∀ h m, s.handlerAt h .checked = some m → queue s.registry (.chat m.key m.userId) ≠ none
  looped : ∀ h m, s.handlerAt h .looped = some m → s.registry.someoneGroupMessage.lookup m.key ≠ none
  empty : ∀ h m, s.handlerAt h .foundEmpty = some m → ∀ u, queue s.registry (.chat m.key u) = none

theorem popping_drained {ws : List Waiter} {m : Message} {q : List Nat}
    (h : (popping ws m q).2 = []) : ∀ w ∈ q.dropLast, ∀ x, ws[w]? = some x → x.alive = false := by
  induction q with
  | nil => simp
  | cons w q ih =>
      cases q with
      | nil => simp
      | cons w' q =>
          intro j hj x hx
          cases hw : ws[w]? with
          | none =>
              rw [popping, hw] at h
              rcases List.mem_cons.mp hj with rfl | hj
              · simp [hw] at hx
              · exact ih h j hj x hx
          | some y =>
              cases ha : y.alive with
              | true => simp [popping, hw, ha] at h
              | false =>
                  rw [popping, hw] at h
                  simp only [ha, Bool.false_eq_true, if_false] at h
                  rcases List.mem_cons.mp hj with rfl | hj
                  · rw [hw] at hx
                    cases hx
                    exact ha
                  · exact ih h j hj x hx

theorem popping_keeps {ws : List Waiter} (m : Message) {q : List Nat} {w : Nat} {x : Waiter}
    (hw : w ∈ q) (hx : ws[w]? = some x) (ha : x.alive = true) :
    w ∈ (popping ws m q).2 ∨ ∃ y, (popping ws m q).1[w]? = some y ∧ y.received ≠ [] := by
  induction q with
  | nil => simp at hw
  | cons w' q ih =>
      rcases List.mem_cons.mp hw with rfl | hmem
      · right
        simp [popping, hx, ha, Waiter.receive]
      · cases hw' : ws[w']? with
        | none => simpa [popping, hw'] using ih hmem
        | some y =>
            cases hy : y.alive with
            | true => simp [popping, hw', hy, hmem]
            | false => simpa [popping, hw', hy] using ih hmem

theorem handlerAt_append {s : System} {registry : Registry} {m m' : Message} {h : Nat} {pc : Pc}
    (hh : System.handlerAt ⟨registry, s.handlers ++ [⟨m, .checked⟩]⟩ h pc = some m') :
    s.handlerAt h pc = some m' ∨ (pc = .checked ∧ m' = m) := by
  rw [handlerAt_eq_some] at hh ⊢
  rcases getElem?_snoc.mp hh with hold | ⟨_, hnew⟩
  · exact .inl hold
  · rw [Handler.mk.injEq] at hnew
    exact .inr ⟨hnew.2, hnew.1⟩

theorem Inv.waitForNextMessage {s : System} (h : Inv s) {g : Option GId} {u : QId}
    (hm : Meets s (.waitForNextMessage g u)) :
    Inv { s with registry := s.registry.waitForNextMessage g u } := by
  refine ⟨consistent_waitForNextMessage h.consistent g u, ?_, ?_, ?_⟩
  · intro i m hi
    rw [queue_waitForNextMessage]
    split
    · simp
    · exact h.checked i m hi
  · intro i m hi
    simp only [Registry.waitForNextMessage, insert₂, lookup_insert_eq]
    split
    · simp
    · exact h.looped i m hi
  · intro i m hi u'
    have hne := hm i m hi
    rw [queue_waitForNextMessage, if_neg (by simp [hne])]
    exact h.empty i m hi u'

theorem Inv.expire {s : System} (h : Inv s) (w : Nat) :
    Inv { s with registry := s.registry.expire w } := by
  refine ⟨consistent_expire h.consistent w, ?_, h.looped, ?_⟩
  · intro i m hi
    rw [queue_expire]
    exact h.checked i m hi
  · intro i m hi u
    rw [queue_expire]
    exact h.empty i m hi u

theorem Inv.isNeedMessage {s : System} (h : Inv s) {m : Message}
    (hn : s.registry.isNeedMessage m.key m.userId = true) :
    Inv { s with handlers := s.handlers ++ [⟨m, .checked⟩] } := by
  refine ⟨h.consistent, ?_, ?_, ?_⟩
  · intro i m' hi
    rcases handlerAt_append hi with hi | ⟨_, rfl⟩
    · exact h.checked i m' hi
    · simpa [Registry.isNeedMessage, queue, Option.isSome_iff_ne_none] using hn
  · intro i m' hi
    rcases handlerAt_append hi with hi | ⟨hpc, _⟩
    · exact h.looped i m' hi
    · cases hpc
  · intro i m' hi
    rcases handlerAt_append hi with hi | ⟨hpc, _⟩
    · exact h.empty i m' hi
    · cases hpc

theorem row_afterLoop (s : Registry) (g g' : GId) (u : QId) (m : Message) (q : List Nat)
    (hg : s.someoneGroupMessage.lookup g' ≠ none) :
    (afterLoop s g u m q).someoneGroupMessage.lookup g' ≠ none := by
  by_cases hgg : g' = g
  · subst hgg
    obtain ⟨row, hrow⟩ := Option.ne_none_iff_exists'.mp hg
    simp only [afterLoop, storeRest₂]
    split
    · simp [erase₂, hrow]
    · simp [insert₂]
  · simpa only [afterLoop, row_storeRest₂ _ _ _ hgg] using hg

theorem Inv.loop {s : System} (h : Inv s) {i : Nat} {m : Message} {q : List Nat}
    (hi : s.handlerAt i .checked = some m) (hq : queue s.registry (.chat m.key m.userId) = some q)
    (hm : Meets s (.loop i)) :
    Inv ⟨afterLoop s.registry m.key m.userId m q, s.advance i m .looped⟩ := by
  refine ⟨(consistent_afterLoop h.consistent m hq).2, ?_, ?_, ?_⟩
  · intro j m' hj
    rw [handlerAt_advance hi] at hj
    split at hj
    · simp at hj
    next hji =>
      rw [queue_afterLoop]
      split
      next hk =>
        simp only [Queue.chat.injEq] at hk
        split
        next he =>
          have hdrain : Drains s m := by
            intro q' hq' w hw hun
            rw [show find₂ s.registry.someoneGroupMessage m.key m.userId = some q from hq] at hq'
            cases hq'
            obtain ⟨x, hx, ha⟩ := hun
            have := popping_drained (List.isEmpty_iff.mp he) w hw x hx
            simp [this] at ha
          exact absurd hk (hm m hi hdrain j m' hji hj)
        · simp
      · exact h.checked j m' hj
  · intro j m' hj
    rw [handlerAt_advance hi] at hj
    apply row_afterLoop
    split at hj
    · simp only [if_true, Option.some.injEq] at hj
      subst hj
      intro hnone
      simp [queue, find₂, hnone] at hq
    · exact h.looped j m' hj
  · intro j m' hj u
    rw [handlerAt_advance hi] at hj
    split at hj
    · simp at hj
    · rw [queue_afterLoop]
      split
      next hk =>
        rw [← hk, h.empty j m' hj u] at hq
        cases hq
      next hk => exact h.empty j m' hj u

theorem Inv.groupEmpty {s : System} (h : Inv s) {i : Nat} {m : Message} {users : FiniteMap QId (List Nat)}
    (hi : s.handlerAt i .looped = some m)
    (hu : s.registry.someoneGroupMessage.lookup m.key = some users) :
    Inv { s with handlers := s.advance i m (if isEmpty users then .foundEmpty else .done) } := by
  refine ⟨h.consistent, ?_, ?_, ?_⟩
  · intro j m' hj
    rw [handlerAt_advance hi] at hj
    split at hj
    · split at hj <;> simp at hj
    · exact h.checked j m' hj
  · intro j m' hj
    rw [handlerAt_advance hi] at hj
    split at hj
    · split at hj <;> simp at hj
    · exact h.looped j m' hj
  · intro j m' hj u
    rw [handlerAt_advance hi] at hj
    split at hj
    · cases he : isEmpty users with
      | false => simp [he] at hj
      | true =>
          simp only [he, if_true, Option.some.injEq] at hj
          subst hj
          rw [queue_of_row hu]
          exact (isEmpty_iff users).mp he u
    · exact h.empty j m' hj u

theorem Inv.eraseGroup {s : System} (h : Inv s) {i : Nat} {m : Message}
    (hi : s.handlerAt i .foundEmpty = some m) (hm : Meets s (.eraseGroup i)) :
    Inv ⟨s.registry.eraseGroup m.key, s.advance i m .done⟩ := by
  have hg := h.empty i m hi
  refine ⟨consistent_eraseGroup h.consistent hg, ?_, ?_, ?_⟩
  · intro j m' hj
    rw [handlerAt_advance hi] at hj
    rw [queue_eraseGroup hg]
    split at hj
    · simp at hj
    · exact h.checked j m' hj
  · intro j m' hj
    rw [handlerAt_advance hi] at hj
    split at hj
    · simp at hj
    · simp only [Registry.eraseGroup, lookup_erase_eq, if_neg (hm m hi j m' hj)]
      exact h.looped j m' hj
  · intro j m' hj u
    rw [handlerAt_advance hi] at hj
    rw [queue_eraseGroup hg]
    split at hj
    · simp at hj
    · exact h.empty j m' hj u

theorem inv_init : Inv .init := by
  refine ⟨good_empty.consistent, ?_, ?_, ?_⟩ <;>
    intro i m hi <;>
    simp [System.handlerAt, System.init] at hi

def Keeps (s t : Registry) : Prop :=
  ∀ w, Registered s w → Unexpired s w → Registered t w ∨ ∃ x, t.waiters[w]? = some x ∧ x.received ≠ []

theorem registered_iff {s : Registry} {w : Nat} :
    Registered s w ↔ ∃ g u q, queue s (.chat g u) = some q ∧ w ∈ q :=
  Iff.rfl

theorem keeps_of_queues {s t : Registry} (h : ∀ g u, queue t (.chat g u) = queue s (.chat g u)) :
    Keeps s t := by
  rintro w ⟨g, u, q, hq, hw⟩ _
  exact .inl ⟨g, u, q, (h g u).trans hq, hw⟩

theorem keeps_waitForNextMessage (s : Registry) (g : Option GId) (u : QId) :
    Keeps s (s.waitForNextMessage g u) := by
  rintro w ⟨g', u', q, hq, hw⟩ _
  left
  rw [registered_iff]
  refine ⟨g', u', ?_⟩
  rw [queue_waitForNextMessage]
  split
  next hk =>
    rw [← hk]
    exact ⟨_, rfl, by simp [show queue s (.chat g' u') = some q from hq, hw]⟩
  next hk => exact ⟨q, hq, hw⟩

theorem keeps_afterLoop {s : Registry} {g : GId} {u : QId} (m : Message) {q : List Nat}
    (hq : queue s (.chat g u) = some q) : Keeps s (afterLoop s g u m q) := by
  rintro w ⟨g', u', q', hq', hw⟩ ⟨x, hx, ha⟩
  by_cases hk : Queue.chat g' u' = .chat g u
  · rw [show find₂ s.someoneGroupMessage g' u' = queue s (.chat g' u') from rfl, hk, hq] at hq'
    cases hq'
    rcases popping_keeps m hw hx ha with hrest | hserved
    · left
      rw [registered_iff]
      refine ⟨g, u, _, ?_, hrest⟩
      rw [queue_afterLoop, if_pos rfl, if_neg]
      intro he
      simp [List.isEmpty_iff.mp he] at hrest
    · exact .inr hserved
  · left
    rw [registered_iff]
    exact ⟨g', u', q', by rw [queue_afterLoop, if_neg hk]; exact hq', hw⟩

/-- A step that meets its condition never fails, keeps the invariant and loses
no waiter. -/
theorem Inv.step {s : System} (h : Inv s) {a : Action} (hm : Meets s a) {r : Outcome System}
    (hr : step s a = some r) : ∃ t, r = .ok t ∧ Inv t ∧ Keeps s.registry t.registry := by
  cases a with
  | waitForNextMessage g u =>
      simp only [WaiterInterleaving.step] at hr
      split at hr
      · cases hr
      · cases hr
        exact ⟨_, rfl, h.waitForNextMessage hm, keeps_waitForNextMessage s.registry g u⟩
  | expire w =>
      cases hr
      exact ⟨_, rfl, h.expire w, keeps_of_queues fun g u => queue_expire s.registry w _⟩
  | isNeedMessage m =>
      cases hr
      refine ⟨_, rfl, ?_, ?_⟩
      · split
        next hn => exact h.isNeedMessage hn
        next hn => exact h
      · split <;> exact keeps_of_queues fun _ _ => rfl
  | loop i =>
      simp only [WaiterInterleaving.step, Option.bind_eq_bind, Option.bind_eq_some_iff] at hr
      obtain ⟨m, hi, hr⟩ := hr
      obtain ⟨q, hq⟩ := Option.ne_none_iff_exists'.mp (h.checked i m hi)
      split at hr
      · cases hr
      · rw [feedLoop_eq h.consistent m hq] at hr
        cases hr
        exact ⟨_, rfl, h.loop hi hq hm, keeps_afterLoop m hq⟩
  | groupEmpty i =>
      simp only [WaiterInterleaving.step, Option.bind_eq_bind, Option.bind_eq_some_iff] at hr
      obtain ⟨m, hi, hr⟩ := hr
      obtain ⟨users, hu⟩ := Option.ne_none_iff_exists'.mp (h.looped i m hi)
      simp only [Registry.groupEmpty, hu, mapAt] at hr
      cases hr
      exact ⟨_, rfl, h.groupEmpty hi hu, keeps_of_queues fun _ _ => rfl⟩
  | eraseGroup i =>
      simp only [WaiterInterleaving.step, Option.bind_eq_bind, Option.bind_eq_some_iff] at hr
      obtain ⟨m, hi, hr⟩ := hr
      cases hr
      exact ⟨_, rfl, h.eraseGroup hi hm,
        keeps_of_queues fun g u => queue_eraseGroup (h.empty i m hi) (.chat g u)⟩

theorem inv_of_run {s : System} {as : List Action} (h : Run (Guarded Step Meets) .init as s) : Inv s := by
  refine h.invariant Inv ?_ inv_init
  intro s a t hs hst
  obtain ⟨t', ht, hinv, _⟩ := hs.step hst.1 hst.2
  cases ht
  exact hinv

theorem safe_of_meets (as : List Action) (s : System) (a : Action)
    (hrun : Run (Guarded Step Meets) .init as s) (hm : Meets s a) : Safe s a := by
  have hinv := inv_of_run hrun
  refine ⟨?_, ?_⟩
  · intro e he
    obtain ⟨t, ht, _⟩ := hinv.step hm he
    cases ht
  · intro t ht
    obtain ⟨t', ht', _, hkeeps⟩ := hinv.step hm ht
    cases ht'
    exact hkeeps

theorem mem_of_handlerAt {s : System} {h : Nat} {pc : Pc} {m : Message} (hh : s.handlerAt h pc = some m) :
    ⟨m, pc⟩ ∈ s.handlers := List.mem_of_getElem? (handlerAt_eq_some.mp hh)

theorem meets_waitForNextMessage {s : System} (hs : ∀ x ∈ s.handlers, x.pc ≠ .foundEmpty) (g : Option GId)
    (u : QId) : Meets s (.waitForNextMessage g u) := by
  intro h m hm
  exact absurd rfl (hs _ (mem_of_handlerAt hm))

theorem meets_eraseGroup {s : System} (hs : ∀ x ∈ s.handlers, x.pc ≠ .looped) (h : Nat) :
    Meets s (.eraseGroup h) := by
  intro m _ h' m' hm'
  exact absurd rfl (hs _ (mem_of_handlerAt hm'))

/-- The handlers of different users do not disturb each other's loops. -/
theorem meets_loop {s : System} (hs : s.handlers.Pairwise fun x y => x.message.userId ≠ y.message.userId) (h : Nat) :
    Meets s (.loop h) := by
  intro m hm _ h' m' hne hm' hsame
  rw [handlerAt_eq_some] at hm hm'
  obtain ⟨hlt, hget⟩ := List.getElem?_eq_some_iff.mp hm
  obtain ⟨hlt', hget'⟩ := List.getElem?_eq_some_iff.mp hm'
  rw [List.pairwise_iff_getElem] at hs
  rcases Nat.lt_or_gt_of_ne hne with hbefore | hafter
  · have hdiff := hs h' h hlt' hlt hbefore
    rw [hget, hget'] at hdiff
    exact hdiff hsame.2
  · have hdiff := hs h h' hlt hlt' hafter
    rw [hget, hget'] at hdiff
    exact hdiff hsame.2.symm

/-- Two users of one group wait, and the handlers of their messages go through it
side by side. -/
def sideBySide : List Action :=
  [.waitForNextMessage (some 5) 7, .waitForNextMessage (some 5) 8, .isNeedMessage ⟨7, some 5, []⟩,
    .isNeedMessage ⟨8, some 5, []⟩, .loop 0, .loop 1, .groupEmpty 0, .groupEmpty 1, .eraseGroup 0]

theorem safe_of_meets_sideBySide :
    ∃ s, Run (Guarded Step Meets) .init sideBySide s ∧ Safe s (.eraseGroup 1) := by
  have hrun : Run (Guarded Step Meets) .init sideBySide _ :=
    .cons ⟨meets_waitForNextMessage (by decide) _ _, rfl⟩
      (.cons ⟨meets_waitForNextMessage (by decide) _ _, rfl⟩ (.cons ⟨trivial, rfl⟩ (.cons ⟨trivial, rfl⟩
        (.cons ⟨meets_loop (by decide) _, rfl⟩ (.cons ⟨meets_loop (by decide) _, rfl⟩
          (.cons ⟨trivial, rfl⟩ (.cons ⟨trivial, rfl⟩ (.cons ⟨meets_eraseGroup (by decide) _, rfl⟩ (.nil _)))))))))
  exact ⟨_, hrun, safe_of_meets _ _ _ hrun (meets_eraseGroup (by decide) _)⟩

/-- Two messages of one user overtake each other between the check and the
mutex; and a user registers in a group that is just being erased. -/
theorem unsafe_interleavings :
    (¬ ∀ as s a, Run Step .init as s → ∀ e, step s a ≠ some (.error e)) ∧
      ¬ ∀ as s a, Run Step .init as s → ∀ t, Step s a t → Keeps s.registry t.registry := by
  refine ⟨?_, ?_⟩
  · intro h
    exact h [.waitForNextMessage (some 5) 7, .isNeedMessage ⟨7, some 5, []⟩,
      .isNeedMessage ⟨7, some 5, []⟩, .loop 0, .groupEmpty 0, .eraseGroup 0] _ (.loop 1)
      (.cons rfl (.cons rfl (.cons rfl (.cons rfl (.cons rfl (.cons rfl (.nil _))))))) _ rfl
  · intro h
    have hkeeps := h [.waitForNextMessage (some 5) 7, .isNeedMessage ⟨7, some 5, []⟩, .loop 0,
      .groupEmpty 0, .waitForNextMessage (some 5) 8] _ (.eraseGroup 0)
      (.cons rfl (.cons rfl (.cons rfl (.cons rfl (.cons rfl (.nil _)))))) _ rfl
      1 ⟨5, 8, [1], rfl, by simp⟩ ⟨_, rfl, rfl⟩
    rcases hkeeps with ⟨g, u, q, hq, _⟩ | ⟨x, hx, hr⟩
    · have hempty : find₂ (∅ : FiniteMap GId (FiniteMap QId (List Nat))) g u = some q := hq
      simp [find₂] at hempty
    · cases hx
      exact hr rfl

theorem popping_drains {ws : List Waiter} {q : List Nat} (m : Message)
    (h : ∀ w ∈ q.dropLast, ¬ ∃ x, ws[w]? = some x ∧ x.alive = true) : (popping ws m q).2 = [] := by
  induction q with
  | nil => rfl
  | cons w q ih =>
      cases q with
      | nil =>
          simp only [popping]
          split
          · split <;> rfl
          · rfl
      | cons w' q =>
          have hq := ih fun j hj => h j (List.mem_cons_of_mem _ hj)
          cases hw : ws[w]? with
          | none => simpa [popping, hw] using hq
          | some x =>
              have ha : x.alive = false := by
                by_contra hne
                exact h w (by simp) ⟨x, hw, by simpa using hne⟩
              rw [popping, hw]
              simpa only [ha, Bool.false_eq_true, if_false] using hq

theorem feedLoop_fails {s : Registry} {g : GId} {u : QId} (m : Message)
    (hq : queue s (.chat g u) = none) : ∃ e, s.feedLoop g u m = .error e := by
  simp only [queue] at hq
  cases hm : find₂ s.someoneGroupMessageMutex g u with
  | none => exact ⟨_, by simp [Registry.feedLoop, hm, mapAt, throwing]; rfl⟩
  | some _ => exact ⟨_, by simp [Registry.feedLoop, hm, hq, mapAt, throwing]; rfl⟩

theorem not_locked_set {s : System} {g : GId} {u : QId} {registry : Registry} (i : Nat) (m : Message)
    (h : s.locked g u = false) :
    System.locked ⟨registry, s.handlers.set i ⟨m, .done⟩⟩ g u = false := by
  simp only [System.locked, List.any_eq_false] at h ⊢
  intro x hx
  rcases List.mem_or_eq_of_mem_set hx with hx | rfl
  · exact h x hx
  · simp [holds]

theorem step_groupEmpty {s : System} {i : Nat} {m : Message} {users : FiniteMap QId (List Nat)}
    (hi : s.handlerAt i .looped = some m)
    (hu : s.registry.someoneGroupMessage.lookup m.key = some users) :
    Step s (.groupEmpty i)
      { s with handlers := s.advance i m (if isEmpty users then .foundEmpty else .done) } := by
  simp only [Step, step, hi, Option.bind_eq_bind, Option.bind_some, Registry.groupEmpty, hu]
  rfl

theorem step_eraseGroup {s : System} {i : Nat} {m : Message} (hi : s.handlerAt i .foundEmpty = some m) :
    Step s (.eraseGroup i) ⟨s.registry.eraseGroup m.key, s.advance i m .done⟩ := by
  simp only [Step, step, hi, Option.bind_eq_bind, Option.bind_some]

theorem not_safe_loop {s : System} {i : Nat} {m : Message} (hi : s.handlerAt i .checked = some m)
    (hfree : s.locked m.key m.userId = false) (hq : queue s.registry (.chat m.key m.userId) = none) :
    ¬ Safe s (.loop i) := by
  obtain ⟨e, he⟩ := feedLoop_fails m hq
  intro hsafe
  apply hsafe.1 e
  simp only [step, hi, Option.bind_eq_bind, Option.bind_some, hfree, he]
  rfl

theorem not_safe_groupEmpty {s : System} {i : Nat} {m : Message} (hi : s.handlerAt i .looped = some m)
    (hg : s.registry.someoneGroupMessage.lookup m.key = none) : ¬ Safe s (.groupEmpty i) := by
  intro hsafe
  apply hsafe.1 (.thrown .outOfRange)
  simp only [step, hi, Option.bind_eq_bind, Option.bind_some, Registry.groupEmpty, hg]
  rfl

theorem lost_in_erased_group {s : System} (hinv : Inv s) {i : Nat} {m : Message} {g : Option GId} {u : QId}
    (hi : s.handlerAt i .foundEmpty = some m) (hg : m.key = g.getD 0) :
    ¬ Safe { s with registry := s.registry.waitForNextMessage g u } (.eraseGroup i) := by
  intro hsafe
  have hstep : Step { s with registry := s.registry.waitForNextMessage g u } (.eraseGroup i)
      ⟨(s.registry.waitForNextMessage g u).eraseGroup m.key, s.advance i m .done⟩ := by
    have hi' : System.handlerAt { s with registry := s.registry.waitForNextMessage g u } i .foundEmpty =
        some m := hi
    exact step_eraseGroup hi'
  have hwaiter : (s.registry.waitForNextMessage g u).waiters[s.registry.waiters.length]? =
      some ⟨.chat g u, true, []⟩ := List.getElem?_concat_length
  have hreg : Registered (s.registry.waitForNextMessage g u) s.registry.waiters.length := by
    have hq := queue_waitForNextMessage s.registry g u (.chat (g.getD 0) u)
    rw [if_pos rfl] at hq
    exact ⟨g.getD 0, u, _, hq, by simp⟩
  rcases hsafe.2 _ hstep _ hreg ⟨_, hwaiter, rfl⟩ with ⟨g', u', q, hq, hw⟩ | ⟨x, hx, hr⟩
  · simp only [Registry.eraseGroup, find₂_erase] at hq
    split at hq
    · cases hq
    next hne =>
      have hq' : queue (s.registry.waitForNextMessage g u) (.chat g' u') = some q := hq
      rw [queue_waitForNextMessage, if_neg (by rw [← hg]; simp [hne])] at hq'
      have hl := hinv.consistent.listed (.chat g' u')
      rw [hq'] at hl
      obtain ⟨x, hx, _⟩ := hl.own _ hw
      have := (List.getElem?_eq_some_iff.mp hx).1
      omega
  · have hx' : (s.registry.waitForNextMessage g u).waiters[s.registry.waiters.length]? = some x := hx
    rw [hwaiter] at hx'
    cases hx'
    exact hr rfl

theorem finishes {s : System} {i : Nat} {m : Message} (hi : s.handlerAt i .looped = some m)
    (hg : s.registry.someoneGroupMessage.lookup m.key ≠ none) :
    ∃ bs registry, Run Step s bs ⟨registry, s.advance i m .done⟩ ∧
      ∀ u, queue s.registry (.chat m.key u) = none → queue registry (.chat m.key u) = none := by
  obtain ⟨users, hu⟩ := Option.ne_none_iff_exists'.mp hg
  have hstep := step_groupEmpty hi hu
  cases he : isEmpty users with
  | false =>
      simp only [he, Bool.false_eq_true, if_false] at hstep
      exact ⟨_, _, .cons hstep (.nil _), fun _ h => h⟩
  | true =>
      simp only [he, if_true] at hstep
      have hi' : System.handlerAt ⟨s.registry, s.advance i m .foundEmpty⟩ i .foundEmpty = some m := by
        simp [handlerAt_advance hi]
      have herase := step_eraseGroup hi'
      simp only [System.advance, List.set_set] at herase
      refine ⟨_, _, .cons hstep (.cons herase (.nil _)), fun u h => ?_⟩
      simp [queue, Registry.eraseGroup, find₂_erase]

theorem fails_in_drained_queue {s : System} {i j : Nat} {m m' : Message} {q : List Nat}
    (hi : s.handlerAt i .checked = some m) (hj : s.handlerAt j .checked = some m') (hij : j ≠ i)
    (hkey : m'.key = m.key) (huser : m'.userId = m.userId) (hfree : s.locked m.key m.userId = false)
    (hq : queue s.registry (.chat m.key m.userId) = some q) (hd : Drains s m) :
    ∃ bs u b, Run Step ⟨afterLoop s.registry m.key m.userId m q, s.advance i m .looped⟩ bs u ∧
      ¬ Safe u b := by
  have hgone : queue (afterLoop s.registry m.key m.userId m q) (.chat m.key m.userId) = none := by
    simp [queue_afterLoop, popping_drains m (hd q hq)]
  have hrow : (afterLoop s.registry m.key m.userId m q).someoneGroupMessage.lookup m.key ≠ none := by
    apply row_afterLoop
    intro hnone
    simp [queue, find₂, hnone] at hq
  have hi' : System.handlerAt ⟨afterLoop s.registry m.key m.userId m q, s.advance i m .looped⟩ i .looped =
      some m := by
    simp [handlerAt_advance hi]
  obtain ⟨bs, registry, hrun, hnone⟩ := finishes hi' hrow
  simp only [System.advance, List.set_set] at hrun
  refine ⟨bs, _, .loop j, hrun, not_safe_loop (m := m') ?_ ?_ ?_⟩
  · exact (handlerAt_advance hi j .checked).trans ((if_neg hij).trans hj)
  · rw [hkey, huser]
    exact not_locked_set i m hfree
  · rw [hkey, huser]
    exact hnone m.userId hgone

/-- A step that falls into one of the windows can be continued to a failing
lookup or a lost waiter. -/
theorem unsafe_of_not_meets (as : List Action) (s t : System) (a : Action)
    (hrun : Run (Guarded Step Meets) .init as s) (hs : Step s a t) (hm : ¬ Meets s a) :
    ∃ bs u b, Run Step t bs u ∧ ¬ Safe u b := by
  have hinv := inv_of_run hrun
  cases a with
  | waitForNextMessage g u =>
      simp only [Meets, not_forall, not_not] at hm
      obtain ⟨i, m, hi, hg⟩ := hm
      simp only [Step, step] at hs
      split at hs
      · cases hs
      · cases hs
        exact ⟨[], _, _, .nil _, lost_in_erased_group hinv hi hg⟩
  | loop i =>
      simp only [Meets, not_forall, not_not] at hm
      obtain ⟨m, hi, hd, j, m', hij, hj, hkey, huser⟩ := hm
      obtain ⟨q, hq⟩ := Option.ne_none_iff_exists'.mp (hinv.checked i m hi)
      simp only [Step, step, hi, feedLoop_eq hinv.consistent m hq, Option.bind_eq_bind,
        Option.bind_some] at hs
      split at hs
      · cases hs
      next hfree =>
        cases hs
        exact fails_in_drained_queue hi hj hij hkey huser (by simpa using hfree) hq hd
  | eraseGroup i =>
      simp only [Meets, not_forall, not_not] at hm
      obtain ⟨m, hi, j, m', hj, hkey⟩ := hm
      have hne : j ≠ i := by
        rintro rfl
        rw [handlerAt_eq_some] at hi hj
        rw [hi] at hj
        cases hj
      have hstep := step_eraseGroup hi
      rw [Step] at hs hstep
      rw [hstep] at hs
      cases hs
      refine ⟨[], _, .groupEmpty j, .nil _, not_safe_groupEmpty (m := m') ?_ ?_⟩
      · exact (handlerAt_advance hi j .looped).trans ((if_neg hne).trans hj)
      · simp only [hkey, Registry.eraseGroup, lookup_erase_eq, if_true]
  | expire w => exact absurd trivial hm
  | isNeedMessage m => exact absurd trivial hm
  | groupEmpty i => exact absurd trivial hm

end MigangBot.WaiterInterleaving
