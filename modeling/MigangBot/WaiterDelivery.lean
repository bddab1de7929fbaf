import MigangBot.Waiters
import MigangBot.Lib.Runs

namespace MigangBot.WaiterDelivery

open Lib.Exceptions Lib.Maps Lib.Runs Text ApiTypes Waiters

def waitsIn (k : Queue) (x : Waiter) : Bool := x.place.queue == k && x.alive && x.received.isEmpty

/-- What a message does to the waiters of a queue, without the maps: the
earliest one that has neither expired nor been served receives it. -/
def serve (k : Queue) (m : Message) (ws : List Waiter) : List Waiter :=
  match ws.findIdx? (waitsIn k) with
  | some w => ws.modify w (Waiter.receive m)
  | none => ws

/-- A queue of the registry lists positions in the order of registration, all
of unserved waiters of its own, and misses no waiting one. -/
structure Lists (ws : List Waiter) (k : Queue) (q : List Nat) : Prop where
  sorted : q.Pairwise (· < ·)
  own : ∀ w ∈ q, ∃ x, ws[w]? = some x ∧ x.place.queue = k ∧ x.received = []
  complete : ∀ w x, ws[w]? = some x → waitsIn k x = true → w ∈ q

theorem waitsIn_iff (k : Queue) (x : Waiter) :
    waitsIn k x = true ↔ x.place.queue = k ∧ x.alive = true ∧ x.received = [] := by
  simp [waitsIn, and_assoc]

theorem getElem?_receive (ws : List Waiter) (m : Message) (w j : Nat) :
    (ws.modify w (Waiter.receive m))[j]? =
      (ws[j]?).map (fun x => if w = j then x.receive m else x) :=
  List.getElem?_modify _ _ _ _

theorem not_waitsIn_receive (k : Queue) (m : Message) (x : Waiter) : waitsIn k (x.receive m) = false := by
  simp [waitsIn, Waiter.receive]

theorem Lists.head_first {ws : List Waiter} {k : Queue} {w : Nat} {q : List Nat} {x : Waiter}
    (h : Lists ws k (w :: q)) (hx : ws[w]? = some x) (ha : x.alive = true) :
    ws.findIdx? (waitsIn k) = some w := by
  obtain ⟨y, hy, hk, hr⟩ := h.own w (by simp)
  rw [hx] at hy
  cases hy
  obtain ⟨hw, rfl⟩ := List.getElem?_eq_some_iff.mp hx
  rw [List.findIdx?_eq_some_iff_getElem]
  refine ⟨hw, (waitsIn_iff _ _).mpr ⟨hk, ha, hr⟩, ?_⟩
  intro j hj hwait
  have hmem := h.complete j _ (List.getElem?_eq_getElem (by omega)) hwait
  rcases List.mem_cons.mp hmem with rfl | hq
  · omega
  · have := List.rel_of_pairwise_cons h.sorted hq
    omega

theorem Lists.serve_head {ws : List Waiter} {k : Queue} {w : Nat} {q : List Nat} (m : Message)
    (h : Lists ws k (w :: q)) : Lists (ws.modify w (Waiter.receive m)) k q := by
  have hlt (j : Nat) (hj : j ∈ q) : w < j := List.rel_of_pairwise_cons h.sorted hj
  refine ⟨h.sorted.of_cons, ?_, ?_⟩
  · intro j hj
    obtain ⟨x, hx, hk, hr⟩ := h.own j (List.mem_cons_of_mem _ hj)
    have hne : w ≠ j := by
      have := hlt j hj
      omega
    exact ⟨x, by simp [hx, hne], hk, hr⟩
  · intro j x hx hwait
    rw [getElem?_receive, Option.map_eq_some_iff] at hx
    obtain ⟨y, hy, rfl⟩ := hx
    split at hwait
    next hwj => simp [not_waitsIn_receive] at hwait
    next hwj =>
      rcases List.mem_cons.mp (h.complete j y hy hwait) with rfl | hq
      · exact absurd rfl hwj
      · exact hq

/-- The popping loop serves the queue's earliest waiter, and what is left of
the queue lists the others. -/
theorem popping_serves {ws : List Waiter} {k : Queue} {q : List Nat} (m : Message)
    (h : Lists ws k q) :
    (popping ws m q).1 = serve k m ws ∧ Lists (popping ws m q).1 k (popping ws m q).2 := by
  induction q with
  | nil =>
      have hnone : ws.findIdx? (waitsIn k) = none := by
        rw [List.findIdx?_eq_none_iff]
        intro x hx
        obtain ⟨w, hw⟩ := List.mem_iff_getElem?.mp hx
        by_contra hwait
        have := h.complete w x hw (by simpa using hwait)
        simp at this
      exact ⟨by simp [popping, serve, hnone], h⟩
  | cons w q ih =>
      obtain ⟨x, hx, hk, hr⟩ := h.own w (by simp)
      cases ha : x.alive with
      | true =>
          simp only [popping, hx, ha, if_true, serve, h.head_first hx ha]
          exact ⟨trivial, h.serve_head m⟩
      | false =>
          have hq : Lists ws k q := by
            refine ⟨h.sorted.of_cons, fun j hj => h.own j (List.mem_cons_of_mem _ hj), ?_⟩
            intro j y hy hwait
            rcases List.mem_cons.mp (h.complete j y hy hwait) with rfl | hq
            · rw [hx] at hy
              cases hy
              simp [waitsIn, ha] at hwait
            · exact hq
          simpa [popping, hx, ha] using ih hq

theorem serve_getElem? (k : Queue) (m : Message) (ws : List Waiter) (j : Nat) (x : Waiter)
    (hx : (serve k m ws)[j]? = some x) :
    ws[j]? = some x ∨ ∃ y, ws[j]? = some y ∧ waitsIn k y = true ∧ x = y.receive m := by
  unfold serve at hx
  split at hx
  next w hw =>
    rw [List.findIdx?_eq_some_iff_getElem] at hw
    obtain ⟨hlt, hwait, _⟩ := hw
    rw [getElem?_receive, Option.map_eq_some_iff] at hx
    obtain ⟨y, hy, rfl⟩ := hx
    by_cases hj : w = j
    · subst hj
      rw [List.getElem?_eq_getElem hlt] at hy
      cases hy
      exact .inr ⟨_, List.getElem?_eq_getElem hlt, hwait, by simp⟩
    · exact .inl (by simpa [hj] using hy)
  next hw => exact .inl hx

theorem serve_getElem?_of_not {k : Queue} (m : Message) {ws : List Waiter} {j : Nat} {x : Waiter}
    (hx : ws[j]? = some x) (hn : waitsIn k x = false) : (serve k m ws)[j]? = some x := by
  unfold serve
  split
  next w hw =>
    rw [List.findIdx?_eq_some_iff_getElem] at hw
    obtain ⟨hlt, hwait, _⟩ := hw
    have hne : w ≠ j := by
      rintro rfl
      rw [List.getElem?_eq_getElem hlt] at hx
      cases hx
      simp [hn] at hwait
    simp [hx, hne]
  next hw => exact hx

theorem Lists.serve_other {ws : List Waiter} {k k' : Queue} {q : List Nat} (m : Message)
    (h : Lists ws k' q) (hk : k' ≠ k) : Lists (serve k m ws) k' q := by
  refine ⟨h.sorted, ?_, ?_⟩
  · intro w hw
    obtain ⟨x, hx, hq, hr⟩ := h.own w hw
    exact ⟨x, serve_getElem?_of_not m hx (by simp [waitsIn, hq, hk]), hq, hr⟩
  · intro w x hx hwait
    rcases serve_getElem? k m ws w x hx with hx | ⟨y, _, _, rfl⟩
    · exact h.complete w x hx hwait
    · simp [not_waitsIn_receive] at hwait

theorem Lists.append_own {ws : List Waiter} {k : Queue} {q : List Nat} {x : Waiter}
    (h : Lists ws k q) (hk : x.place.queue = k) (hr : x.received = []) :
    Lists (ws ++ [x]) k (q ++ [ws.length]) := by
  have hlt (w : Nat) (hw : w ∈ q) : w < ws.length := by
    obtain ⟨y, hy, _⟩ := h.own w hw
    exact (List.getElem?_eq_some_iff.mp hy).1
  refine ⟨?_, ?_, ?_⟩
  · rw [List.pairwise_append]
    refine ⟨h.sorted, List.pairwise_singleton _ _, ?_⟩
    intro w hw j hj
    have hj' : j = ws.length := by simpa using hj
    exact hj' ▸ hlt w hw
  · intro w hw
    rcases List.mem_append.mp hw with hw | hw
    · obtain ⟨y, hy, hp⟩ := h.own w hw
      exact ⟨y, getElem?_snoc_of_some hy, hp⟩
    · have hw' : w = ws.length := by simpa using hw
      subst hw'
      exact ⟨x, List.getElem?_concat_length, hk, hr⟩
  · intro w y hy hwait
    rcases getElem?_snoc.mp hy with hold | ⟨rfl, _⟩
    · exact List.mem_append_left _ (h.complete w y hold hwait)
    · exact List.mem_append_right _ List.mem_cons_self

theorem Lists.append_other {ws : List Waiter} {k : Queue} {q : List Nat} {x : Waiter}
    (h : Lists ws k q) (hk : x.place.queue ≠ k) : Lists (ws ++ [x]) k q := by
  refine ⟨h.sorted, ?_, ?_⟩
  · intro w hw
    obtain ⟨y, hy, hp⟩ := h.own w hw
    exact ⟨y, getElem?_snoc_of_some hy, hp⟩
  · intro w y hy hwait
    rcases getElem?_snoc.mp hy with hold | ⟨_, rfl⟩
    · exact h.complete w y hold hwait
    · exact absurd ((waitsIn_iff _ _).mp hwait).1 hk

theorem Lists.expire {ws : List Waiter} {k : Queue} {q : List Nat} (h : Lists ws k q) (w : Nat) :
    Lists (ws.modify w Waiter.expired) k q := by
  refine ⟨h.sorted, ?_, ?_⟩
  · intro j hj
    obtain ⟨x, hx, hk, hr⟩ := h.own j hj
    rw [List.getElem?_modify]
    by_cases hw : w = j
    · exact ⟨x.expired, by simp [hx, hw], hk, hr⟩
    · exact ⟨x, by simp [hx, hw], hk, hr⟩
  · intro j x hx hwait
    rw [List.getElem?_modify] at hx
    cases hy : ws[j]? with
    | none => simp [hy] at hx
    | some y =>
        simp only [hy, Option.map_eq_map, Option.map_some, Option.some.injEq] at hx
        subst hx
        by_cases hw : w = j
        · simp [hw, waitsIn, Waiter.expired] at hwait
        · exact h.complete j y hy (by simpa [hw] using hwait)

def queue (s : Registry) : Queue → Option (List Nat)
  | .chat g u => find₂ s.someoneGroupMessage g u
  | .person u => s.someoneNeedMessage.lookup u

def mutex (s : Registry) : Queue → Option Unit
  | .chat g u => find₂ s.someoneGroupMessageMutex g u
  | .person u => s.someoneNeedMessageMutex.lookup u

/-- The maps agree with the waiters: every queue lists its waiters, is not
empty, and has its mutex. -/
structure Consistent (s : Registry) : Prop where
  listed : ∀ k, Lists s.waiters k ((queue s k).getD [])
  nonempty : ∀ k q, queue s k = some q → q ≠ []
  locked : ∀ k q, queue s k = some q → mutex s k = some ()

theorem Consistent.update {s t : Registry} (h : Consistent s) (k : Queue) (rest : List Nat)
    (hq : ∀ k', queue t k' = if k' = k then (if rest.isEmpty then none else some rest) else queue s k')
    (hm : ∀ k', mutex t k' = if k' = k then some () else mutex s k')
    (hk : Lists t.waiters k rest) (ho : ∀ k' q, k' ≠ k → Lists s.waiters k' q → Lists t.waiters k' q) :
    Consistent t := by
  refine ⟨?_, ?_, ?_⟩
  · intro k'
    rw [hq]
    by_cases hkk : k' = k
    · subst hkk
      cases rest with
      | nil => simpa using hk
      | cons w rest => simpa using hk
    · simpa [hkk] using ho k' _ hkk (h.listed k')
  · intro k' q hkq
    rw [hq] at hkq
    by_cases hkk : k' = k
    · cases rest with
      | nil => simp [hkk] at hkq
      | cons w rest =>
          simp only [hkk, if_true, List.isEmpty_cons, Bool.false_eq_true, if_false, Option.some.injEq] at hkq
          subst hkq
          simp
    · exact h.nonempty k' q (by simpa [hkk] using hkq)
  · intro k' q hkq
    rw [hq] at hkq
    rw [hm]
    by_cases hkk : k' = k
    · simp [hkk]
    · simpa [hkk] using h.locked k' q (by simpa [hkk] using hkq)

theorem queue_storeRest₂ (m : FiniteMap GId (FiniteMap QId (List Nat))) (g g' : GId) (u u' : QId)
    (rest : List Nat) : find₂ (storeRest₂ m g u rest) g' u' =
      if g' = g ∧ u' = u then (if rest.isEmpty then none else some rest) else find₂ m g' u' := by
  cases rest with
  | nil => simp [storeRest₂, find₂_erase₂]
  | cons w rest => simp [storeRest₂, find₂_insert₂]

theorem queue_storeRest (m : FiniteMap QId (List Nat)) (u u' : QId) (rest : List Nat) :
    (storeRest m u rest).lookup u' =
      if u' = u then (if rest.isEmpty then none else some rest) else m.lookup u' := by
  cases rest with
  | nil => simp [storeRest, lookup_erase_eq]
  | cons w rest => simp [storeRest, lookup_insert_eq]

theorem row_storeRest₂ (m : FiniteMap GId (FiniteMap QId (List Nat))) {g g' : GId} (u : QId)
    (rest : List Nat) (hg : g' ≠ g) : (storeRest₂ m g u rest).lookup g' = m.lookup g' := by
  cases rest with
  | nil =>
      cases hm : m.lookup g <;> simp [storeRest₂, erase₂, hm, hg]
  | cons w rest => simp [storeRest₂, insert₂, hg]

theorem queue_waitForNextMessage (s : Registry) (g : Option GId) (u : QId) (k : Queue) :
    queue (s.waitForNextMessage g u) k = if k = .chat (g.getD 0) u then
      some ((queue s (.chat (g.getD 0) u)).getD [] ++ [s.waiters.length]) else queue s k := by
  cases k <;> simp [queue, Registry.waitForNextMessage, find₂_insert₂]

theorem consistent_waitForNextMessage {s : Registry} (h : Consistent s) (g : Option GId) (u : QId) :
    Consistent (s.waitForNextMessage g u) := by
  apply h.update (.chat (g.getD 0) u)
    ((queue s (.chat (g.getD 0) u)).getD [] ++ [s.waiters.length])
  · intro k'
    simp [queue_waitForNextMessage]
  · intro k'
    cases k' <;> simp [mutex, Registry.waitForNextMessage, find₂_insert₂]
  · exact (h.listed _).append_own rfl rfl
  · exact fun k' q hk hl => hl.append_other (Ne.symm hk)

theorem queue_expire (s : Registry) (w : Nat) (k : Queue) : queue (s.expire w) k = queue s k := by
  cases k <;> rfl

theorem consistent_waitForNextMessageFrom {s : Registry} (h : Consistent s) (u : QId) :
    Consistent (s.waitForNextMessageFrom u) := by
  apply h.update (.person u) ((queue s (.person u)).getD [] ++ [s.waiters.length])
  · intro k'
    cases k' <;> simp [queue, Registry.waitForNextMessageFrom, lookup_insert_eq]
  · intro k'
    cases k' <;> simp [mutex, Registry.waitForNextMessageFrom, lookup_insert_eq]
  · exact (h.listed _).append_own rfl rfl
  · exact fun k' q hk hl => hl.append_other (Ne.symm hk)

theorem consistent_expire {s : Registry} (h : Consistent s) (w : Nat) : Consistent (s.expire w) := by
  refine ⟨fun k => ?_, fun k q hq => ?_, fun k q hq => ?_⟩
  · rw [queue_expire]
    exact (h.listed k).expire w
  · rw [queue_expire] at hq
    exact h.nonempty k q hq
  · rw [queue_expire] at hq
    have hm := h.locked k q hq
    cases k <;> exact hm

def afterLoop (s : Registry) (g : GId) (u : QId) (m : Message) (q : List Nat) : Registry :=
  { s with
    waiters := (popping s.waiters m q).1
    someoneGroupMessage := storeRest₂ s.someoneGroupMessage g u (popping s.waiters m q).2 }

theorem feedLoop_eq {s : Registry} (h : Consistent s) {g : GId} {u : QId} {q : List Nat} (m : Message)
    (hq : queue s (.chat g u) = some q) : s.feedLoop g u m = .ok (afterLoop s g u m q) := by
  have hm := h.locked _ q hq
  simp only [queue] at hq
  simp only [mutex] at hm
  simp [Registry.feedLoop, hm, hq, mapAt, afterLoop, pure, Except.pure]

theorem queue_afterLoop (s : Registry) (g : GId) (u : QId) (m : Message) (q : List Nat) (k : Queue) :
    queue (afterLoop s g u m q) k = if k = .chat g u then
      (if (popping s.waiters m q).2.isEmpty then none else some (popping s.waiters m q).2)
      else queue s k := by
  cases k <;> simp [queue, afterLoop, queue_storeRest₂]

theorem consistent_afterLoop {s : Registry} (h : Consistent s) {g : GId} {u : QId} {q : List Nat}
    (m : Message) (hq : queue s (.chat g u) = some q) :
    (afterLoop s g u m q).waiters = serve (.chat g u) m s.waiters ∧ Consistent (afterLoop s g u m q) := by
  have hl : Lists s.waiters (.chat g u) q := by simpa [hq] using h.listed (.chat g u)
  obtain ⟨hserve, hrest⟩ := popping_serves m hl
  refine ⟨hserve, h.update _ _ (queue_afterLoop s g u m q) ?_ hrest ?_⟩
  · intro k'
    have hm := h.locked _ q hq
    by_cases hk : k' = .chat g u
    · simpa [hk, mutex, afterLoop] using hm
    · cases k' <;> simp [hk, mutex, afterLoop]
  · intro k' q' hk hl'
    rw [show (afterLoop s g u m q).waiters = serve (.chat g u) m s.waiters from hserve]
    exact hl'.serve_other m hk

theorem queue_eraseGroup {s : Registry} {g : GId} (hg : ∀ u, queue s (.chat g u) = none) (k : Queue) :
    queue (s.eraseGroup g) k = queue s k := by
  cases k with
  | person u => rfl
  | chat g' u =>
      simp only [queue] at hg
      by_cases hgg : g' = g
      · subst hgg
        simp [queue, Registry.eraseGroup, find₂_erase, hg]
      · simp [queue, Registry.eraseGroup, find₂_erase, hgg]

theorem consistent_eraseGroup {s : Registry} (h : Consistent s) {g : GId}
    (hg : ∀ u, queue s (.chat g u) = none) : Consistent (s.eraseGroup g) := by
  refine ⟨fun k => ?_, fun k q hq => ?_, fun k q hq => ?_⟩
  · rw [queue_eraseGroup hg]
    exact h.listed k
  · rw [queue_eraseGroup hg] at hq
    exact h.nonempty k q hq
  · rw [queue_eraseGroup hg] at hq
    have hm := h.locked k q hq
    cases k <;> exact hm

def NoEmptyGroup (s : Registry) : Prop :=
  ∀ g users, s.someoneGroupMessage.lookup g = some users → isEmpty users = false

theorem queue_of_row {s : Registry} {g : GId} {users : FiniteMap QId (List Nat)}
    (hg : s.someoneGroupMessage.lookup g = some users) (u : QId) :
    queue s (.chat g u) = users.lookup u := by
  simp [queue, find₂, hg]

theorem feedMessage_serves {s : Registry} (h : Consistent s) (hn : NoEmptyGroup s) {g : GId} {u : QId}
    (m : Message) (hneed : s.isNeedMessage g u = true) :
    ∃ t, s.feedMessage g u m = .ok t ∧ t.waiters = serve (.chat g u) m s.waiters ∧
      Consistent t ∧ NoEmptyGroup t := by
  obtain ⟨q, hq⟩ := Option.isSome_iff_exists.mp hneed
  obtain ⟨hserve, hcons⟩ := consistent_afterLoop h m hq
  have hrow : ∃ users, (afterLoop s g u m q).someoneGroupMessage.lookup g = some users := by
    simp only [find₂, Option.bind_eq_some_iff] at hq
    obtain ⟨row, hrow, _⟩ := hq
    simp only [afterLoop, storeRest₂]
    split
    · exact ⟨_, by simp [erase₂, hrow]; rfl⟩
    · exact ⟨_, by simp [insert₂]; rfl⟩
  obtain ⟨users, husers⟩ := hrow
  have hothers : ∀ g' users, g' ≠ g → (afterLoop s g u m q).someoneGroupMessage.lookup g' = some users →
      isEmpty users = false := by
    intro g' users' hg' hl
    rw [afterLoop, row_storeRest₂ _ _ _ hg'] at hl
    exact hn g' users' hl
  cases he : isEmpty users with
  | true =>
      refine ⟨(afterLoop s g u m q).eraseGroup g, ?_, hserve, ?_, ?_⟩
      · simp [Registry.feedMessage, feedLoop_eq h m hq, Registry.groupEmpty, husers, mapAt, he,
          pure, Except.pure]
      · apply consistent_eraseGroup hcons
        intro u'
        rw [queue_of_row husers]
        exact (isEmpty_iff users).mp he u'
      · intro g' users' hl
        simp only [Registry.eraseGroup, lookup_erase_eq] at hl
        split at hl
        · cases hl
        next hg' => exact hothers g' users' hg' hl
  | false =>
      refine ⟨afterLoop s g u m q, ?_, hserve, hcons, ?_⟩
      · simp [Registry.feedMessage, feedLoop_eq h m hq, Registry.groupEmpty, husers, mapAt, he,
          pure, Except.pure]
      · intro g' users' hl
        by_cases hg' : g' = g
        · subst hg'
          rw [husers] at hl
          cases hl
          exact he
        · exact hothers g' users' hg' hl

theorem feedMessageTo_serves {s : Registry} (h : Consistent s) (hn : NoEmptyGroup s) {u : QId}
    (m : Message) (hneed : s.isSomeOneNeedMessage u = true) :
    ∃ t, s.feedMessageTo u m = .ok t ∧ t.waiters = serve (.person u) m s.waiters ∧
      Consistent t ∧ NoEmptyGroup t := by
  obtain ⟨q, hq⟩ := Option.isSome_iff_exists.mp hneed
  have hm : s.someoneNeedMessageMutex.lookup u = some () := h.locked (.person u) q hq
  have hl : Lists s.waiters (.person u) q := by
    have := h.listed (.person u)
    rwa [show queue s (.person u) = some q from hq] at this
  obtain ⟨hserve, hrest⟩ := popping_serves m hl
  refine ⟨{ s with
      waiters := (popping s.waiters m q).1
      someoneNeedMessage := storeRest s.someoneNeedMessage u (popping s.waiters m q).2 },
    by simp [Registry.feedMessageTo, hm, hq, mapAt, pure, Except.pure], hserve, ?_, hn⟩
  apply h.update (.person u) (popping s.waiters m q).2
  · intro k'
    cases k' <;> simp [queue, queue_storeRest]
  · intro k'
    by_cases hk : k' = .person u
    · simpa [hk, mutex] using hm
    · cases k' <;> simp [hk, mutex]
  · exact hrest
  · intro k' q' hk hl'
    simp only [hserve]
    exact hl'.serve_other m hk

theorem serve_of_queue_none {s : Registry} (h : Consistent s) {k : Queue} (m : Message)
    (hk : queue s k = none) : serve k m s.waiters = s.waiters := by
  have hl := h.listed k
  rw [hk] at hl
  exact (popping_serves m hl).1.symm

theorem feedChat_serves {s : Registry} (h : Consistent s) (hn : NoEmptyGroup s) (m : Message) :
    ∃ t, s.feedChat m.userId m.groupId (.ok m.message) = .ok t ∧
      t.waiters = serve (.chat m.key m.userId) m s.waiters ∧ Consistent t ∧ NoEmptyGroup t := by
  rw [Registry.feedChat, ← Message.key]
  cases hneed : s.isNeedMessage m.key m.userId with
  | true => simpa using feedMessage_serves h hn m hneed
  | false =>
      have hq : queue s (.chat m.key m.userId) = none := by
        simpa [Registry.isNeedMessage, queue] using hneed
      exact ⟨s, rfl, (serve_of_queue_none h m hq).symm, h, hn⟩

theorem feedPerson_serves {s : Registry} (h : Consistent s) (hn : NoEmptyGroup s) (m : Message) :
    ∃ t, s.feedPerson m.userId m.groupId (.ok m.message) = .ok t ∧
      t.waiters = serve (.person m.userId) m s.waiters ∧ Consistent t ∧ NoEmptyGroup t := by
  rw [Registry.feedPerson]
  cases hneed : s.isSomeOneNeedMessage m.userId with
  | true => simpa using feedMessageTo_serves h hn m hneed
  | false =>
      have hq : queue s (.person m.userId) = none := by
        simpa [Registry.isSomeOneNeedMessage, queue] using hneed
      exact ⟨s, rfl, (serve_of_queue_none h m hq).symm, h, hn⟩

theorem eventProcess_serves {s : Registry} (h : Consistent s) (hn : NoEmptyGroup s) (m : Message) :
    ∃ t, s.eventProcess m = .ok t ∧
      t.waiters = serve (.person m.userId) m (serve (.chat m.key m.userId) m s.waiters) ∧
      Consistent t ∧ NoEmptyGroup t := by
  obtain ⟨t, ht, hw, hc, hg⟩ := feedChat_serves h hn m
  obtain ⟨u, hu, hw', hc', hg'⟩ := feedPerson_serves hc hg m
  exact ⟨u, by rw [Registry.eventProcess, Registry.feed, ht, ok_bind, hu], by rw [hw', hw], hc', hg'⟩

inductive Action
  | waitForNextMessage (groupId : Option GId) (userId : QId)
  | waitForNextMessageFrom (person : QId)
  | expire (w : Nat)
  | message (m : Message)

def step (s : Registry) : Action → Outcome Registry
  | .waitForNextMessage g u => .ok (s.waitForNextMessage g u)
  | .waitForNextMessageFrom u => .ok (s.waitForNextMessageFrom u)
  | .expire w => .ok (s.expire w)
  | .message m => s.eventProcess m

def exec (s : Registry) : List Action → Outcome Registry
  | [] => .ok s
  | a :: as => do exec (← step s a) as

/-- Groups have ids other than zero, the key of the private chats. -/
def Action.NonZero : Action → Prop
  | .waitForNextMessage g _ => g ≠ some 0
  | .message m => m.groupId ≠ some 0
  | _ => True

def Takes : Place → Message → Prop
  | .chat g u, m => m.userId = u ∧ m.groupId = g
  | .person u, m => m.userId = u

structure Fair (ws : List Waiter) : Prop where
  once : ∀ x ∈ ws, x.received.length ≤ 1
  own : ∀ x ∈ ws, ∀ m ∈ x.received, Takes x.place m
  nonzero : ∀ x ∈ ws, ∀ u, x.place ≠ .chat (some 0) u

theorem getD_zero_inj {g g' : Option GId} (hg : g ≠ some 0) (hg' : g' ≠ some 0)
    (h : g.getD 0 = g'.getD 0) : g = g' := by
  cases g <;> cases g' <;> simp_all

theorem takes_of_queue {p : Place} {m : Message} (hp : ∀ u, p ≠ .chat (some 0) u)
    (hm : m.groupId ≠ some 0)
    (hk : p.queue = .chat m.key m.userId ∨ p.queue = .person m.userId) : Takes p m := by
  cases p with
  | chat g u =>
      simp only [Place.queue, Message.key, Queue.chat.injEq, reduceCtorEq, or_false] at hk
      have hg : g ≠ some 0 := fun he => hp u (by rw [he])
      exact ⟨hk.2.symm, getD_zero_inj hm hg hk.1.symm⟩
  | person u =>
      simp only [Place.queue, Queue.person.injEq, reduceCtorEq, false_or] at hk
      exact hk.symm

theorem Fair.serve {ws : List Waiter} (h : Fair ws) {k : Queue} {m : Message}
    (hm : m.groupId ≠ some 0) (hk : k = .chat m.key m.userId ∨ k = .person m.userId) :
    Fair (serve k m ws) := by
  have hx (x : Waiter) (hx : x ∈ WaiterDelivery.serve k m ws) :
      x ∈ ws ∨ ∃ y ∈ ws, waitsIn k y = true ∧ x = y.receive m := by
    obtain ⟨j, hj⟩ := List.mem_iff_getElem?.mp hx
    rcases serve_getElem? k m ws j x hj with hj | ⟨y, hy, hwait, rfl⟩
    · exact .inl (List.mem_of_getElem? hj)
    · exact .inr ⟨y, List.mem_of_getElem? hy, hwait, rfl⟩
  refine ⟨fun x hmem => ?_, fun x hmem => ?_, fun x hmem => ?_⟩
  · rcases hx x hmem with hmem | ⟨y, hy, hwait, rfl⟩
    · exact h.once x hmem
    · simp [Waiter.receive, ((waitsIn_iff _ _).mp hwait).2.2]
  · rcases hx x hmem with hmem | ⟨y, hy, hwait, rfl⟩
    · exact h.own x hmem
    · obtain ⟨hq, _, hr⟩ := (waitsIn_iff _ _).mp hwait
      intro m' hm'
      have hm'' : m' = m := by simpa [Waiter.receive, hr] using hm'
      subst hm''
      exact takes_of_queue (h.nonzero y hy) hm (hq ▸ hk)
  · rcases hx x hmem with hmem | ⟨y, hy, hwait, rfl⟩
    · exact h.nonzero x hmem
    · exact h.nonzero y hy

theorem Fair.append {ws : List Waiter} (h : Fair ws) {p : Place} (hp : ∀ u, p ≠ .chat (some 0) u) :
    Fair (ws ++ [⟨p, true, []⟩]) := by
  have hx (x : Waiter) (hx : x ∈ ws ++ [⟨p, true, []⟩]) : x ∈ ws ∨ x = ⟨p, true, []⟩ := by
    simpa using hx
  refine ⟨fun x hmem => ?_, fun x hmem => ?_, fun x hmem => ?_⟩
  · rcases hx x hmem with hmem | rfl
    · exact h.once x hmem
    · simp
  · rcases hx x hmem with hmem | rfl
    · exact h.own x hmem
    · simp
  · rcases hx x hmem with hmem | rfl
    · exact h.nonzero x hmem
    · exact hp

theorem Fair.expire {ws : List Waiter} (h : Fair ws) (w : Nat) : Fair (ws.modify w Waiter.expired) := by
  have hx (x : Waiter) (hx : x ∈ ws.modify w Waiter.expired) :
      ∃ y ∈ ws, x.place = y.place ∧ x.received = y.received := by
    obtain ⟨j, hj⟩ := List.mem_iff_getElem?.mp hx
    rw [List.getElem?_modify] at hj
    cases hy : ws[j]? with
    | none => simp [hy] at hj
    | some y =>
        simp only [hy, Option.map_eq_map, Option.map_some, Option.some.injEq] at hj
        refine ⟨y, List.mem_of_getElem? hy, ?_⟩
        subst hj
        split <;> exact ⟨rfl, rfl⟩
  refine ⟨fun x hmem => ?_, fun x hmem => ?_, fun x hmem => ?_⟩ <;>
    obtain ⟨y, hy, hp, hr⟩ := hx x hmem
  · exact hr ▸ h.once y hy
  · rw [hp, hr]
    exact h.own y hy
  · rw [hp]
    exact h.nonzero y hy

structure Good (s : Registry) : Prop where
  consistent : Consistent s
  groups : NoEmptyGroup s
  fair : Fair s.waiters

theorem good_empty : Good .empty := by
  refine ⟨⟨fun k => ?_, fun k q hq => ?_, fun k q hq => ?_⟩, fun g users hl => ?_, ?_⟩
  · have hq : queue .empty k = none := by cases k <;> rfl
    rw [hq]
    exact ⟨List.Pairwise.nil, by simp, by simp [Registry.empty]⟩
  · cases k <;> simp [queue, Registry.empty, find₂] at hq
  · cases k <;> simp [queue, Registry.empty, find₂] at hq
  · simp [Registry.empty] at hl
  · exact ⟨by simp [Registry.empty], by simp [Registry.empty], by simp [Registry.empty]⟩

theorem noEmptyGroup_waitForNextMessage {s : Registry} (h : NoEmptyGroup s) (g : Option GId) (u : QId) :
    NoEmptyGroup (s.waitForNextMessage g u) := by
  intro g' users hl
  simp only [Registry.waitForNextMessage, insert₂, lookup_insert_eq] at hl
  split at hl
  · simp only [Option.some.injEq] at hl
    subst hl
    rfl
  · exact h g' users hl

theorem Good.step {s : Registry} (h : Good s) {a : Action} (ha : a.NonZero) :
    ∃ t, step s a = .ok t ∧ Good t := by
  cases a with
  | waitForNextMessage g u =>
      refine ⟨_, rfl, consistent_waitForNextMessage h.consistent g u,
        noEmptyGroup_waitForNextMessage h.groups g u, h.fair.append ?_⟩
      intro u' he
      simp only [Place.chat.injEq] at he
      exact ha he.1
  | waitForNextMessageFrom u =>
      exact ⟨_, rfl, consistent_waitForNextMessageFrom h.consistent u, h.groups, h.fair.append (by simp)⟩
  | expire w => exact ⟨_, rfl, consistent_expire h.consistent w, h.groups, h.fair.expire w⟩
  | message m =>
      obtain ⟨t, ht, hw, hc, hg⟩ := eventProcess_serves h.consistent h.groups m
      refine ⟨t, ht, hc, hg, ?_⟩
      rw [hw]
      exact (h.fair.serve ha (.inl rfl)).serve ha (.inr rfl)

theorem Good.exec {s : Registry} (h : Good s) {as : List Action} (has : ∀ a ∈ as, a.NonZero) :
    ∃ t, exec s as = .ok t ∧ Good t := by
  induction as generalizing s with
  | nil => exact ⟨s, rfl, h⟩
  | cons a as ih =>
      obtain ⟨t, ht, hg⟩ := h.step (has a (by simp))
      obtain ⟨u, hu, hgu⟩ := ih hg (fun b hb => has b (List.mem_cons_of_mem _ hb))
      exact ⟨u, by simp [WaiterDelivery.exec, ht, hu], hgu⟩

end MigangBot.WaiterDelivery
