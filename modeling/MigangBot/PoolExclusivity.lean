import MigangBot.ConnectionPools
import MigangBot.Lib.Runs

namespace MigangBot.PoolExclusivity

open Lib.Exceptions Lib.Leases Lib.Maps Lib.Runs ConnectionPools

/-- The id whose entry a client has taken out of the map and not yet put back. -/
def replacing : Client → Option Nat
  | .erased id | .freed id | .reconnected id => some id
  | _ => none

section Statement

variable {κ : Type}

def Listed (s : System κ) (id : Nat) : Prop := ∀ c, replacing (s.clients c) ≠ some id

def ledger (s : System κ) : Ledger κ Nat := ⟨s.pool.connIdQueue, fun c => (s.clients c).id⟩

/-- What a client may rely on: its connection is its own and alive, the queue and
the clients share out the ids, the map inverts the vector wherever no connection
is being replaced, and what is given back is what was taken. -/
structure Exclusive (n : Nat) (s : System κ) : Prop where
  alone : ∀ c c' id id' conn, s.clients c = .holding id conn → s.clients c' = .holding id' conn → c = c'
  own : ∀ c id conn, s.clients c = .holding id conn →
    s.pool.connPool[id]? = some conn ∧ conn ∈ s.pool.live
  shared : (ledger s).Exact (· < n)
  inverse : ∀ conn id, s.pool.connToId.lookup conn = some id ↔
    s.pool.connPool[id]? = some conn ∧ Listed s id
  returned : ∀ c id found, s.clients c = .releasing id found → found = id

end Statement

section Wiring

/-- The map and the vector of a pool, where an id is listed unless its entry is
out of the map, and standing unless its context is freed. -/
structure Wired (p : Pool) (listed standing : Nat → Prop) : Prop where
  entries : ∀ conn id, p.connToId.lookup conn = some id ↔ p.connPool[id]? = some conn ∧ listed id
  stands : ∀ id, listed id → standing id
  live : ∀ id conn, p.connPool[id]? = some conn → standing id → conn ∈ p.live
  distinct : ∀ id id' conn, p.connPool[id]? = some conn → p.connPool[id']? = some conn →
    standing id → standing id' → id = id'

variable {p : Pool} {listed standing listed' standing' : Nat → Prop} {id conn : Nat}

theorem Wired.congr (h : Wired p listed standing) (hl : ∀ j, listed' j ↔ listed j)
    (hs : ∀ j, standing' j ↔ standing j) : Wired p listed' standing' := by
  have hl := funext fun j => propext (hl j)
  have hs := funext fun j => propext (hs j)
  exact hl ▸ hs ▸ h

theorem Wired.erase (h : Wired p listed standing) (hconn : p.connPool[id]? = some conn) (hs : standing id) :
    Wired { p with connToId := p.connToId.erase conn } (fun j => listed j ∧ j ≠ id) standing := by
  refine ⟨fun a j => ?_, fun j hj => h.stands j hj.1, h.live, h.distinct⟩
  simp only [lookup_erase_eq]
  constructor
  · intro hl
    split at hl
    · cases hl
    next hne =>
      obtain ⟨hj, hl⟩ := (h.entries a j).mp hl
      refine ⟨hj, hl, ?_⟩
      rintro rfl
      exact hne (Option.some.inj (hj.symm.trans hconn))
  · rintro ⟨hj, hl, hne⟩
    rw [if_neg]
    · exact (h.entries a j).mpr ⟨hj, hl⟩
    · rintro rfl
      exact hne (h.distinct j id a hj hconn (h.stands j hl) hs)

theorem Wired.free (h : Wired p listed standing) (hconn : p.connPool[id]? = some conn) (hs : standing id)
    (hl : ¬ listed id) :
    Wired { p with live := p.live.filter (fun a => a != conn) } listed (fun j => standing j ∧ j ≠ id) := by
  refine ⟨h.entries, fun j hj => ⟨h.stands j hj, ?_⟩, fun j a hj hsj => ?_,
    fun i j a hi hj hsi hsj => h.distinct i j a hi hj hsi.1 hsj.1⟩
  · rintro rfl
    exact hl hj
  · refine List.mem_filter.mpr ⟨h.live j a hj hsj.1, ?_⟩
    rw [bne_iff_ne]
    rintro rfl
    exact hsj.2 (h.distinct j id a hj hconn hsj.1 hs)

theorem Wired.reconnect (h : Wired p listed standing) (hid : id < p.connPool.length) (hnew : conn ∉ p.live)
    (hl : ¬ listed id) (hs : ¬ standing id) :
    Wired { p with connPool := p.connPool.set id conn, live := conn :: p.live } listed
      (fun j => standing j ∨ j = id) := by
  have hset {j a : Nat} : (p.connPool.set id conn)[j]? = some a ↔
      j = id ∧ a = conn ∨ j ≠ id ∧ p.connPool[j]? = some a := by
    by_cases hj : j = id
    · subst hj
      simp [List.getElem?_set_self hid, eq_comm]
    · simp [List.getElem?_set_ne (Ne.symm hj), hj]
  refine ⟨fun a j => ?_, fun j hj => .inl (h.stands j hj), fun j a hj hsj => ?_, fun i j a hi hj hsi hsj => ?_⟩
  · rw [hset]
    constructor
    · intro ha
      obtain ⟨hj, hlj⟩ := (h.entries a j).mp ha
      refine ⟨.inr ⟨?_, hj⟩, hlj⟩
      rintro rfl
      exact hl hlj
    · rintro ⟨⟨rfl, -⟩ | ⟨-, hj⟩, hlj⟩
      · exact absurd hlj hl
      · exact (h.entries a j).mpr ⟨hj, hlj⟩
  · rcases hset.mp hj with ⟨rfl, rfl⟩ | ⟨hne, hj⟩
    · exact List.mem_cons_self
    · exact List.mem_cons_of_mem _ (h.live j a hj (hsj.resolve_right hne))
  · rcases hset.mp hi with ⟨hi', rfl⟩ | ⟨hi', ha⟩ <;> rcases hset.mp hj with ⟨hj', hb⟩ | ⟨hj', hb⟩
    · exact hi'.trans hj'.symm
    · exact absurd (h.live j a hb (hsj.resolve_right hj')) hnew
    · exact absurd (hb ▸ h.live i a ha (hsi.resolve_right hi')) hnew
    · exact h.distinct i j a ha hb (hsi.resolve_right hi') (hsj.resolve_right hj')

theorem Wired.relist (h : Wired p listed standing) (hconn : p.connPool[id]? = some conn) (hs : standing id)
    (hl : ¬ listed id) :
    Wired { p with connToId := emplace p.connToId conn id } (fun j => listed j ∨ j = id) standing := by
  have hfresh : p.connToId.lookup conn = none := by
    cases hj : p.connToId.lookup conn with
    | none => rfl
    | some j =>
        obtain ⟨hj, hlj⟩ := (h.entries conn j).mp hj
        have := h.distinct j id conn hj hconn (h.stands j hlj) hs
        exact absurd (this ▸ hlj) hl
  refine ⟨fun a j => ?_, fun j hj => ?_, h.live, h.distinct⟩
  · simp only [emplace_new id hfresh, lookup_insert_eq]
    constructor
    · intro ha
      split at ha
      next hac =>
        cases ha
        exact ⟨hac ▸ hconn, .inr rfl⟩
      next hac =>
        obtain ⟨hj, hlj⟩ := (h.entries a j).mp ha
        exact ⟨hj, .inl hlj⟩
    · rintro ⟨hj, hlj | rfl⟩
      · have ha := (h.entries a j).mpr ⟨hj, hlj⟩
        rw [if_neg, ha]
        rintro rfl
        cases ha.symm.trans hfresh
      · rw [if_pos (Option.some.inj (hj.symm.trans hconn))]
  · rcases hj with hj | rfl
    · exact h.stands j hj
    · exact hs

end Wiring

section Invariant

variable {κ : Type}

def Standing (s : System κ) (id : Nat) : Prop := ∀ c, s.clients c ≠ .freed id

structure Inv (n : Nat) (s : System κ) : Prop where
  length : s.pool.connPool.length = n
  shared : (ledger s).Exact (· < n)
  wired : Wired s.pool (Listed s) (Standing s)
  holding : ∀ c id conn, s.clients c = .holding id conn → s.pool.connPool[id]? = some conn
  releasing : ∀ c id found, s.clients c = .releasing id found → found = id

theorem id_of_replacing {x : Client} {id : Nat} (h : replacing x = some id) : x.id = some id := by
  cases x <;> first | exact h | cases h

variable {s : System κ} {n : Nat} {c : κ} {p : Pool} {x : Client} {id : Nat}

theorem Inv.conn (h : Inv n s) (hid : (s.clients c).id = some id) :
    ∃ conn, s.pool.connPool[id]? = some conn := by
  have hlt := (h.shared.all id).mpr (.inr ⟨c, hid⟩)
  rw [← h.length] at hlt
  exact ⟨_, List.getElem?_eq_getElem hlt⟩

theorem Inv.others (h : Inv n s) (hid : (s.clients c).id = some id) {c' : κ} (hne : c' ≠ c) :
    (s.clients c').id ≠ some id :=
  fun hc => hne (h.shared.exclusive c' c id hc hid)

theorem Inv.listed_iff (h : Inv n s) (hid : (s.clients c).id = some id) :
    Listed s id ↔ replacing (s.clients c) ≠ some id := by
  refine ⟨fun hl => hl c, fun hc c' hr => ?_⟩
  by_cases hcc : c' = c
  · exact hc (hcc ▸ hr)
  · exact h.others hid hcc (id_of_replacing hr)

theorem Inv.standing_iff (h : Inv n s) (hid : (s.clients c).id = some id) :
    Standing s id ↔ s.clients c ≠ .freed id := by
  refine ⟨fun hs => hs c, fun hc c' hf => ?_⟩
  by_cases hcc : c' = c
  · exact hc (hcc ▸ hf)
  · exact h.others hid hcc (by rw [hf]; rfl)

/-- The context of an id that a client holds can be read, except between
redisFree and redisConnect. -/
theorem Inv.reads (h : Inv n s) (hid : (s.clients c).id = some id) (hc : s.clients c ≠ .freed id) :
    ∃ conn, s.pool.connPool[id]? = some conn ∧ conn ∈ s.pool.live := by
  obtain ⟨conn, hconn⟩ := h.conn hid
  exact ⟨conn, hconn, h.wired.live id conn hconn ((h.standing_iff hid).mpr hc)⟩

theorem Inv.exclusive (h : Inv n s) : Exclusive n s where
  alone c c' id id' conn hc hc' := by
    have hid : (s.clients c).id = some id := by rw [hc]; rfl
    have hid' : (s.clients c').id = some id' := by rw [hc']; rfl
    have hs := (h.standing_iff hid).mpr (by rw [hc]; simp)
    have hs' := (h.standing_iff hid').mpr (by rw [hc']; simp)
    have := h.wired.distinct id id' conn (h.holding c id conn hc) (h.holding c' id' conn hc') hs hs'
    exact h.shared.exclusive c c' id hid (this ▸ hid')
  own c id conn hc := by
    have hid : (s.clients c).id = some id := by rw [hc]; rfl
    have hconn := h.holding c id conn hc
    obtain ⟨conn', hconn', hlive⟩ := h.reads hid (by simp [hc])
    cases hconn.symm.trans hconn'
    exact ⟨hconn, hlive⟩
  shared := h.shared
  inverse := h.wired.entries
  returned := h.releasing

variable [DecidableEq κ]

theorem clients_becomes {c' : κ} {y : Client} :
    (s.becomes c p x).clients c' = y ↔ c' = c ∧ x = y ∨ c' ≠ c ∧ s.clients c' = y := by
  by_cases h : c' = c
  · subst h
    simp [System.becomes]
  · simp [System.becomes, h]

theorem ledger_becomes (s : System κ) (c : κ) (p : Pool) (x : Client) :
    ledger (s.becomes c p x) = ⟨p.connIdQueue, Function.update (ledger s).held c x.id⟩ := by
  simp only [ledger, System.becomes, Ledger.mk.injEq, true_and]
  funext c'
  exact Function.apply_update (fun _ => Client.id) s.clients c x c'

theorem forall_becomes {P : Client → Prop} : (∀ c', P ((s.becomes c p x).clients c')) ↔
    P x ∧ ∀ c', c' ≠ c → P (s.clients c') :=
  Function.forall_update_iff s.clients (fun _ => P)

theorem listed_becomes (h : Inv n s) (hid : (s.clients c).id = some id) (hx : x.id = some id) (j : Nat) :
    Listed (s.becomes c p x) j ↔ if j = id then replacing x = none else Listed s j := by
  have hxr : replacing x = none ∨ replacing x = some id := by
    cases hr : replacing x with
    | none => exact .inl rfl
    | some i => exact .inr (by rw [← hx, id_of_replacing hr])
  rw [Listed, forall_becomes (P := fun y => replacing y ≠ some j)]
  by_cases hj : j = id
  · subst hj
    rw [if_pos rfl]
    constructor
    · exact fun hl => hxr.resolve_right hl.1
    · exact fun hl => ⟨by simp [hl], fun c' hne hr => h.others hid hne (id_of_replacing hr)⟩
  · rw [if_neg hj]
    have hne {y : Client} (hy : y.id = some id) : replacing y ≠ some j := by
      intro hr
      have := hy.symm.trans (id_of_replacing hr)
      exact hj (Option.some.inj this).symm
    constructor
    · intro hl c'
      by_cases hcc : c' = c
      · exact hne (hcc ▸ hid)
      · exact hl.2 c' hcc
    · exact fun hl => ⟨hne hx, fun c' _ => hl c'⟩

theorem standing_becomes (h : Inv n s) (hid : (s.clients c).id = some id) (hx : x.id = some id) (j : Nat) :
    Standing (s.becomes c p x) j ↔ if j = id then x ≠ .freed id else Standing s j := by
  rw [Standing, forall_becomes (P := fun y => y ≠ .freed j)]
  by_cases hj : j = id
  · subst hj
    rw [if_pos rfl]
    constructor
    · exact fun hs => hs.1
    · exact fun hs => ⟨hs, fun c' hne hf => h.others hid hne (by rw [hf]; rfl)⟩
  · rw [if_neg hj]
    have hne {y : Client} (hy : y.id = some id) : y ≠ .freed j := by
      rintro rfl
      exact hj (Option.some.inj hy)
    constructor
    · intro hs c'
      by_cases hcc : c' = c
      · exact hne (hcc ▸ hid)
      · exact hs.2 c' hcc
    · exact fun hs => ⟨hne hx, fun c' _ => hs c'⟩

/-- A step of a client that keeps its id, and of the vector touches at most the
place of that id. -/
theorem Inv.becomes (h : Inv n s) (hid : (s.clients c).id = some id) (hx : x.id = some id)
    (hq : p.connIdQueue = s.pool.connIdQueue) (hlen : p.connPool.length = s.pool.connPool.length)
    (hsame : ∀ j, j ≠ id → p.connPool[j]? = s.pool.connPool[j]?)
    (hw : Wired p (Listed (s.becomes c p x)) (Standing (s.becomes c p x)))
    (hholding : ∀ conn, x = .holding id conn → p.connPool[id]? = some conn)
    (hreleasing : ∀ found, x = .releasing id found → found = id) : Inv n (s.becomes c p x) := by
  refine ⟨hlen.trans h.length, ?_, hw, fun c' j conn hc' => ?_, fun c' j found hc' => ?_⟩
  · have hsame : ledger (s.becomes c p x) = ledger s := by
      rw [ledger_becomes, hq, hx, ← hid]
      exact congrArg (Ledger.mk _) (Function.update_eq_self c (ledger s).held)
    exact hsame ▸ h.shared
  · rcases clients_becomes.mp hc' with ⟨-, rfl⟩ | ⟨hne, hc'⟩
    · cases hx
      exact hholding conn rfl
    · refine (hsame j ?_).trans (h.holding c' j conn hc')
      rintro rfl
      exact h.others hid hne (by rw [hc']; rfl)
  · rcases clients_becomes.mp hc' with ⟨-, rfl⟩ | ⟨-, hc'⟩
    · cases hx
      exact hreleasing found rfl
    · exact h.releasing c' j found hc'

theorem Inv.rests (h : Inv n s) (hid : (s.clients c).id = some id) (hx : x.id = some id)
    (hold : replacing (s.clients c) = none) (hnew : replacing x = none)
    (hholding : ∀ conn, x = .holding id conn → s.pool.connPool[id]? = some conn)
    (hreleasing : ∀ found, x = .releasing id found → found = id) : Inv n (s.becomes c s.pool x) := by
  have hl : Listed s id := (h.listed_iff hid).mpr (by simp [hold])
  have hs : Standing s id := h.wired.stands id hl
  have hf : x ≠ .freed id := by
    rintro rfl
    cases hnew
  refine h.becomes hid hx rfl rfl (fun _ _ => rfl) (h.wired.congr (fun j => ?_) (fun j => ?_)) hholding hreleasing
  · rw [listed_becomes h hid hx]
    by_cases hj : j = id
    · simp [hj, hnew, hl]
    · simp [hj]
  · rw [standing_becomes h hid hx]
    by_cases hj : j = id
    · simp [hj, hf, hs]
    · simp [hj]

/-- A step of the queue: the client is not replacing its connection. -/
theorem Inv.requeued (h : Inv n s) {queue : List Nat} (hold : replacing (s.clients c) = none)
    (hnew : replacing x = none) (hholding : ∀ id conn, x ≠ .holding id conn)
    (hreleasing : ∀ id found, x ≠ .releasing id found)
    (hshared : (⟨queue, Function.update (ledger s).held c x.id⟩ : Ledger κ Nat).Exact (· < n)) :
    Inv n (s.becomes c { s.pool with connIdQueue := queue } x) := by
  have hw : Wired { s.pool with connIdQueue := queue } (Listed s) (Standing s) :=
    ⟨h.wired.entries, h.wired.stands, h.wired.live, h.wired.distinct⟩
  refine ⟨h.length, ?_, hw.congr (fun j => ?_) (fun j => ?_), fun c' j conn hc' => ?_, fun c' j found hc' => ?_⟩
  · rw [ledger_becomes]
    exact hshared
  · rw [Listed, forall_becomes (P := fun y => replacing y ≠ some j)]
    refine ⟨fun hl c' => ?_, fun hl => ⟨by simp [hnew], fun c' _ => hl c'⟩⟩
    by_cases hcc : c' = c
    · simp [hcc, hold]
    · exact hl.2 c' hcc
  · rw [Standing, forall_becomes (P := fun y => y ≠ .freed j)]
    have hne {y : Client} (hy : replacing y = none) : y ≠ .freed j := by
      rintro rfl
      cases hy
    refine ⟨fun hs c' => ?_, fun hs => ⟨hne hnew, fun c' _ => hs c'⟩⟩
    by_cases hcc : c' = c
    · exact hcc ▸ hne hold
    · exact hs.2 c' hcc
  · rcases clients_becomes.mp hc' with ⟨-, hx⟩ | ⟨-, hc'⟩
    · exact absurd hx (hholding j conn)
    · exact h.holding c' j conn hc'
  · rcases clients_becomes.mp hc' with ⟨-, hx⟩ | ⟨-, hc'⟩
    · exact absurd hx (hreleasing j found)
    · exact h.releasing c' j found hc'

theorem Inv.popped (h : Inv n s) (hc : s.clients c = .idle) {queue : List Nat}
    (hq : s.pool.connIdQueue = id :: queue) :
    Inv n (s.becomes c { s.pool with connIdQueue := queue } (.popped id)) := by
  refine h.requeued (by rw [hc]; rfl) rfl (by simp) (by simp) ?_
  have hnone : (ledger s).held c = none := by simp [ledger, hc, Client.id]
  exact h.shared.take hnone (Ledger.take_eq_some.mpr ⟨id, queue, hq, rfl⟩)

theorem Inv.pushed (h : Inv n s) (hc : s.clients c = .releasing id id) :
    Inv n (s.becomes c { s.pool with connIdQueue := s.pool.connIdQueue ++ [id] } .idle) := by
  refine h.requeued (by rw [hc]; rfl) rfl (by simp) (by simp) ?_
  have hheld : (ledger s).held c = some id := by simp [ledger, hc, Client.id]
  exact h.shared.give hheld

theorem Inv.erased (h : Inv n s) (hc : s.clients c = .broken id) :
    ∃ p, s.pool.eraseEntry id = .ok p ∧ Inv n (s.becomes c p (.erased id)) := by
  have hid : (s.clients c).id = some id := by rw [hc]; rfl
  obtain ⟨conn, hconn⟩ := h.conn hid
  have hs : Standing s id := (h.standing_iff hid).mpr (by simp [hc])
  refine ⟨{ s.pool with connToId := s.pool.connToId.erase conn }, ?_, ?_⟩
  · simp [Pool.eraseEntry, Pool.conn, hconn]
  · refine h.becomes hid rfl rfl rfl (fun _ _ => rfl)
      ((h.wired.erase hconn hs).congr (fun j => ?_) (fun j => ?_)) (by rintro _ ⟨⟩) (by rintro _ ⟨⟩)
    · rw [listed_becomes h hid rfl]
      by_cases hj : j = id <;> simp [hj, replacing]
    · rw [standing_becomes h hid rfl]
      by_cases hj : j = id <;> simp [hj, hs]

theorem Inv.freed (h : Inv n s) (hc : s.clients c = .erased id) :
    ∃ p, s.pool.redisFree id = .ok p ∧ Inv n (s.becomes c p (.freed id)) := by
  have hid : (s.clients c).id = some id := by rw [hc]; rfl
  obtain ⟨conn, hconn, hlive⟩ := h.reads hid (by simp [hc])
  have hs : Standing s id := (h.standing_iff hid).mpr (by simp [hc])
  have hl : ¬ Listed s id := by simp [h.listed_iff hid, hc, replacing]
  refine ⟨{ s.pool with live := s.pool.live.filter (fun a => a != conn) }, ?_, ?_⟩
  · simp [Pool.redisFree, Pool.conn, hconn, Pool.deref, hlive]
  · refine h.becomes hid rfl rfl rfl (fun _ _ => rfl)
      ((h.wired.free hconn hs hl).congr (fun j => ?_) (fun j => ?_)) (by rintro _ ⟨⟩) (by rintro _ ⟨⟩)
    · rw [listed_becomes h hid rfl]
      by_cases hj : j = id <;> simp [hj, hl, replacing]
    · rw [standing_becomes h hid rfl]
      by_cases hj : j = id <;> simp [hj]

theorem Inv.reconnected (h : Inv n s) (hc : s.clients c = .freed id) {conn : Nat} (hnew : conn ∉ s.pool.live) :
    ∃ p, s.pool.reconnect id (some (conn, false)) = .ok p ∧ Inv n (s.becomes c p (.reconnected id)) := by
  have hid : (s.clients c).id = some id := by rw [hc]; rfl
  have hs : ¬ Standing s id := by simp [h.standing_iff hid, hc]
  have hl : ¬ Listed s id := by simp [h.listed_iff hid, hc, replacing]
  have hlt : id < s.pool.connPool.length := by
    rw [h.length]
    exact (h.shared.all id).mpr (.inr ⟨c, hid⟩)
  refine ⟨_, rfl, h.becomes hid rfl rfl (List.length_set ..) (fun j hj => List.getElem?_set_ne (Ne.symm hj))
    ((h.wired.reconnect hlt hnew hl hs).congr (fun j => ?_) (fun j => ?_)) (by rintro _ ⟨⟩) (by rintro _ ⟨⟩)⟩
  · rw [listed_becomes h hid rfl]
    by_cases hj : j = id <;> simp [hj, hl, replacing]
  · rw [standing_becomes h hid rfl]
    by_cases hj : j = id <;> simp [hj]

theorem Inv.relisted (h : Inv n s) (hc : s.clients c = .reconnected id) :
    ∃ p, s.pool.emplaceEntry id = .ok p ∧ Inv n (s.becomes c p (.ready id)) := by
  have hid : (s.clients c).id = some id := by rw [hc]; rfl
  obtain ⟨conn, hconn⟩ := h.conn hid
  have hs : Standing s id := (h.standing_iff hid).mpr (by simp [hc])
  have hl : ¬ Listed s id := by simp [h.listed_iff hid, hc, replacing]
  refine ⟨{ s.pool with connToId := emplace s.pool.connToId conn id }, ?_, ?_⟩
  · simp [Pool.emplaceEntry, Pool.conn, hconn]
  · refine h.becomes hid rfl rfl rfl (fun _ _ => rfl)
      ((h.wired.relist hconn hs hl).congr (fun j => ?_) (fun j => ?_)) (by rintro _ ⟨⟩) (by rintro _ ⟨⟩)
    · rw [listed_becomes h hid rfl]
      by_cases hj : j = id <;> simp [hj, replacing]
    · rw [standing_becomes h hid rfl]
      by_cases hj : j = id <;> simp [hj, hs]

omit [DecidableEq κ] in
/-- Free finds the entry, so that operator[] enters none. -/
theorem Inv.found (h : Inv n s) {conn : Nat} (hc : s.clients c = .holding id conn) :
    s.pool.idOf conn = (id, s.pool) := by
  have hid : (s.clients c).id = some id := by rw [hc]; rfl
  have hl : Listed s id := (h.listed_iff hid).mpr (by simp [hc, replacing])
  have hentry := (h.wired.entries conn id).mpr ⟨h.holding c id conn hc, hl⟩
  rw [Pool.idOf, hentry, emplace_present 0 hentry, Option.getD_some]

/-- A client that takes a step keeps the invariant; the step is never a read of a
freed context. -/
theorem step_inv {kind : PoolKind} {r : Reading} {o : Text.Outcome (System κ)} (h : Inv n s)
    (hr : Reconnects s (c, r)) (hstep : step kind s c r = some o) : ∃ t, o = .ok t ∧ Inv n t := by
  rw [step] at hstep
  cases hc : s.clients c with
  | idle =>
      simp only [hc] at hstep
      cases hq : s.pool.connIdQueue with
      | nil => simp [hq] at hstep
      | cons id queue =>
          simp only [hq, Option.some.injEq] at hstep
          exact ⟨_, hstep.symm, h.popped hc hq⟩
  | popped id =>
      have hid : (s.clients c).id = some id := by rw [hc]; rfl
      obtain ⟨conn, hconn, hlive⟩ := h.reads hid (by simp [hc])
      have hready := h.rests (x := .ready id) hid rfl (by rw [hc]; rfl) rfl (by simp) (by simp)
      have hbroken := h.rests (x := .broken id) hid rfl (by rw [hc]; rfl) rfl (by simp) (by simp)
      simp only [hc, Option.some.injEq] at hstep
      cases kind with
      | connPool => exact ⟨_, hstep.symm, hready⟩
      | redisConnPool =>
          simp only [System.check, Pool.conn, hconn, Pool.deref, if_pos hlive, ok_bind] at hstep
          refine ⟨_, hstep.symm, ?_⟩
          cases r.err
          · exact hready
          · exact hbroken
  | broken id =>
      obtain ⟨p, hp, hinv⟩ := h.erased hc
      simp only [hc, hp, ok_bind, Option.some.injEq] at hstep
      exact ⟨_, hstep.symm, hinv⟩
  | erased id =>
      obtain ⟨p, hp, hinv⟩ := h.freed hc
      simp only [hc, hp, ok_bind, Option.some.injEq] at hstep
      exact ⟨_, hstep.symm, hinv⟩
  | freed id =>
      obtain ⟨conn, hreply, hnew⟩ := hr id hc
      change r.reply = some (conn, false) at hreply
      obtain ⟨p, hp, hinv⟩ := h.reconnected hc hnew
      simp only [hc, hreply, hp, ok_bind, Option.some.injEq] at hstep
      exact ⟨_, hstep.symm, hinv⟩
  | reconnected id =>
      obtain ⟨p, hp, hinv⟩ := h.relisted hc
      simp only [hc, hp, ok_bind, Option.some.injEq] at hstep
      exact ⟨_, hstep.symm, hinv⟩
  | ready id =>
      have hid : (s.clients c).id = some id := by rw [hc]; rfl
      obtain ⟨conn, hconn, hlive⟩ := h.reads hid (by simp [hc])
      simp only [hc, Pool.conn, hconn, Pool.deref, if_pos hlive, ok_bind, Option.some.injEq] at hstep
      refine ⟨_, hstep.symm, h.rests hid rfl (by rw [hc]; rfl) rfl ?_ (by simp)⟩
      intro a ha
      cases ha
      exact hconn
  | holding id conn =>
      have hid : (s.clients c).id = some id := by rw [hc]; rfl
      simp only [hc, h.found hc, Option.some.injEq] at hstep
      refine ⟨_, hstep.symm, h.rests hid rfl (by rw [hc]; rfl) rfl (by simp) ?_⟩
      intro found hfound
      cases hfound
      rfl
  | releasing id found =>
      cases h.releasing c id found hc
      simp only [hc, Option.some.injEq] at hstep
      exact ⟨_, hstep.symm, h.pushed hc⟩

theorem run_inv {kind : PoolKind} {as : List (κ × Reading)} {t : System κ} (h : Inv n s)
    (hrun : Run (Guarded (Step kind) Reconnects) s as t) : Inv n t := by
  refine hrun.invariant (Inv n) (fun s a t h hstep => ?_) h
  obtain ⟨u, hu, hinv⟩ := step_inv h hstep.1 hstep.2
  cases hu
  exact hinv

end Invariant

section Init

/-- The pool as Init has built it so far: every id listed, none in use. -/
structure Built (i : Nat) (p : Pool) : Prop where
  length : p.connPool.length = i
  queue : p.connIdQueue = List.range i
  wired : Wired p (fun _ => True) (fun _ => True)

theorem built_empty : Built 0 Pool.empty where
  length := rfl
  queue := rfl
  wired := ⟨by simp [Pool.empty], fun _ h => h, by simp [Pool.empty], by simp [Pool.empty]⟩

theorem Built.adopt {i : Nat} {p : Pool} {conn : Nat} (h : Built i p) (hnew : conn ∉ p.live) :
    Built (i + 1) (p.adopt conn i) := by
  have hlive {j a : Nat} (hj : p.connPool[j]? = some a) : a ∈ p.live := h.wired.live j a hj trivial
  have hget {j a : Nat} : (p.connPool ++ [conn])[j]? = some a ↔ p.connPool[j]? = some a ∨ j = i ∧ a = conn := by
    rw [List.getElem?_append, h.length]
    by_cases hj : j < i
    · simp [hj, Nat.ne_of_lt hj]
    · have hnone : p.connPool[j]? = none := List.getElem?_eq_none (by rw [h.length]; omega)
      rw [if_neg hj, List.getElem?_singleton, hnone]
      have hi : j - i = 0 ↔ j = i := by omega
      by_cases hji : j = i <;> simp [hi, hji, eq_comm]
  have hfresh : p.connToId.lookup conn = none := by
    cases hl : p.connToId.lookup conn with
    | none => rfl
    | some j =>
        have hj := (h.wired.entries conn j).mp hl
        exact absurd (hlive hj.1) hnew
  refine ⟨by simp [Pool.adopt, h.length], by simp [Pool.adopt, h.queue, List.range_succ], ?_⟩
  refine ⟨fun a j => ?_, fun _ h => h, fun j a hj _ => ?_, fun j j' a hj hj' _ _ => ?_⟩
  · simp only [Pool.adopt, emplace_new i hfresh, lookup_insert_eq, hget, and_true]
    have hentry := h.wired.entries a j
    rw [and_true] at hentry
    by_cases ha : a = conn
    · subst ha
      have hnone : p.connPool[j]? ≠ some a := fun hj => hnew (hlive hj)
      simp [hnone, eq_comm]
    · simp [ha, hentry]
  · rcases hget.mp hj with hj | ⟨-, rfl⟩
    · exact List.mem_cons_of_mem _ (hlive hj)
    · exact List.mem_cons_self
  · rcases hget.mp hj with e | ⟨hi, rfl⟩ <;> rcases hget.mp hj' with e' | ⟨hi', ha⟩
    · exact h.wired.distinct j j' a e e' trivial trivial
    · exact absurd (hlive (ha ▸ e)) hnew
    · exact absurd (hlive e') hnew
    · exact hi.trans hi'.symm

/-- The addresses that redisConnect has answered with. -/
def addresses (replies : List Reply) : List Nat := replies.filterMap (Option.map Prod.fst)

theorem Built.initLoop {replies : List Reply} {i : Nat} {p q : Pool} (h : Built i p)
    (hnew : ∀ conn ∈ addresses replies, conn ∉ p.live) (hdistinct : (addresses replies).Nodup)
    (hq : p.initLoop i replies = .ok q) : Built (i + replies.length) q := by
  induction replies generalizing i p with
  | nil =>
      cases hq
      exact h
  | cons r rs ih =>
      rw [Pool.initLoop] at hq
      obtain ⟨conn, hr, hq⟩ := bind_eq_ok.mp hq
      have hr : r = some (conn, false) := by
        match r, hr with
        | some (_, false), rfl => rfl
      subst hr
      have haddr : addresses (some (conn, false) :: rs) = conn :: addresses rs := rfl
      rw [haddr, List.nodup_cons] at hdistinct
      rw [haddr] at hnew
      have hadopt := h.adopt (hnew conn List.mem_cons_self)
      have := ih hadopt ?_ hdistinct.2 hq
      · rw [List.length_cons, Nat.add_comm rs.length, ← Nat.add_assoc]
        exact this
      · intro a ha
        refine List.not_mem_cons_of_ne_of_not_mem ?_ (hnew a (List.mem_cons_of_mem _ ha))
        rintro rfl
        exact hdistinct.1 ha

theorem Built.inv {κ : Type} {i : Nat} {p : Pool} (h : Built i p) : Inv i (System.initial p : System κ) where
  length := h.length
  shared := by
    refine ⟨?_, fun c j hc => ?_, fun c c' j hc => ?_, fun j => ?_⟩
    · simpa [ledger, System.initial, h.queue] using List.nodup_range
    · cases hc
    · cases hc
    · simp [ledger, System.initial, h.queue, Client.id]
  wired := h.wired.congr (fun j => by simp [Listed, System.initial, replacing])
    (fun j => by simp [Standing, System.initial])
  holding c id conn hc := by cases hc
  releasing c id found hc := by cases hc

end Init

/-- Whatever the clients do and whichever connections break, as long as each
reconnection succeeds; no step of a client fails. -/
theorem pool_exclusive {κ : Type} [DecidableEq κ] {kind : PoolKind} {replies : List Reply} {p : Pool}
    (hinit : Pool.init replies = .ok p) (hdistinct : (addresses replies).Nodup)
    {as : List (κ × Reading)} {t : System κ}
    (hrun : Run (Guarded (Step kind) Reconnects) (System.initial p) as t) :
    Exclusive replies.length t ∧
      ∀ a o, Reconnects t a → step kind t a.1 a.2 = some o → ∃ u, o = .ok u := by
  have hbuilt := built_empty.initLoop (by simp [Pool.empty]) hdistinct hinit
  rw [Nat.zero_add] at hbuilt
  have hinv : Inv replies.length t := run_inv hbuilt.inv hrun
  refine ⟨hinv.exclusive, fun a o hr hstep => ?_⟩
  obtain ⟨u, hu, -⟩ := step_inv hinv hr hstep
  exact ⟨u, hu⟩

/-- Two clients; the first finds its connection broken, and the new object takes
the address of the freed one. -/
theorem pool_exclusive_reused : ∃ (p : Pool) (t : System Bool),
    Pool.init [some (10, false), some (20, false)] = .ok p ∧
      t.clients true = .holding 0 10 ∧ t.clients false = .releasing 1 1 ∧ Exclusive 2 t := by
  obtain ⟨t, hrun, htrue, hfalse⟩ : ∃ t, Run (Guarded (Step .redisConnPool) Reconnects)
      (System.initial ((Pool.empty.adopt 10 0).adopt 20 1))
      [(true, ⟨false, none⟩), (true, ⟨true, none⟩), (false, ⟨false, none⟩), (true, ⟨false, none⟩),
        (true, ⟨false, none⟩), (true, ⟨false, some (10, false)⟩), (false, ⟨false, none⟩),
        (true, ⟨false, none⟩), (false, ⟨false, none⟩), (true, ⟨false, none⟩), (false, ⟨false, none⟩)] t ∧
      t.clients true = .holding 0 10 ∧ t.clients false = .releasing 1 1 := by
    refine ⟨_, .cons ⟨?_, rfl⟩ (.cons ⟨?_, rfl⟩ (.cons ⟨?_, rfl⟩ (.cons ⟨?_, rfl⟩ (.cons ⟨?_, rfl⟩
      (.cons ⟨?_, rfl⟩ (.cons ⟨?_, rfl⟩ (.cons ⟨?_, rfl⟩ (.cons ⟨?_, rfl⟩ (.cons ⟨?_, rfl⟩ (.cons ⟨?_, rfl⟩
      (.nil _))))))))))), rfl, rfl⟩
    all_goals intro id hid
    case refine_6 => exact ⟨10, rfl, by decide⟩
    all_goals cases hid
  have hinit : Pool.init [some (10, false), some (20, false)] = .ok ((Pool.empty.adopt 10 0).adopt 20 1) := rfl
  exact ⟨_, t, hinit, htrue, hfalse, (pool_exclusive hinit (by decide) hrun).1⟩

end MigangBot.PoolExclusivity
