import MigangBot.Text
import MigangBot.Lib.Leases
import MigangBot.Lib.Maps

namespace MigangBot.ConnectionPools

open Lib.Exceptions Lib.Leases Lib.Maps Text

/-- What redisConnect returns: null, or an address and its error flag. -/
abbrev Reply := Option (Nat × Bool)

inductive PoolKind
  | connPool
  | redisConnPool
  deriving DecidableEq

/-- Contexts are named by their addresses; `live` holds those allocated and not
freed. -/
structure Pool where
  connPool : List Nat
  connIdQueue : List Nat
  connToId : FiniteMap Nat Nat
  live : List Nat

def Pool.empty : Pool := ⟨[], [], ∅, []⟩

def Pool.adopt (p : Pool) (conn : Nat) (i : Nat) : Pool :=
  ⟨p.connPool ++ [conn], p.connIdQueue ++ [i], emplace p.connToId conn i, conn :: p.live⟩

/-- The log line of a failed connection reads the message of a null context. -/
def connected (r : Reply) : Outcome Nat :=
  match r with
  | none => .error .undefined
  | some (_, true) => .error .terminate
  | some (conn, false) => .ok conn

def Pool.initLoop (p : Pool) (i : Nat) : List Reply → Outcome Pool
  | [] => .ok p
  | r :: rs => do
      let c ← connected r
      (p.adopt c i).initLoop (i + 1) rs

def Pool.init (replies : List Reply) : Outcome Pool := Pool.empty.initLoop 0 replies

def Pool.conn (p : Pool) (id : Nat) : Outcome Nat :=
  match p.connPool[id]? with
  | some conn => .ok conn
  | none => .error .undefined

/-- The context at an address; a freed one is not there to be read. -/
def Pool.deref (p : Pool) (conn : Nat) : Outcome Nat :=
  if conn ∈ p.live then .ok conn else .error .undefined

def Pool.eraseEntry (p : Pool) (id : Nat) : Outcome Pool := do
  let conn ← p.conn id
  return { p with connToId := p.connToId.erase conn }

def Pool.redisFree (p : Pool) (id : Nat) : Outcome Pool := do
  let conn ← p.conn id
  let conn ← p.deref conn
  return { p with live := p.live.filter (fun a => a != conn) }

def Pool.reconnect (p : Pool) (id : Nat) (r : Reply) : Outcome Pool := do
  let conn ← connected r
  return { p with connPool := p.connPool.set id conn, live := conn :: p.live }

def Pool.emplaceEntry (p : Pool) (id : Nat) : Outcome Pool := do
  let conn ← p.conn id
  return { p with connToId := emplace p.connToId conn id }

/-- operator[] of the map: a missing key is entered with the id zero. -/
def Pool.idOf (p : Pool) (conn : Nat) : Nat × Pool :=
  ((p.connToId.lookup conn).getD 0, { p with connToId := emplace p.connToId conn 0 })

/-- Where a client stands in its constructor, in its lifetime and in its
destructor. Outside its own frame only the reference is known; the popped id is
kept for the comparison with the one that Free finds. -/
inductive Client
  | idle
  | popped (id : Nat)
  | broken (id : Nat)
  | erased (id : Nat)
  | freed (id : Nat)
  | reconnected (id : Nat)
  | ready (id : Nat)
  | holding (id conn : Nat)
  | releasing (id found : Nat)
  deriving DecidableEq

def Client.id : Client → Option Nat
  | .idle => none
  | .popped id | .broken id | .erased id | .freed id | .reconnected id | .ready id => some id
  | .holding id _ | .releasing id _ => some id

variable {κ : Type} [DecidableEq κ]

structure System (κ : Type) where
  pool : Pool
  clients : κ → Client

def System.initial (p : Pool) : System κ := ⟨p, fun _ => .idle⟩

def System.becomes (s : System κ) (c : κ) (p : Pool) (x : Client) : System κ :=
  ⟨p, Function.update s.clients c x⟩

/-- What a client meets outside: the error flag of the context it reads, and the
answer of redisConnect. -/
structure Reading where
  err : Bool
  reply : Reply

def System.check (s : System κ) (kind : PoolKind) (c : κ) (id : Nat) (r : Reading) : Outcome (System κ) :=
  match kind with
  | .connPool => .ok (s.becomes c s.pool (.ready id))
  | .redisConnPool => do
      let conn ← s.pool.conn id
      let _ ← s.pool.deref conn
      return s.becomes c s.pool (if r.err then .broken id else .ready id)

/-- The next step of a client, none while it waits for an id. -/
def step (kind : PoolKind) (s : System κ) (c : κ) (r : Reading) : Option (Outcome (System κ)) :=
  match s.clients c with
  | .idle =>
      match s.pool.connIdQueue with
      | [] => none
      | id :: queue => some (.ok (s.becomes c { s.pool with connIdQueue := queue } (.popped id)))
  | .popped id => some (s.check kind c id r)
  | .broken id => some do
      let p ← s.pool.eraseEntry id
      return s.becomes c p (.erased id)
  | .erased id => some do
      let p ← s.pool.redisFree id
      return s.becomes c p (.freed id)
  | .freed id => some do
      let p ← s.pool.reconnect id r.reply
      return s.becomes c p (.reconnected id)
  | .reconnected id => some do
      let p ← s.pool.emplaceEntry id
      return s.becomes c p (.ready id)
  | .ready id => some do
      let conn ← s.pool.conn id
      let conn ← s.pool.deref conn
      return s.becomes c s.pool (.holding id conn)
  | .holding id conn =>
      let (found, p) := s.pool.idOf conn
      some (.ok (s.becomes c p (.releasing id found)))
  | .releasing _ found =>
      let p := { s.pool with connIdQueue := s.pool.connIdQueue ++ [found] }
      some (.ok (s.becomes c p .idle))

def Step (kind : PoolKind) (s : System κ) (a : κ × Reading) (t : System κ) : Prop :=
  step kind s a.1 a.2 = some (.ok t)

/-- A reconnection succeeds with an object that is none of the live ones. -/
def Reconnects (s : System κ) (a : κ × Reading) : Prop :=
  ∀ id, s.clients a.1 = .freed id → ∃ conn, a.2.reply = some (conn, false) ∧ conn ∉ s.pool.live

end MigangBot.ConnectionPools
