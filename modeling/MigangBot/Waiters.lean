import MigangBot.ApiTypes
import MigangBot.Lib.Maps

namespace MigangBot.Waiters

open Lib.Exceptions Lib.Maps Text ApiTypes

structure Message where
  userId : QId
  groupId : Option GId
  message : Bytes
  deriving DecidableEq

/-- The key of the per-group maps: private messages are kept under zero. -/
def Message.key (m : Message) : GId := m.groupId.getD 0

/-- What a waiter asked for: the next message of a user in the chat of an
event, or the next message of a person anywhere. -/
inductive Place
  | chat (groupId : Option GId) (userId : QId)
  | person (userId : QId)
  deriving DecidableEq

inductive Queue
  | chat (groupId : GId) (userId : QId)
  | person (userId : QId)
  deriving DecidableEq

def Place.queue : Place → Queue
  | .chat g u => .chat (g.getD 0) u
  | .person u => .person u

/-- The promise of a waiter: whether its wrapper still owns it, and the
messages put into it. -/
structure Waiter where
  place : Place
  alive : Bool
  received : List Message

def Waiter.receive (m : Message) (x : Waiter) : Waiter := { x with received := x.received ++ [m] }

def Waiter.expired (x : Waiter) : Waiter := { x with alive := false }

/-- The queues hold waiters by their position, in place of weak pointers. -/
structure Registry where
  waiters : List Waiter
  someoneGroupMessage : FiniteMap GId (FiniteMap QId (List Nat))
  someoneGroupMessageMutex : FiniteMap GId (FiniteMap QId Unit)
  someoneNeedMessage : FiniteMap QId (List Nat)
  someoneNeedMessageMutex : FiniteMap QId Unit

def Registry.empty : Registry := ⟨[], ∅, ∅, ∅, ∅⟩

def Registry.waitForNextMessage (s : Registry) (groupId : Option GId) (userId : QId) : Registry :=
  let g := groupId.getD 0
  { s with
    waiters := s.waiters ++ [⟨.chat groupId userId, true, []⟩]
    someoneGroupMessageMutex := insert₂ s.someoneGroupMessageMutex g userId ()
    someoneGroupMessage := insert₂ s.someoneGroupMessage g userId
      ((find₂ s.someoneGroupMessage g userId).getD [] ++ [s.waiters.length]) }

def Registry.waitForNextMessageFrom (s : Registry) (person : QId) : Registry :=
  { s with
    waiters := s.waiters ++ [⟨.person person, true, []⟩]
    someoneNeedMessageMutex := s.someoneNeedMessageMutex.insert person ()
    someoneNeedMessage := s.someoneNeedMessage.insert person
      ((s.someoneNeedMessage.lookup person).getD [] ++ [s.waiters.length]) }

def Registry.expire (s : Registry) (w : Nat) : Registry :=
  { s with waiters := s.waiters.modify w Waiter.expired }

def Registry.isSomeOneNeedMessage (s : Registry) (userId : QId) : Bool :=
  (s.someoneNeedMessage.lookup userId).isSome

def Registry.isNeedMessage (s : Registry) (groupId : GId) (userId : QId) : Bool :=
  (find₂ s.someoneGroupMessage groupId userId).isSome

def mapAt {α : Type} : Option α → Outcome α
  | some a => .ok a
  | none => throwing .outOfRange

def popping (waiters : List Waiter) (m : Message) : List Nat → List Waiter × List Nat
  | [] => (waiters, [])
  | w :: q =>
      match waiters[w]? with
      | some x => if x.alive then (waiters.modify w (Waiter.receive m), q) else popping waiters m q
      | none => popping waiters m q

def storeRest (m : FiniteMap QId (List Nat)) (userId : QId) (rest : List Nat) : FiniteMap QId (List Nat) :=
  if rest.isEmpty then m.erase userId else m.insert userId rest

def storeRest₂ (m : FiniteMap GId (FiniteMap QId (List Nat))) (groupId : GId) (userId : QId)
    (rest : List Nat) : FiniteMap GId (FiniteMap QId (List Nat)) :=
  if rest.isEmpty then erase₂ m groupId userId else insert₂ m groupId userId rest

def Registry.feedMessageTo (s : Registry) (userId : QId) (m : Message) : Outcome Registry := do
  let _ ← mapAt (s.someoneNeedMessageMutex.lookup userId)
  let q ← mapAt (s.someoneNeedMessage.lookup userId)
  let (waiters, rest) := popping s.waiters m q
  return { s with
    waiters := waiters
    someoneNeedMessage := storeRest s.someoneNeedMessage userId rest }

def Registry.feedLoop (s : Registry) (groupId : GId) (userId : QId) (m : Message) : Outcome Registry := do
  let _ ← mapAt (find₂ s.someoneGroupMessageMutex groupId userId)
  let q ← mapAt (find₂ s.someoneGroupMessage groupId userId)
  let (waiters, rest) := popping s.waiters m q
  return { s with
    waiters := waiters
    someoneGroupMessage := storeRest₂ s.someoneGroupMessage groupId userId rest }

def Registry.groupEmpty (s : Registry) (groupId : GId) : Outcome Bool := do
  return isEmpty (← mapAt (s.someoneGroupMessage.lookup groupId))

def Registry.eraseGroup (s : Registry) (groupId : GId) : Registry :=
  { s with someoneGroupMessage := s.someoneGroupMessage.erase groupId }

def Registry.feedMessage (s : Registry) (groupId : GId) (userId : QId) (m : Message) : Outcome Registry := do
  let s ← s.feedLoop groupId userId m
  if ← s.groupEmpty groupId then return s.eraseGroup groupId else return s

/-- The text of a message is read only where someone needs it. -/
def Registry.feedChat (s : Registry) (userId : QId) (groupId : Option GId) (message : Outcome Bytes) :
    Outcome Registry :=
  if s.isNeedMessage (groupId.getD 0) userId then do
    s.feedMessage (groupId.getD 0) userId ⟨userId, groupId, ← message⟩
  else .ok s

def Registry.feedPerson (s : Registry) (userId : QId) (groupId : Option GId) (message : Outcome Bytes) :
    Outcome Registry :=
  if s.isSomeOneNeedMessage userId then do s.feedMessageTo userId ⟨userId, groupId, ← message⟩
  else .ok s

/-- EventProcess on a message event: first the queue of its chat, where the
private messages have group zero, then the queue of its sender. -/
def Registry.feed (s : Registry) (userId : QId) (groupId : Option GId) (message : Outcome Bytes) :
    Outcome Registry := do
  let s ← s.feedChat userId groupId message
  s.feedPerson userId groupId message

def Registry.eventProcess (s : Registry) (m : Message) : Outcome Registry :=
  s.feed m.userId m.groupId (.ok m.message)

end MigangBot.Waiters
