import MigangBot.EchoCorrelation
import MigangBot.MessageViews
import MigangBot.WaiterDelivery

namespace MigangBot.BotProcess

open Lib.Exceptions Text JsonValue ApiTypes EventHandling MessageViews

structure Bot where
  echo : EchoCorrelation.Registry
  waiters : Waiters.Registry

def Bot.init : Bot := ⟨.empty, .empty⟩

/-- A time_t of zero stands in for a missing code. -/
def echoCode (event : Object) : Outcome Int64 :=
  if event.contains "echo" then do (← event.constIndex "echo").getInt64 else .ok 0

def optionalGroup (event : Object) : Outcome (Option GId) :=
  if event.contains "group_id" then do
    return some (← (← event.constIndex "group_id").getUInt64)
  else .ok none

/-- EventProcess of an object, a noexcept function. -/
def Bot.eventProcess (s : Bot) (event : Object) : Outcome (Bot × Bool) := noexcept do
  if event.contains "retcode" then
    let code ← echoCode event
    let echo ← s.echo.eventProcess code (event.constIndex "data")
    return ({ s with echo := echo }, false)
  else if event.contains "message" then
    let userId ← (← event.constIndex "user_id").getUInt64
    let groupId ← optionalGroup event
    let waiters ← s.waiters.feed userId groupId (do (← event.constIndex "message").getString)
    return ({ s with waiters := waiters }, true)
  else return (s, true)

variable (h : EventHandler) (env : Environment) (parse : Bytes → Except Nat Json)

/-- A value that is no object has no keys, so nothing is done with it. -/
def Bot.dispatch (s : Bot) (msg : Json) : Outcome Bot :=
  match msg with
  | .object event => do
      let (s, needHandle) ← s.eventProcess event
      if needHandle then do
        let _ ← handleView h env event
        return s
      else return s
  | _ => .ok s

/-- What Process tries. The parser is the library's, which throws exceptions of
its own. -/
def Bot.attempt (s : Bot) (message : Bytes) : Outcome Bot :=
  match parse message with
  | .error id => throwing (.json id)
  | .ok msg => s.dispatch h env msg

def logged (s : Bot) : Exception → Option Bot
  | .json _ => some s
  | .outOfRange => none

def Bot.process (s : Bot) (message : Bytes) : Outcome Bot :=
  noexcept (catching (logged s) (s.attempt h env parse message))

inductive Action
  | call (r : EchoCorrelation.Reading) (type : ApiType)
  | abandonCall (i : Nat)
  | waitForNextMessage (groupId : Option GId) (userId : QId)
  | waitForNextMessageFrom (person : QId)
  | expire (w : Nat)
  | process (message : Bytes)

def step (s : Bot) : Action → Outcome Bot
  | .call r type => .ok { s with echo := s.echo.echo r type }
  | .abandonCall i => .ok { s with echo := s.echo.expire i }
  | .waitForNextMessage g u => .ok { s with waiters := s.waiters.waitForNextMessage g u }
  | .waitForNextMessageFrom u => .ok { s with waiters := s.waiters.waitForNextMessageFrom u }
  | .expire w => .ok { s with waiters := s.waiters.expire w }
  | .process message => s.process h env parse message

end MigangBot.BotProcess
