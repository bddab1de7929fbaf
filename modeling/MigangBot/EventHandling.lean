import MigangBot.CommandTrie
import MigangBot.Services
import MigangBot.Lib.Maps

namespace MigangBot.EventHandling

open Lib.Exceptions Lib.Maps Text JsonValue ApiTypes Permission Services CommandTrie

/-- The services of the registries are shared pointers; what they point to is
looked up when the event is handled. -/
abbrev ServicePtr := Nat

structure RegexMatcher where
  regex : List Bytes
  service : ServicePtr

structure EventHandler where
  commandFullmatch : FiniteMap Bytes ServicePtr
  commandPrefix : Trie ServicePtr
  commandSuffix : Trie ServicePtr
  commandRegex : List RegexMatcher
  allMsgHandler : List ServicePtr
  noticeHandler : FiniteMap Bytes (FiniteMap Bytes (List ServicePtr))
  requestHandler : FiniteMap Bytes (FiniteMap Bytes (List ServicePtr))

def EventHandler.empty : EventHandler := ⟨∅, .empty, .empty, [], [], ∅, ∅⟩

/-- KEYWORD has no case of its own in RegisterCommand, like every number
without a name. -/
inductive CommandType
  | fullmatch
  | prefixMatch
  | suffixMatch
  | keyword
  | allMsg

variable (h : EventHandler)

def emplaceFullmatch (command : Bytes) (service : ServicePtr) : EventHandler × Bool :=
  match h.commandFullmatch.lookup command with
  | some _ => (h, false)
  | none => ({ h with commandFullmatch := h.commandFullmatch.insert command service }, true)

def registerCommand (type : CommandType) (command : Bytes) (service : ServicePtr) : EventHandler × Bool :=
  match type with
  | .fullmatch => emplaceFullmatch h command service
  | .prefixMatch =>
      let (trie, inserted) := h.commandPrefix.insert command service
      ({ h with commandPrefix := trie }, inserted)
  | .suffixMatch =>
      let (trie, inserted) := h.commandSuffix.insertFromBack command service
      ({ h with commandSuffix := trie }, inserted)
  | .allMsg => ({ h with allMsgHandler := h.allMsgHandler ++ [service] }, true)
  | .keyword => emplaceFullmatch h command service

def registerRegex (patterns : List Bytes) (service : ServicePtr) : EventHandler × Bool :=
  ({ h with commandRegex := h.commandRegex ++ [⟨patterns, service⟩] }, true)

def pushBack (m : FiniteMap Bytes (FiniteMap Bytes (List ServicePtr))) (type subType : Bytes)
    (service : ServicePtr) : FiniteMap Bytes (FiniteMap Bytes (List ServicePtr)) :=
  insert₂ m type subType ((find₂ m type subType).getD [] ++ [service])

def registerNotice (noticeType subType : Bytes) (service : ServicePtr) : EventHandler × Bool :=
  ({ h with noticeHandler := pushBack h.noticeHandler noticeType subType service }, true)

def registerRequest (requestType subType : Bytes) (service : ServicePtr) : EventHandler × Bool :=
  ({ h with requestHandler := pushBack h.requestHandler requestType subType service }, true)

inductive Registration
  | command (type : CommandType) (command : Bytes) (service : ServicePtr)
  | regex (patterns : List Bytes) (service : ServicePtr)
  | notice (noticeType subType : Bytes) (service : ServicePtr)
  | request (requestType subType : Bytes) (service : ServicePtr)

def register : Registration → EventHandler × Bool
  | .command type command service => registerCommand h type command service
  | .regex patterns service => registerRegex h patterns service
  | .notice noticeType subType service => registerNotice h noticeType subType service
  | .request requestType subType service => registerRequest h requestType subType service

def registered (regs : List Registration) : EventHandler :=
  regs.foldl (fun h r => (register h r).1) .empty

inductive Path
  | fullmatch
  | prefixMatch
  | suffixMatch
  | regex
  | allMsg
  | notice
  | request
  deriving DecidableEq

/-- A coroutine started by Handle: the service it runs, with its own copy of
the event as it was at that moment. -/
structure Launch where
  path : Path
  service : ServicePtr
  event : Object

/-- What Handle finds around it: the objects behind the pointers, the settings,
and the matching of a regular expression, which a library does. -/
structure Environment where
  services : ServicePtr → TriggeredService
  config : Config
  reMatch : Bytes → Bytes → Bool

variable (env : Environment)

def RegexMatcher.check (env : Environment) (matcher : RegexMatcher) (message : Bytes) : Bool :=
  matcher.regex.any fun re => env.reMatch re message

def launchIf (guard : TriggeredService → Bool) (path : Path) (event : Object) :
    Option ServicePtr → List Launch
  | some service => if guard (env.services service) then [⟨path, service, event⟩] else []
  | none => []

/-- The five matchers in turn, over the one event that the tries write the size
of a command into. The commands and the other two have guards of their own. -/
def dispatch (commandGuard : Object → TriggeredService → Bool) (guard : TriggeredService → Bool)
    (message : Bytes) (event : Object) : List Launch :=
  let full := launchIf env (commandGuard event) .fullmatch event (h.commandFullmatch.lookup message)
  let (event, service) := h.commandPrefix.longestPrefix message event
  let front := launchIf env (commandGuard event) .prefixMatch event service
  let (event, service) := h.commandSuffix.longestSuffix message event
  let back := launchIf env (commandGuard event) .suffixMatch event service
  let regex := (h.commandRegex.filter fun matcher => matcher.check env message).flatMap fun matcher =>
    launchIf env guard .regex event (some matcher.service)
  let all := h.allMsgHandler.flatMap fun service => launchIf env guard .allMsg event (some service)
  full ++ (front ++ (back ++ (regex ++ all)))

def groupGuard (groupId : GId) (perm : Int) (service : TriggeredService) : Bool :=
  service.checkIsEnable groupId && service.checkPerm perm

def dispatchGroup (groupId : GId) (perm : Int) (message : Bytes) (event : Object) : List Launch :=
  dispatch h env
    (fun event service => groupGuard groupId perm service && service.checkToMe (event.contains "__to_me__"))
    (groupGuard groupId perm) message event

def dispatchPrivate (perm : Int) (message : Bytes) (event : Object) : List Launch :=
  dispatch h env (fun _ service => service.checkPerm perm) (fun service => service.checkPerm perm)
    message event

/-- operator[] of the event: a key it lacks is added with the value null, and
then only a comparison with null can go on. -/
def member (event : Object) (key : String) : Json := (event.index key).2

def logSender (event : Object) : Outcome Unit := do
  let _ ← (member event "sender").value Json.getString "nickname" []
  let _ ← (member event "sender").value Json.getInt "user_id" 0

def logPrivate (event : Object) : Outcome Unit := do
  let subType ← (member event "sub_type").getString
  if first subType = char 'f' then do
    let _ ← (member event "self_id").getUInt64
    logSender event
  else return ()

/-- The comparison with null adds the key when the event lacks it. -/
def logGroup (event : Object) : Outcome Object := do
  let (event, anonymous) := event.index "anonymous"
  let _ ← (member event "self_id").getUInt64
  let _ ← (member event "group_id").getUInt64
  if anonymous.isNull then logSender event
  return event

def logMessage (messageType : UInt8) (event : Object) : Outcome Object :=
  if messageType = char 'p' then do
    logPrivate event
    return event
  else if messageType = char 'g' then logGroup event
  else .ok event

def markToMe (event : Object) (msg : Bytes) : Object :=
  (event.set "__to_me__" (.boolean true)).set "message" (.string msg)

def afterAt (msg : Bytes) : Outcome Bytes := do
  let msg ← substrFrom msg (sizeSucc (findFirstOf (char ']') msg))
  substrFrom msg (findFirstNotOf (char ' ') msg)

def proposeAt (event : Object) (msg : Bytes) : Outcome (Object × Bytes) := do
  let atIdStart := min 10 msg.length
  let atIdEnd := min (findFirstOf (char ']') msg) msg.length
  let atId ← substr msg atIdStart (sizeSub atIdEnd atIdStart)
  let selfId ← (member event "self_id").getUInt64
  if atId = decimal selfId then do
    let msg ← afterAt msg
    return (markToMe event msg, msg)
  else return (event, msg)

/-- Views are values here: `msg` keeps the rest of the text when the event is given one
of its own. -/
def prePropose (event : Object) (msg : Bytes) : Outcome (Object × Bytes) :=
  if startsWith msg (bytes "[CQ:at") then proposeAt event msg
  else if startsWith msg env.config.botName then
    let msg := msg.drop env.config.botName.length
    .ok (markToMe event msg, msg)
  else .ok (event, msg)

def dispatchMessage (messageType : UInt8) (perm : Int) (message : Bytes) (event : Object) :
    Outcome (List Launch) :=
  if messageType = char 'g' then do
    let groupId ← (member event "group_id").getUInt64
    return dispatchGroup h env groupId perm message event
  else if messageType = char 'p' then .ok (dispatchPrivate h env perm message event)
  else .ok []

def handleMessage (event : Object) : Outcome (List Launch) := do
  let msg ← (member event "message").getString
  let messageType := first (← (member event "message_type").getString)
  let perm ← getUserPermission env.config event
  let event ← logMessage messageType event
  let (event, message) ← prePropose env event msg
  dispatchMessage h env messageType perm message event

def enabledFor (event : Object) (service : ServicePtr) : Outcome Bool :=
  if event.contains "group_id" then do
    let groupId ← (member event "group_id").getUInt64
    return (env.services service).checkIsEnable groupId
  else .ok true

def launchEach (path : Path) (event : Object) : List ServicePtr → Outcome (List Launch)
  | [] => .ok []
  | service :: services => do
      let enabled ← enabledFor env event service
      let launches ← launchEach path event services
      return (if enabled then [⟨path, service, event⟩] else []) ++ launches

def launchUnder (m : FiniteMap Bytes (FiniteMap Bytes (List ServicePtr))) (path : Path) (event : Object)
    (type subType : Bytes) : Outcome (List Launch) :=
  match find₂ m type subType with
  | some services => launchEach env path event services
  | none => .ok []

def handleNotice (event : Object) : Outcome (List Launch) := do
  let noticeType ← (Json.object event).value Json.getString "notice_type" []
  let subType ← (Json.object event).value Json.getString "sub_type" []
  let _ ← (member event "self_id").getUInt64
  let exact ← launchUnder env h.noticeHandler .notice event noticeType subType
  if subType.isEmpty then return exact
  else return exact ++ (← launchUnder env h.noticeHandler .notice event noticeType [])

def handleRequest (event : Object) : Outcome (List Launch) := do
  let requestType ← (Json.object event).value Json.getString "request_type" []
  let subType ← (Json.object event).value Json.getString "sub_type" []
  let _ ← (member event "self_id").getUInt64
  launchUnder env h.requestHandler .request event requestType subType

def handleMetaEvent (event : Object) : Outcome (List Launch) := do
  let metaEventType ← (member event "meta_event_type").getString
  if first metaEventType = char 'l' then do
    let subType ← (member event "sub_type").getString
    if first subType = char 'e' ∨ first subType = char 'c' ∨ first subType = char 'd' then do
      let _ ← (member event "self_id").getUInt64
      return []
    else return []
  else do
    let _ ← (member event "self_id").getUInt64
    let _ ← (member event "time").getInt64
    return []

def isGroupTalk (event : Object) : Outcome Bool :=
  if event.contains "post_type" then do
    let messageType ← (Json.object event).value Json.getString "message_type" []
    if messageType = bytes "private" then do
      let subType ← (Json.object event).value Json.getString "sub_type" []
      return decide (subType = bytes "group")
    else return false
  else .ok false

def filter (event : Object) : Outcome Bool := noexcept do
  return !(← isGroupTalk event) && !event.contains "retcode"

def handlePostType (postType : UInt8) (event : Object) : Outcome (List Launch) :=
  if postType = char 's' then handleMessage h env event
  else if postType = char 'i' then handleNotice h env event
  else if postType = char 'u' then handleRequest h env event
  else if postType = char 'a' then handleMetaEvent event
  else .ok []

/-- EventHandler::Handle, a noexcept function, with the coroutines it starts in
their order. Its views are values. -/
def handle (event : Object) : Outcome (Bool × List Launch) := noexcept do
  if ← filter event then
    if event.contains "post_type" then do
      let postType ← (member event "post_type").getString
      let launches ← handlePostType h env (← charAt postType 3) event
      return (true, launches)
    else return (true, [])
  else return (false, [])

end MigangBot.EventHandling
