import MigangBot.ApiTypes

namespace MigangBot.ApiCalls

open Lib.Exceptions Text JsonValue ApiTypes

/-- A call as it is handed to the connection, before it is given an echo code. -/
def callApi (action : String) (params : Object) : Json :=
  .object [("action", .string (bytes action)), ("params", .object params)]

theorem callApi_inj {action action' : String} {params params' : Object} :
    callApi action params = callApi action' params' ↔ bytes action = bytes action' ∧ params = params' := by
  simp [callApi]

def sendPrivateMsg (userId : QId) (message : Bytes) (autoEscape : Bool) : Json :=
  callApi "send_private_msg" [("user_id", .numberUnsigned userId), ("message", .string message),
    ("auto_escape", .boolean autoEscape)]

def sendGroupMsg (groupId : GId) (message : Bytes) (autoEscape : Bool) : Json :=
  callApi "send_group_msg" [("group_id", .numberUnsigned groupId), ("message", .string message),
    ("auto_escape", .boolean autoEscape)]

def setGroupLeave (gid : GId) (isDismiss : Bool) : Json :=
  callApi "set_group_leave" [("group_id", .numberUnsigned gid), ("is_dismiss", .boolean isDismiss)]

def setFriendAddRequest (flag : Bytes) (approve : Bool) : Json :=
  callApi "set_friend_add_request" [("flag", .string flag), ("approve", .boolean approve)]

def setGroupAddRequest (flag subType reason : Bytes) (approve : Bool) : Json :=
  callApi "set_group_add_request" [("flag", .string flag), ("sub_type", .string subType),
    ("reason", .string reason), ("approve", .boolean approve)]

def getStrangerInfo (qid : QId) : Json :=
  callApi "get_stranger_info" [("user_id", .numberUnsigned qid)]

def getGroupInfo (groupId : GId) (noCache : Bool) : Json :=
  callApi "get_group_info" [("group_id", .numberUnsigned groupId), ("no_cache", .boolean noCache)]

def getGroupList (noCache : Bool) : Json :=
  callApi "get_group_list" [("no_cache", .boolean noCache)]

def getGroupMemberInfo (gid : GId) (uid : QId) (noCache : Bool) : Json :=
  callApi "get_group_member_info" [("group_id", .numberUnsigned gid), ("user_id", .numberUnsigned uid),
    ("no_cache", .boolean noCache)]

theorem sendGroupMsg_inj {g g' : GId} {m m' : Bytes} {escape : Bool} :
    sendGroupMsg g m escape = sendGroupMsg g' m' escape ↔ g = g' ∧ m = m' := by
  simp [sendGroupMsg, callApi_inj]

theorem sendPrivateMsg_inj {u u' : QId} {m m' : Bytes} {escape : Bool} :
    sendPrivateMsg u m escape = sendPrivateMsg u' m' escape ↔ u = u' ∧ m = m' := by
  simp [sendPrivateMsg, callApi_inj]

theorem sendGroupMsg_ne_sendPrivateMsg (g : GId) (u : QId) (m m' : Bytes) (escape : Bool) :
    sendGroupMsg g m escape ≠ sendPrivateMsg u m' escape :=
  fun h => absurd (callApi_inj.mp h).1 (by decide)

/-- The member function send: an event is answered where it came from. -/
def send (event : Object) (message : Bytes) (atSender : Bool) : Outcome Json := do
  if (← (Json.object event).value Json.getString "message_type" (bytes "private")) = bytes "group" then
    let groupId ← (← event.constIndex "group_id").getUInt64
    if atSender then
      let userId ← (← event.constIndex "user_id").getUInt64
      return sendGroupMsg groupId (bytes "[CQ:at,qq=" ++ (decimal userId ++ (bytes "] " ++ message))) false
    else return sendGroupMsg groupId message false
  else
    let userId ← (← event.constIndex "user_id").getUInt64
    return sendPrivateMsg userId message false

def handleAddRequestImpl (isApprove : Bool) (event : Object) (reason : Bytes) : Outcome (List Json) := do
  let flag ← (← event.constIndex "flag").getString
  let requestType ← (← event.constIndex "request_type").getString
  if requestType = bytes "friend" then return [setFriendAddRequest flag isApprove]
  else if requestType = bytes "group" then
    if (← (← event.constIndex "sub_type").getString) = bytes "invite" then
      return [setGroupAddRequest flag (bytes "invite") reason isApprove]
    else return []
  else return []

def reject (event : Object) (reason : Bytes) : Outcome (List Json) := handleAddRequestImpl false event reason

def approve (event : Object) : Outcome (List Json) := handleAddRequestImpl true event []

end MigangBot.ApiCalls
