import MigangBot.ApiCalls
import MigangBot.Blacklists
import MigangBot.Digits
import MigangBot.MessageUtility

namespace MigangBot.BotManagement

open Lib.Exceptions Text JsonValue ApiTypes ApiCalls Blacklists Digits MessageUtility

/-- The globals that the modules of the bot's management share. -/
structure BotManage where
  addFriendFlag : Bool
  addGroupFlag : Bool
  rejectGroupForceFlag : Bool
  lists : BlackLists

/-- The rest that the handlers read: the settings, and the time of day that they
write into the notices. -/
structure Surroundings where
  superusers : List QId
  botName : Bytes
  helpMsgFriend : Bytes
  reason : Bytes
  currentTime : Bytes

section Requests

variable (env : Surroundings) (s : BotManage)

/-- One text to every super user. -/
def notify (text : Bytes) : List Json := env.superusers.map fun white => sendPrivateMsg white text false

def friendNotice (nickname : Bytes) (userId : QId) (outcome : Bytes) : Bytes :=
  env.currentTime ++ (bytes "|好友添加请求，来自" ++ (nickname ++ (bytes "(" ++ (decimal userId ++
    (bytes "):" ++ outcome)))))

def groupNotice (groupId : GId) (nickname : Bytes) (userId : QId) (verb ending : Bytes) : Bytes :=
  env.currentTime ++ (bytes "|" ++ (env.botName ++ (verb ++ (bytes "(群)" ++ (decimal groupId ++
    (bytes "，邀请人" ++ (nickname ++ (bytes "(" ++ (decimal userId ++ (bytes ")" ++ ending))))))))))

/-- The call for the stranger's data is always answered, by a default in the
worst case. -/
def handleFriendInvite (userInfo : UserInfo) (event : Object) : Outcome (List Json) := do
  let userId ← (← event.constIndex "user_id").getUInt64
  let notice := friendNotice env userInfo.nickname userId
  if s.addFriendFlag then
    if isBlackUser s.lists userId then
      return getStrangerInfo userId :: notify env (notice (bytes "已拒绝(黑名单)"))
    else
      let answer ← approve event
      return answer ++ (sendPrivateMsg userId env.helpMsgFriend false ::
        (getStrangerInfo userId :: notify env (notice (bytes "已同意"))))
  else
    let answer ← reject event (bytes "抱歉，目前暂停加好友了~")
    return answer ++ (getStrangerInfo userId :: notify env (notice (bytes "已拒绝(暂停自动加好友)")))

def handleGroupInvite (userInfo : UserInfo) (event : Object) : Outcome (List Json) := do
  let userId ← (← event.constIndex "user_id").getUInt64
  let groupId ← (← event.constIndex "group_id").getUInt64
  let notice := groupNotice env groupId userInfo.nickname userId
  if s.addGroupFlag then
    if isBlackUser s.lists userId || isBlackGroup s.lists groupId then
      let answer ← reject event (bytes "黑名单:" ++
        decimal (if isBlackUser s.lists userId then userId else groupId))
      return answer ++ (getStrangerInfo userId :: notify env (notice (bytes "已拒绝加入") (bytes "(黑名单)")))
    else
      let answer ← approve event
      return answer ++ (getStrangerInfo userId :: notify env (notice (bytes "新加入") []))
  else
    let answer ← reject event env.reason
    return answer ++ (getStrangerInfo userId ::
      notify env (notice (bytes "已拒绝加入") (bytes "(暂停自动入群)")))

end Requests

section Commands

variable (s : BotManage)

def hint : Bytes := bytes ("Usage:\n " ++ "-l   退出群聊\n " ++ "-blq 列举黑名单qq\n " ++
  "-blg 列举黑名单群\n " ++ "-caf 改变允许加好友状态\n " ++ "-cag 改变允许入群状态\n " ++
  "-gf  禁止一切群邀请(严格)\n")

def onOff (flag : Bool) : Bytes := if flag then bytes "启用" else bytes "关闭"

def findFirstNotOfFrom (c : UInt8) (str : Bytes) (pos : Nat) : Nat :=
  match (str.drop pos).findIdx? (· != c) with
  | some i => pos + i
  | none => npos

def listing (title : Bytes) (list : BlackList) : Bytes :=
  (title ++ list.ids.entries.flatMap fun e => decimal e.1 ++ (bytes ":" ++ (e.2 ++ bytes "\n"))).dropLast

def leave (event : Object) (option : Bytes) : Outcome (List Json) := do
  let groupId ← cutFront option (min option.length (findFirstNotOfFrom (char ' ') option 2))
  if !isDigitStr groupId then return [← send event (bytes "请输入合法群号") false]
  else
    let call := setGroupLeave (← atoll groupId) false
    return [call, ← send event (bytes "已退出群[" ++ (groupId ++ bytes "](如果在群里的话)")) false]

/-- The chain of options of ManageBot::Handle; the shorter -l is tried first. -/
def manage (event : Object) (option : Bytes) : Outcome (BotManage × List Json) := do
  if option = [] then return (s, [← send event hint false])
  else if startsWith option (bytes "-l") then return (s, ← leave event option)
  else if startsWith option (bytes "-blq") then
    return (s, [← send event (listing (bytes "以下为黑名单qq用户\n") s.lists.qid) false])
  else if startsWith option (bytes "-blg") then
    return (s, [← send event (listing (bytes "以下为黑名单群\n") s.lists.gid) false])
  else if startsWith option (bytes "-caf") then
    let s := { s with addFriendFlag := !s.addFriendFlag }
    return (s, [← send event (bytes "自动同意添加好友状态目前为:" ++ onOff s.addFriendFlag) false])
  else if startsWith option (bytes "-cag") then
    let s := { s with addGroupFlag := !s.addGroupFlag }
    return (s, [← send event (bytes "自动同意入群邀请状态目前为:" ++ onOff s.addGroupFlag) false])
  else if startsWith option (bytes "-gf") then
    if s.rejectGroupForceFlag then
      let s := { s with rejectGroupForceFlag := false }
      return (s, [← send event (bytes "已关闭严格模式,自动同意入群邀请状态目前为:" ++ onOff s.addGroupFlag) false])
    else
      let s := { s with rejectGroupForceFlag := true, addGroupFlag := false }
      return (s, [← send event (bytes "已启用严格模式") false])
  else return (s, [← send event hint false])

/-- The text behind the command. ManageBot and WhiteBlack keep a view of it, which is
taken as a value here: the string that it lies in is gone at once. -/
def optionOf (event : Object) : Outcome Bytes := do strip (← extraPlainText event) (char ' ')

/-- ManageBot::Handle. -/
def handle (event : Object) : Outcome (BotManage × List Json) := do manage s event (← optionOf event)

end Commands

end MigangBot.BotManagement
