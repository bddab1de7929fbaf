import MigangBot.JsonValue

namespace MigangBot.ApiTypes

open Lib.Exceptions Text JsonValue

abbrev QId := UInt64

abbrev GId := UInt64

abbrev MsgId := Int

structure MessageID where
  messageId : MsgId

structure GroupInfo where
  groupId : GId
  groupName : Bytes
  memberCount : Int
  maxMemberCount : Int

structure UserInfo where
  userId : QId
  nickname : Bytes
  sex : Bytes
  age : Int

structure GroupMemberInfo where
  groupId : GId
  userId : QId
  nickname : Bytes
  card : Bytes
  sex : Bytes
  age : Int
  area : Bytes
  joinTime : Int
  lastSentTime : Int
  level : Bytes
  role : Bytes
  unfriendly : Bool
  title : Bytes
  titleExpireTime : Int
  cardChangeable : Bool

/-- The answer types the API calls are instantiated with. -/
inductive ApiType
  | messageID
  | groupInfo
  | userInfo
  | groupList
  | groupMemberInfo

inductive ApiValue
  | messageID (v : MessageID)
  | groupInfo (v : GroupInfo)
  | userInfo (v : UserInfo)
  | groupList (v : List GroupInfo)
  | groupMemberInfo (v : GroupMemberInfo)

def defaultValue : ApiType → ApiValue
  | .messageID => .messageID ⟨0⟩
  | .groupInfo => .groupInfo ⟨0, [], 0, 0⟩
  | .userInfo => .userInfo ⟨0, [], [], 0⟩
  | .groupList => .groupList []
  | .groupMemberInfo => .groupMemberInfo ⟨0, 0, [], [], [], 0, [], 0, 0, [], [], false, [], 0, false⟩

variable (value : Json)

def uint64Field (key : String) : Outcome UInt64 := do (← value.constIndex key).getUInt64

def intField (key : String) : Outcome Int := do (← value.constIndex key).getInt

def stringField (key : String) : Outcome Bytes := do (← value.constIndex key).getString

def boolField (key : String) : Outcome Bool := do (← value.constIndex key).getBool

def desiredGroupInfo : Outcome GroupInfo := do
  return ⟨← uint64Field value "group_id", ← stringField value "group_name",
    ← intField value "member_count", ← intField value "max_member_count"⟩

def desiredUserInfo : Outcome UserInfo := do
  return ⟨← uint64Field value "user_id", ← stringField value "nickname",
    ← stringField value "sex", ← intField value "age"⟩

def desiredGroupMemberInfo : Outcome GroupMemberInfo := do
  return ⟨← uint64Field value "group_id", ← uint64Field value "user_id",
    ← stringField value "nickname", ← stringField value "card", ← stringField value "sex",
    ← intField value "age", ← stringField value "area", ← intField value "join_time",
    ← intField value "last_sent_time", ← stringField value "level", ← stringField value "role",
    ← boolField value "unfriendly", ← stringField value "title",
    ← intField value "title_expire_time", ← boolField value "card_changeable"⟩

def desiredValue : ApiType → Outcome ApiValue
  | .messageID => do return .messageID ⟨← intField value "message_id"⟩
  | .groupInfo => do return .groupInfo (← desiredGroupInfo value)
  | .userInfo => do return .userInfo (← desiredUserInfo value)
  | .groupList => do return .groupList (← (← value.items).mapM desiredGroupInfo)
  | .groupMemberInfo => do return .groupMemberInfo (← desiredGroupMemberInfo value)

end MigangBot.ApiTypes
