import MigangBot.ApiTypes

namespace MigangBot.Permission

open Lib.Exceptions Text JsonValue ApiTypes

def black : Int := 0
def normal : Int := 1
def privateChat : Int := 2
def groupMember : Int := 3
def groupAdmin : Int := 4
def groupOwner : Int := 5
def whiteList : Int := 6
def superuser : Int := 7
def alwaysOn : Int := 8

structure Config where
  superusers : List QId
  whiteList : List QId
  botName : Bytes

/-- Subscript zero of a std::string, which an empty one has too. -/
def first (s : Bytes) : UInt8 := s.headD 0

def isAnonymous (event : Object) : Bool :=
  match event.find "anonymous" with
  | some v => !v.isNull
  | none => false

def hasRole (event : Object) : Bool :=
  match event.find "sender" with
  | some sender => sender.contains "role"
  | none => false

def rolePermission (role : Bytes) : Int :=
  if first role = char 'm' then groupMember
  else if first role = char 'a' then groupAdmin
  else if first role = char 'o' then groupOwner
  else groupMember

def senderPermission (event : Object) : Outcome Int :=
  if hasRole event then do
    let role ← (← (← event.constIndex "sender").constIndex "role").getString
    return rolePermission role
  else .ok groupMember

def chatPermission (event : Object) : Outcome Int := do
  let messageType ← (← event.constIndex "message_type").getString
  if first messageType = char 'g' then
    if isAnonymous event then return normal else senderPermission event
  else return privateChat

def getUserPermission (config : Config) (event : Object) : Outcome Int := do
  let userId ← (← event.constIndex "user_id").getUInt64
  if userId ∈ config.superusers then return superuser
  else if userId ∈ config.whiteList then return whiteList
  else chatPermission event

end MigangBot.Permission
