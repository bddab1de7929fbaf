import MigangBot.Permission

namespace MigangBot.Services

open Lib.Exceptions Text JsonValue ApiTypes Permission

abbrev Disk := Bytes → Option Json

/-- The set of groups is kept in the order its elements came. -/
structure Service where
  managePermission : Int
  enableOnDefault : Bool
  groups : List GId
  serviceName : Bytes
  config : Json

def Service.configPath (s : Service) : Bytes := s.serviceName ++ bytes ".json"

def emplace (groups : List GId) (g : GId) : List GId := if g ∈ groups then groups else groups ++ [g]

def readGroups (list : Json) : Outcome (List GId) := do
  (← list.items).mapM Json.getUInt64

/-- A missing file is written with the defaults, an existing one is read. -/
def Service.openConfig (s : Service) (disk : Disk) : Outcome (Json × Disk) :=
  match disk s.configPath with
  | none => do
      let config ← s.config.setIndex "enable_on_default" (.boolean s.enableOnDefault)
      let config ← config.setIndex "groups" (.array [])
      return (config, Function.update disk s.configPath (some config))
  | some file => .ok (file, disk)

def Service.readConfig (s : Service) (config : Json) : Outcome Service := do
  let (config, enable) ← config.index "enable_on_default"
  let enableOnDefault ← enable.getBool
  let (config, list) ← config.index "groups"
  let loaded ← readGroups list
  return { s with
    enableOnDefault := enableOnDefault
    groups := loaded.foldl emplace s.groups
    config := config }

def Service.loadConfig (s : Service) (disk : Disk) : Outcome (Service × Disk) :=
  if s.managePermission = alwaysOn then .ok (s, disk)
  else do
    let (config, disk) ← s.openConfig disk
    return (← s.readConfig config, disk)

def Service.new (serviceName : Bytes) (managePermission : Int) (enableOnDefault : Bool) (disk : Disk) :
    Outcome (Service × Disk) :=
  Service.loadConfig ⟨managePermission, enableOnDefault, [], serviceName, .null⟩ disk

def Service.saveConfig (s : Service) (disk : Disk) : Outcome (Service × Disk) := do
  let config ← s.config.setIndex "groups" (.array (s.groups.map .numberUnsigned))
  return ({ s with config := config }, Function.update disk s.configPath (some config))

/-- GroupEnable and GroupDisable do the same with the branches exchanged: one
takes the group out of the set and saves, the other puts it in and saves only
then. -/
def Service.changeGroup (s : Service) (erases : Bool) (g : GId) (permission : Int) (disk : Disk) :
    Outcome (Bool × Service × Disk) :=
  if permission < s.managePermission then .ok (false, s, disk)
  else if erases then do
    let saved ← Service.saveConfig { s with groups := s.groups.filter (· != g) } disk
    return (true, saved)
  else if g ∈ s.groups then .ok (true, s, disk)
  else do
    let saved ← Service.saveConfig { s with groups := emplace s.groups g } disk
    return (true, saved)

def Service.groupEnable (s : Service) (g : GId) (permission : Int) (disk : Disk) :
    Outcome (Bool × Service × Disk) :=
  s.changeGroup s.enableOnDefault g permission disk

def Service.groupDisable (s : Service) (g : GId) (permission : Int) (disk : Disk) :
    Outcome (Bool × Service × Disk) :=
  s.changeGroup (!s.enableOnDefault) g permission disk

def Service.groupStatus (s : Service) (g : GId) : Bool :=
  if s.enableOnDefault then !decide (g ∈ s.groups) else decide (g ∈ s.groups)

structure TriggeredService extends Service where
  usePermission : Int
  onlyToMe : Bool

def TriggeredService.checkPerm (s : TriggeredService) (permission : Int) : Bool :=
  decide (s.usePermission ≤ permission)

def TriggeredService.checkIsEnable (s : TriggeredService) (g : GId) : Bool :=
  if s.enableOnDefault then !decide (g ∈ s.groups) else decide (g ∈ s.groups)

def TriggeredService.checkToMe (s : TriggeredService) (toMe : Bool) : Bool := !s.onlyToMe || toMe

structure ScheduleService extends Service

/-- The list of groups is not asked for when the listed groups are the enabled
ones. -/
def ScheduleService.getEnableGroup (s : ScheduleService) (groupList : Outcome (List GroupInfo)) :
    Outcome (List GId) :=
  if !s.enableOnDefault then .ok s.groups
  else do
    let groups ← groupList
    return (groups.filter (fun info => !decide (info.groupId ∈ s.groups))).map (fun info => info.groupId)

/-- The messages that a bot sends, each with its group, in order. -/
def ScheduleService.broadCast (s : ScheduleService) (groupList : Outcome (List GroupInfo))
    (messages : List Bytes) : Outcome (List (GId × Bytes)) := do
  let groups ← s.getEnableGroup groupList
  return messages.flatMap (fun m => groups.map (fun g => (g, m)))

end MigangBot.Services
