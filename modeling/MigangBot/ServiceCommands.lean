import MigangBot.ServiceManagement
import MigangBot.MessageUtility
import MigangBot.Lib.Runs

namespace MigangBot.ServiceCommands

open Lib.Exceptions Lib.Runs Text JsonValue ApiTypes Permission MessageUtility Services ServiceStatus
  ServiceManagement

def permissionStr : List Bytes :=
  [bytes "黑名单", bytes "通常", bytes "私聊", bytes "群成员", bytes "群管理员", bytes "群主",
    bytes "白名单", bytes "白", bytes "法外之地"]

def svModule : List Registration :=
  [⟨bytes "__sv_control_enable__", alwaysOn, true⟩, ⟨bytes "__sv_control_disable__", alwaysOn, true⟩,
    ⟨bytes "__lssv__", superuser, true⟩, ⟨bytes "__lssv_bundle__", superuser, true⟩]

structure GroupMsg where
  groupId : GId
  message : Bytes

/-- The table is indexed without a check. -/
def permissionText (perm : Int) : Outcome Bytes :=
  if 0 ≤ perm then
    match permissionStr[perm.toNat]? with
    | some text => .ok text
    | none => .error .undefined
  else .error .undefined

/-- The last character, the blank after the last permission, becomes the
closing bracket. -/
def hintMsg (perms : List Int) : Outcome Bytes := do
  let hint ← perms.foldlM (fun hint perm => do return hint ++ (← permissionText perm) ++ bytes " ")
    (bytes "当前服务(们)所需管理权限(们)为:[")
  return hint.dropLast ++ bytes "]"

/-- The two handlers differ in the call they make and in two words. All that
can throw stands before the call. -/
def handleSv (enable : Bool) (word : Bytes) (config : Config) (event : Object) (sm : ServiceManager)
    (disk : Disk) : Outcome (List GroupMsg × ServiceManager × Disk) := do
  if !event.contains "group_id" then return ([], sm, disk)
  let groupId ← (← event.constIndex "group_id").getUInt64
  let serviceName ← strip (← extraPlainText event) (char ' ')
  let perm ← getUserPermission config event
  if serviceName.isEmpty then return ([], sm, disk)
  if !sm.checkService serviceName then
    return ([⟨groupId, bytes "服务[" ++ serviceName ++ bytes "]不存在"⟩], sm, disk)
  let (ret, sm, disk) ← change sm ⟨serviceName, enable, groupId, perm⟩ disk
  if ret then return ([⟨groupId, bytes "已成功" ++ word ++ bytes "服务[" ++ serviceName ++ bytes "]"⟩], sm, disk)
  else
    let hint ← hintMsg (sm.checkPermission serviceName)
    return ([⟨groupId, bytes "未能(完全)" ++ word ++ bytes "服务[" ++ serviceName ++
      bytes "]，权限不足。" ++ hint⟩], sm, disk)

def handleEnableSv : Config → Object → ServiceManager → Disk → Outcome (List GroupMsg × ServiceManager × Disk) :=
  handleSv true (bytes "启用")

def handleDisableSv : Config → Object → ServiceManager → Disk → Outcome (List GroupMsg × ServiceManager × Disk) :=
  handleSv false (bytes "禁用")

/-- A command with the configuration in force when it is handled. -/
structure Command where
  enable : Bool
  config : Config
  event : Object

def handle (c : Command) (st : ServiceManager × Disk) : Outcome (List GroupMsg × ServiceManager × Disk) :=
  if c.enable then handleEnableSv c.config c.event st.1 st.2 else handleDisableSv c.config c.event st.1 st.2

inductive Step : ServiceManager × Disk → Command → ServiceManager × Disk → Prop
  | returned {c : Command} {st st' : ServiceManager × Disk} {replies : List GroupMsg} :
      handle c st = .ok (replies, st') → Step st c st'
  | thrown {c : Command} {st : ServiceManager × Disk} {e : Exception} :
      handle c st = .error (.thrown e) → Step st c st

theorem rolePermission_le (role : Bytes) : rolePermission role ≤ superuser := by
  rw [rolePermission]
  split
  · decide
  split
  · decide
  split <;> decide

theorem senderPermission_le {event : Object} {perm : Int} (h : senderPermission event = .ok perm) :
    perm ≤ superuser := by
  rw [senderPermission] at h
  split at h
  · simp only [bind_eq_ok] at h
    obtain ⟨_, _, _, _, role, _, h⟩ := h
    cases h
    exact rolePermission_le role
  · cases h
    decide

theorem chatPermission_le {event : Object} {perm : Int} (h : chatPermission event = .ok perm) :
    perm ≤ superuser := by
  simp only [chatPermission, bind_eq_ok] at h
  obtain ⟨_, _, messageType, _, h⟩ := h
  split at h
  · split at h
    · cases h
      decide
    · exact senderPermission_le h
  · cases h
    decide

/-- No event gives its sender the rank that only stands in services. -/
theorem getUserPermission_le {config : Config} {event : Object} {perm : Int}
    (h : getUserPermission config event = .ok perm) : perm ≤ superuser := by
  simp only [getUserPermission, bind_eq_ok] at h
  obtain ⟨_, _, userId, _, h⟩ := h
  split at h
  · cases h
    decide
  split at h
  · cases h
    decide
  · exact chatPermission_le h

theorem handleSv_change {enable : Bool} {word : Bytes} {config : Config} {event : Object}
    {sm sm' : ServiceManager} {disk disk' : Disk} {replies : List GroupMsg}
    (h : handleSv enable word config event sm disk = .ok (replies, sm', disk')) :
    (sm' = sm ∧ disk' = disk) ∨ ∃ name g perm ret, perm ≤ superuser ∧
      change sm ⟨name, enable, g, perm⟩ disk = .ok (ret, sm', disk') := by
  rw [handleSv] at h
  split at h
  · cases h
    exact .inl ⟨rfl, rfl⟩
  simp only [bind_eq_ok] at h
  obtain ⟨_, _, groupId, _, _, _, serviceName, _, perm, hperm, h⟩ := h
  split at h
  · cases h
    exact .inl ⟨rfl, rfl⟩
  split at h
  · cases h
    exact .inl ⟨rfl, rfl⟩
  simp only [bind_eq_ok] at h
  obtain ⟨⟨ret, sm₁, disk₁⟩, hchange, h⟩ := h
  refine .inr ⟨serviceName, groupId, perm, ret, getUserPermission_le hperm, ?_⟩
  rw [hchange]
  split at h
  · cases h
    rfl
  · simp only [bind_eq_ok] at h
    obtain ⟨_, _, h⟩ := h
    cases h
    rfl

structure Kept (r : Registration) (s : Service) : Prop where
  serviceName : s.serviceName = r.serviceName
  managePermission : s.managePermission = r.managePermission
  writable : Writable s
  groupStatus : r.managePermission = alwaysOn → ∀ g, s.groupStatus g = r.enableOnDefault

theorem Kept.of_created {r : Registration} {disk : Disk} {s : Service} (h : Created r disk s) : Kept r s := by
  obtain ⟨hn, hp⟩ := new_names h
  by_cases hm : r.managePermission = alwaysOn
  · cases created_unique h (new_alwaysOn hm disk)
    refine ⟨rfl, rfl, .inl rfl, fun _ g => ?_⟩
    rw [Service.groupStatus]
    cases r.enableOnDefault <;> rfl
  · obtain ⟨o, hc, _⟩ := (new_saved h hm).1.config
    exact ⟨hn, hp, .inr ⟨o, hc⟩, fun h' => absurd h' hm⟩

theorem Kept.afterRange {r : Registration} {s : Service} (h : Kept r s) (name : Bytes) {c : Call}
    (hc : c.permission ≤ superuser) : Kept r (afterRange name c s) := by
  rw [ServiceManagement.afterRange]
  split
  next =>
    refine ⟨by rw [after_serviceName, h.serviceName], by rw [after_managePermission, h.managePermission],
      after_writable h.writable c, fun hm g => ?_⟩
    rw [after_groupStatus, if_neg, h.groupStatus hm]
    rintro ⟨_, hle⟩
    rw [h.managePermission, hm] at hle
    have h87 := Int.le_trans hle hc
    exact absurd h87 (by decide)
  next => exact h

theorem step_kept {registrations : List Registration} {st st' : ServiceManager × Disk} {c : Command}
    (hk : List.Forall₂ Kept registrations st.1.serviceNameMap) (h : Step st c st') :
    List.Forall₂ Kept registrations st'.1.serviceNameMap := by
  obtain ⟨sm', disk'⟩ := st'
  cases h with
  | thrown _ => exact hk
  | @returned _ _ _ replies h =>
      have hw : ∀ s ∈ st.1.serviceNameMap, Writable s := by
        intro s hs
        obtain ⟨i, rfl⟩ := List.mem_iff_get.mp hs
        exact ((List.forall₂_iff_get.mp hk).2 i.1 (by rw [hk.length_eq]; exact i.2) i.2).writable
      obtain ⟨word, hword⟩ : ∃ word, handleSv c.enable word c.config c.event st.1 st.2 = .ok (replies, sm', disk') := by
        rw [handle] at h
        cases he : c.enable with
        | true => exact ⟨_, by rw [he] at h; exact h⟩
        | false => exact ⟨_, by rw [he] at h; exact h⟩
      rcases handleSv_change hword with ⟨hsm, _⟩ | ⟨name, g, perm, ret, hperm, hchange⟩
      · rw [hsm]
        exact hk
      · rw [change_eq_after _ _ hw] at hchange
        cases hchange
        rw [List.forall₂_map_right_iff]
        exact hk.imp fun r s hrs => hrs.afterRange name hperm

/-- After every history of commands on the services of a start. -/
theorem always_on_kept {registrations : List Registration} {disk disk₀ : Disk} {sm : ServiceManager}
    (h : registerAll registrations disk = .ok (sm, disk₀)) {commands : List Command}
    {st : ServiceManager × Disk} (hrun : Run Step (sm, disk₀) commands st) :
    List.Forall₂ (fun r s => s.serviceName = r.serviceName ∧ s.managePermission = r.managePermission ∧
      (r.managePermission = alwaysOn → ∀ g, s.groupStatus g = r.enableOnDefault ∧
        ∀ usePermission onlyToMe,
          TriggeredService.checkIsEnable ⟨s, usePermission, onlyToMe⟩ g = r.enableOnDefault))
      registrations st.1.serviceNameMap := by
  obtain ⟨_, ts, rfl, hts⟩ := registerAll_created h
  have hstart : List.Forall₂ Kept registrations ts := hts.imp fun r s hr => Kept.of_created hr
  have hk := hrun.invariant (fun st => List.Forall₂ Kept registrations st.1.serviceNameMap)
    (fun st c st' hk hs => step_kept hk hs) hstart
  exact hk.imp fun r s hrs => ⟨hrs.serviceName, hrs.managePermission,
    fun hm g => ⟨hrs.groupStatus hm g, fun _ _ => hrs.groupStatus hm g⟩⟩

def disableCommand : Command where
  enable := false
  config := ⟨[42], [], []⟩
  event := [("group_id", .numberUnsigned 7), ("user_id", .numberUnsigned 42),
    ("message", .string (bytes "__sv_control_enable__"))]

theorem always_on_kept_disable :
    ∃ sm disk st, registerAll svModule (fun _ => none) = .ok (sm, disk) ∧
      Run Step (sm, disk) [disableCommand] st ∧
      ∃ s ∈ st.1.serviceNameMap, s.serviceName = bytes "__sv_control_enable__" ∧ s.groupStatus 7 = true := by
  obtain ⟨sm, disk, st, h, hrun⟩ : ∃ sm disk st, registerAll svModule (fun _ => none) = .ok (sm, disk) ∧
      Run Step (sm, disk) [disableCommand] st :=
    ⟨_, _, _, rfl, .cons (.returned rfl) (.nil _)⟩
  obtain ⟨s, rest, ⟨hname, _, hstatus⟩, _, hst⟩ := List.forall₂_cons_left_iff.mp (always_on_kept h hrun)
  refine ⟨sm, disk, st, h, hrun, s, ?_, hname, (hstatus rfl 7).1⟩
  rw [hst]
  exact List.mem_cons_self

end MigangBot.ServiceCommands
