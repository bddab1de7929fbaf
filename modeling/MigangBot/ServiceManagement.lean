import MigangBot.ServiceStatus
import Mathlib.Data.List.Forall2

namespace MigangBot.ServiceManagement

open Lib.Exceptions Text JsonValue ApiTypes Permission Services ServiceStatus

structure Registration where
  serviceName : Bytes
  managePermission : Int
  enableOnDefault : Bool

/-- A multimap from names: services of one name stand in the order of their
registration, and that is the only order any call looks at. -/
structure ServiceManager where
  serviceNameMap : List Service

def ServiceManager.registerService (sm : ServiceManager) (s : Service) : ServiceManager :=
  ⟨sm.serviceNameMap ++ [s]⟩

def ServiceManager.checkService (sm : ServiceManager) (serviceName : Bytes) : Bool :=
  sm.serviceNameMap.any (fun s => s.serviceName == serviceName)

def ServiceManager.equalRange (sm : ServiceManager) (serviceName : Bytes) : List Service :=
  sm.serviceNameMap.filter (fun s => s.serviceName == serviceName)

def ServiceManager.checkPermission (sm : ServiceManager) (serviceName : Bytes) : List Int :=
  (sm.equalRange serviceName).map Service.managePermission

def forRange (serviceName : Bytes) (f : Service → Disk → Outcome (Bool × Service × Disk)) :
    List Service → Bool → Disk → Outcome (Bool × List Service × Disk)
  | [], ret, disk => .ok (ret, [], disk)
  | s :: rest, ret, disk =>
      if s.serviceName = serviceName then do
        let (b, t, disk) ← f s disk
        let (ret, rest, disk) ← forRange serviceName f rest (ret && b) disk
        return (ret, t :: rest, disk)
      else do
        let (ret, rest, disk) ← forRange serviceName f rest ret disk
        return (ret, s :: rest, disk)

def ServiceManager.groupEnable (sm : ServiceManager) (serviceName : Bytes) (g : GId) (permission : Int)
    (disk : Disk) : Outcome (Bool × ServiceManager × Disk) := do
  let (ret, services, disk) ←
    forRange serviceName (fun s => s.groupEnable g permission) sm.serviceNameMap true disk
  return (ret, ⟨services⟩, disk)

def ServiceManager.groupDisable (sm : ServiceManager) (serviceName : Bytes) (g : GId) (permission : Int)
    (disk : Disk) : Outcome (Bool × ServiceManager × Disk) := do
  let (ret, services, disk) ←
    forRange serviceName (fun s => s.groupDisable g permission) sm.serviceNameMap true disk
  return (ret, ⟨services⟩, disk)

def registerNew (p : ServiceManager × Disk) (r : Registration) : Outcome (ServiceManager × Disk) := do
  let (s, disk) ← Service.new r.serviceName r.managePermission r.enableOnDefault p.2
  return (p.1.registerService s, disk)

def registerAll (registrations : List Registration) (disk : Disk) : Outcome (ServiceManager × Disk) :=
  registrations.foldlM registerNew (⟨[]⟩, disk)

structure Request where
  serviceName : Bytes
  call : Call

def change (sm : ServiceManager) (r : Request) (disk : Disk) : Outcome (Bool × ServiceManager × Disk) :=
  if r.call.enable then sm.groupEnable r.serviceName r.call.groupId r.call.permission disk
  else sm.groupDisable r.serviceName r.call.groupId r.call.permission disk

def execAll (sm : ServiceManager) (disk : Disk) (rs : List Request) : Outcome (ServiceManager × Disk) :=
  rs.foldlM (fun p r => do return (← change p.1 r p.2).2) (sm, disk)

theorem change_eq (sm : ServiceManager) (r : Request) (disk : Disk) :
    change sm r disk = do
      let (ret, services, disk) ←
        forRange r.serviceName (fun s => call s r.call) sm.serviceNameMap true disk
      return (ret, ⟨services⟩, disk) := by
  have hcall : (fun s => call s r.call) = if r.call.enable then
      fun s => s.groupEnable r.call.groupId r.call.permission
      else fun s => s.groupDisable r.call.groupId r.call.permission := by
    funext s d
    rw [call]
    split <;> rfl
  rw [change, hcall]
  split <;> rfl

/-- What a service has become after a call whose saving cannot fail, and
whether that call made it save. -/
def savedConfig (config : Json) (groups : List GId) : Json :=
  let list := Json.array (groups.map .numberUnsigned)
  match config with
  | .object o => .object (Object.set o "groups" list)
  | _ => .object [("groups", list)]

def changedGroups (s : Service) (c : Call) : List GId :=
  if c.enable = s.enableOnDefault then s.groups.filter (· != c.groupId) else emplace s.groups c.groupId

def saves (s : Service) (c : Call) : Bool :=
  decide (s.managePermission ≤ c.permission) &&
    (c.enable == s.enableOnDefault || s.groupStatus c.groupId != c.enable)

def after (s : Service) (c : Call) : Service :=
  if saves s c then
    { s with groups := changedGroups s c, config := savedConfig s.config (changedGroups s c) }
  else s

def Writable (s : Service) : Prop := s.config = .null ∨ ∃ o, s.config = .object o

@[simp] theorem after_serviceName (s : Service) (c : Call) : (after s c).serviceName = s.serviceName := by
  rw [after]
  split <;> rfl

@[simp] theorem after_managePermission (s : Service) (c : Call) :
    (after s c).managePermission = s.managePermission := by
  rw [after]
  split <;> rfl

@[simp] theorem after_enableOnDefault (s : Service) (c : Call) :
    (after s c).enableOnDefault = s.enableOnDefault := by
  rw [after]
  split <;> rfl

theorem savedConfig_object (config : Json) (groups : List GId) :
    ∃ o, savedConfig config groups = .object o ∧ savedGroups (.object o) = .ok groups := by
  cases config with
  | object o => exact ⟨_, rfl, savedGroups_set o groups⟩
  | _ => exact ⟨_, rfl, readGroups_numbers groups⟩

theorem after_writable {s : Service} (h : Writable s) (c : Call) : Writable (after s c) := by
  rw [after]
  split
  · exact .inr ⟨_, (savedConfig_object s.config (changedGroups s c)).choose_spec.1⟩
  · exact h

theorem saveConfig_writable {s : Service} (h : Writable s) (disk : Disk) :
    s.saveConfig disk = .ok ({ s with config := savedConfig s.config s.groups },
      Function.update disk s.configPath (some (savedConfig s.config s.groups))) := by
  rcases h with h | ⟨o, h⟩ <;> simp only [Service.saveConfig, savedConfig, h, Json.setIndex, ok_bind] <;> rfl

theorem groupStatus_ne_iff (s : Service) (c : Call) (h : c.enable ≠ s.enableOnDefault) :
    (s.groupStatus c.groupId != c.enable) = !decide (c.groupId ∈ s.groups) := by
  rw [Service.groupStatus]
  cases hc : c.enable <;> cases hs : s.enableOnDefault <;> simp_all

/-- One call, as long as the service's configuration can be written. -/
theorem call_eq_after {s : Service} (h : Writable s) (c : Call) (disk : Disk) :
    call s c disk = .ok (decide (s.managePermission ≤ c.permission), after s c,
      if saves s c then Function.update disk s.configPath (some (after s c).config) else disk) := by
  rw [call_eq, Service.changeGroup]
  by_cases hp : s.managePermission ≤ c.permission
  · rw [if_neg (by omega)]
    by_cases he : c.enable = s.enableOnDefault
    · have hs : saves s c = true := by simp [saves, hp, he]
      have hw : Writable { s with groups := s.groups.filter (· != c.groupId) } := h
      simp only [he, beq_self_eq_true, if_true, saveConfig_writable hw, after, hs, changedGroups, hp,
        decide_true]
      rfl
    · have hs : saves s c = !decide (c.groupId ∈ s.groups) := by
        simp [saves, hp, he, groupStatus_ne_iff s c he]
      have hb : (c.enable == s.enableOnDefault) = false := by simpa using he
      by_cases hg : c.groupId ∈ s.groups
      · simp [hb, hg, hs, after, hp]
      · have hw : Writable { s with groups := emplace s.groups c.groupId } := h
        simp only [hb, Bool.false_eq_true, if_false, hg, saveConfig_writable hw, after, hs, changedGroups,
          hp, he, decide_true, decide_false, Bool.not_false, if_true]
        rfl
  · have hs : saves s c = false := by simp [saves, hp]
    simp [show c.permission < s.managePermission by omega, hs, after, hp]

theorem after_groupStatus (s : Service) (c : Call) (g : GId) :
    (after s c).groupStatus g =
      if g = c.groupId ∧ s.managePermission ≤ c.permission then c.enable else s.groupStatus g := by
  by_cases hs : saves s c = true
  · have hp : s.managePermission ≤ c.permission := by
      simp only [saves, Bool.and_eq_true, decide_eq_true_eq] at hs
      exact hs.1
    rw [after, if_pos hs]
    simp only [hp, and_true]
    apply groupStatus_changed
    intro g'
    rw [changedGroups]
    by_cases he : c.enable = s.enableOnDefault <;> by_cases hg : g' = c.groupId <;>
      simp [he, hg, mem_emplace]
  · rw [after, if_neg hs]
    split
    next h =>
      simp only [saves, h.2, decide_true, Bool.true_and, Bool.or_eq_true, not_or] at hs
      rw [h.1]
      simpa using hs.2
    next => rfl

theorem afterAll_serviceName (s : Service) (cs : List Call) :
    (cs.foldl after s).serviceName = s.serviceName := by
  induction cs generalizing s with
  | nil => rfl
  | cons c cs ih => rw [List.foldl_cons, ih, after_serviceName]

theorem afterAll_managePermission (s : Service) (cs : List Call) :
    (cs.foldl after s).managePermission = s.managePermission := by
  induction cs generalizing s with
  | nil => rfl
  | cons c cs ih => rw [List.foldl_cons, ih, after_managePermission]

theorem afterAll_enableOnDefault (s : Service) (cs : List Call) :
    (cs.foldl after s).enableOnDefault = s.enableOnDefault := by
  induction cs generalizing s with
  | nil => rfl
  | cons c cs ih => rw [List.foldl_cons, ih, after_enableOnDefault]

theorem afterAll_writable {s : Service} (h : Writable s) (cs : List Call) :
    Writable (cs.foldl after s) := by
  induction cs generalizing s with
  | nil => exact h
  | cons c cs ih => exact ih (after_writable h c)

theorem afterAll_groupStatus (s : Service) (cs : List Call) (g : GId) :
    (cs.foldl after s).groupStatus g = lastEffective s.managePermission (s.groupStatus g) cs g := by
  induction cs using List.reverseRecOn with
  | nil => rfl
  | append_singleton cs c ih =>
      rw [List.foldl_append, List.foldl_cons, List.foldl_nil, after_groupStatus, ih,
        afterAll_managePermission, lastEffective_snoc]

def named (services : List Service) (name : Bytes) : List Service :=
  services.filter (fun s => s.serviceName == name)

def afterRange (name : Bytes) (c : Call) (s : Service) : Service :=
  if s.serviceName = name then after s c else s

/-- Of the services of one name that save on a call the last one leaves its
configuration in their file. -/
def diskAfter (name : Bytes) (c : Call) (services : List Service) (disk : Disk) : Disk :=
  match ((named services name).filter (fun s => saves s c)).getLast? with
  | some s => Function.update disk s.configPath (some (after s c).config)
  | none => disk

theorem configPath_eq_iff (s t : Service) :
    s.configPath = t.configPath ↔ s.serviceName = t.serviceName := by
  rw [Service.configPath, Service.configPath, List.append_left_inj]

theorem diskAfter_cons_named {name : Bytes} {s : Service} (hs : s.serviceName = name) (c : Call)
    (services : List Service) (disk : Disk) :
    diskAfter name c (s :: services) disk =
      diskAfter name c services
        (if saves s c then Function.update disk s.configPath (some (after s c).config) else disk) := by
  have hn : named (s :: services) name = s :: named services name := by simp [named, hs]
  rw [diskAfter, diskAfter, hn, List.filter_cons]
  by_cases hsave : saves s c = true
  · rw [if_pos hsave, if_pos hsave, List.getLast?_cons]
    cases hl : ((named services name).filter (fun t => saves t c)).getLast? with
    | none => rfl
    | some t =>
        have ht : t ∈ named services name := List.mem_of_mem_filter (List.mem_of_getLast? hl)
        have hpath : t.configPath = s.configPath := by
          rw [configPath_eq_iff, hs]
          simpa using List.of_mem_filter ht
        simp only [Option.getD_some, hpath, Function.update_idem]
  · rw [if_neg hsave, if_neg hsave]

theorem diskAfter_cons_other {name : Bytes} {s : Service} (hs : s.serviceName ≠ name) (c : Call)
    (services : List Service) (disk : Disk) :
    diskAfter name c (s :: services) disk = diskAfter name c services disk := by
  have hn : named (s :: services) name = named services name := by simp [named, hs]
  rw [diskAfter, diskAfter, hn]

theorem forRange_eq (name : Bytes) (c : Call) {services : List Service}
    (hw : ∀ s ∈ services, Writable s) (ret : Bool) (disk : Disk) :
    forRange name (fun s => call s c) services ret disk =
      .ok (ret && (named services name).all (fun s => decide (s.managePermission ≤ c.permission)),
        services.map (afterRange name c), diskAfter name c services disk) := by
  induction services generalizing ret disk with
  | nil => simp [forRange, named, diskAfter]
  | cons s services ih =>
      have ih' := ih (fun t ht => hw t (List.mem_cons_of_mem _ ht))
      rw [forRange]
      by_cases hs : s.serviceName = name
      · rw [if_pos hs, call_eq_after (hw s List.mem_cons_self), ok_bind, diskAfter_cons_named hs]
        simp only [ih', ok_bind]
        simp [named, hs, afterRange, Bool.and_assoc]
        rfl
      · rw [if_neg hs, diskAfter_cons_other hs, ih', ok_bind]
        simp [named, hs, afterRange]
        rfl

theorem change_eq_after (sm : ServiceManager) (r : Request)
    (hw : ∀ s ∈ sm.serviceNameMap, Writable s) (disk : Disk) :
    change sm r disk = .ok
      ((named sm.serviceNameMap r.serviceName).all (fun s => decide (s.managePermission ≤ r.call.permission)),
        ⟨sm.serviceNameMap.map (afterRange r.serviceName r.call)⟩,
        diskAfter r.serviceName r.call sm.serviceNameMap disk) := by
  rw [change_eq, forRange_eq r.serviceName r.call hw, ok_bind, Bool.true_and]
  rfl

def Created (r : Registration) (disk : Disk) (s : Service) : Prop :=
  Service.new r.serviceName r.managePermission r.enableOnDefault disk = .ok (s, disk)

def Extends (disk e : Disk) : Prop := ∀ path file, disk path = some file → e path = some file

/-- Constructing a service adds at most its own file, and constructed once more
it comes out the same. -/
theorem new_again {r : Registration} {disk d : Disk} {s : Service}
    (h : Service.new r.serviceName r.managePermission r.enableOnDefault disk = .ok (s, d)) :
    Extends disk d ∧ ∀ e, Extends d e → Created r e s := by
  by_cases hm : r.managePermission = alwaysOn
  · simp only [Service.new, Service.loadConfig, if_pos hm] at h
    cases h
    exact ⟨fun _ _ hf => hf, fun e _ => by simp only [Created, Service.new, Service.loadConfig, if_pos hm]⟩
  · simp only [Service.new, Service.loadConfig, if_neg hm, bind_eq_ok] at h
    obtain ⟨⟨config, d'⟩, ho, s', hr, h⟩ := h
    cases h
    have hfile := openConfig_file ho
    refine ⟨fun path file hp => ?_, fun e he => ?_⟩
    · rw [Service.openConfig] at ho
      split at ho
      next hnone =>
        simp only [bind_eq_ok] at ho
        obtain ⟨_, _, _, _, ho⟩ := ho
        cases ho
        refine (Function.update_of_ne ?_ _ _).trans hp
        rintro rfl
        rw [hnone] at hp
        cases hp
      next =>
        cases ho
        exact hp
    · simp only [Created, Service.new, Service.loadConfig, if_neg hm, Service.openConfig,
        he _ _ hfile, ok_bind, hr]
      rfl

theorem new_names {r : Registration} {disk d : Disk} {s : Service}
    (h : Service.new r.serviceName r.managePermission r.enableOnDefault disk = .ok (s, d)) :
    s.serviceName = r.serviceName ∧ s.managePermission = r.managePermission := by
  by_cases hm : r.managePermission = alwaysOn
  · simp only [Service.new, Service.loadConfig, if_pos hm] at h
    cases h
    exact ⟨rfl, rfl⟩
  · obtain ⟨_, hp, hn⟩ := new_saved h hm
    exact ⟨hn, hp⟩

theorem created_unique {r : Registration} {disk : Disk} {s t : Service} (hs : Created r disk s)
    (ht : Created r disk t) : s = t := by
  rw [Created, hs] at ht
  cases ht
  rfl

theorem new_alwaysOn {r : Registration} (hm : r.managePermission = alwaysOn) (disk : Disk) :
    Created r disk ⟨r.managePermission, r.enableOnDefault, [], r.serviceName, .null⟩ := by
  simp only [Created, Service.new, Service.loadConfig, if_pos hm]

theorem registerAll_created {registrations : List Registration} {acc : List Service} {disk e : Disk}
    {sm : ServiceManager}
    (h : registrations.foldlM registerNew (⟨acc⟩, disk) = .ok (sm, e)) :
    Extends disk e ∧ ∃ ts, sm = ⟨acc ++ ts⟩ ∧ List.Forall₂ (fun r s => Created r e s) registrations ts := by
  induction registrations generalizing acc disk with
  | nil =>
      cases h
      exact ⟨fun _ _ hf => hf, [], by simp, .nil⟩
  | cons r registrations ih =>
      simp only [List.foldlM_cons, registerNew, bind_eq_ok] at h
      obtain ⟨_, ⟨⟨s, d⟩, hnew, hp⟩, h⟩ := h
      cases hp
      obtain ⟨hext, ts, rfl, hts⟩ := ih h
      obtain ⟨hext', hagain⟩ := new_again hnew
      exact ⟨fun path file hf => hext _ _ (hext' _ _ hf), s :: ts, by simp, .cons (hagain e hext) hts⟩

theorem registerAll_of_created {registrations : List Registration} {ts acc : List Service} {disk : Disk}
    (h : List.Forall₂ (fun r s => Created r disk s) registrations ts) :
    registrations.foldlM registerNew (⟨acc⟩, disk) = .ok (⟨acc ++ ts⟩, disk) := by
  induction h generalizing acc with
  | nil => simp; rfl
  | @cons r s registrations ts hr _ ih =>
      rw [Created] at hr
      rw [List.foldlM_cons, registerNew, hr]
      rw [show acc ++ s :: ts = acc ++ [s] ++ ts by simp]
      exact ih

end MigangBot.ServiceManagement
