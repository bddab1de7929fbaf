import MigangBot.Services
import Mathlib.Data.List.Induction

namespace MigangBot.ServiceStatus

open Lib.Exceptions Text JsonValue ApiTypes Permission Services

structure Call where
  enable : Bool
  groupId : GId
  permission : Int

def call (s : Service) (c : Call) (disk : Disk) : Outcome (Bool × Service × Disk) :=
  if c.enable then s.groupEnable c.groupId c.permission disk
  else s.groupDisable c.groupId c.permission disk

def exec (s : Service) (disk : Disk) (cs : List Call) : Outcome (Service × Disk) :=
  cs.foldlM (fun p c => do return (← call p.1 c p.2).2) (s, disk)

def lastEffective (managePermission : Int) (initial : Bool) (cs : List Call) (g : GId) : Bool :=
  ((cs.filter fun c => c.groupId = g ∧ managePermission ≤ c.permission).getLast?.map Call.enable).getD
    initial

def savedGroups (file : Json) : Outcome (List GId) := do
  readGroups (← file.index "groups").2

structure Saved (s : Service) (disk : Disk) : Prop where
  config : ∃ o : Object, s.config = .object o ∧
    Object.find o "enable_on_default" = some (.boolean s.enableOnDefault)
  file : ∃ o : Object, disk s.configPath = some (.object o) ∧
    Object.find o "enable_on_default" = some (.boolean s.enableOnDefault) ∧
    ∃ gs, savedGroups (.object o) = .ok gs ∧ ∀ g, g ∈ gs ↔ g ∈ s.groups

theorem call_eq (s : Service) (c : Call) (disk : Disk) :
    call s c disk = s.changeGroup (c.enable == s.enableOnDefault) c.groupId c.permission disk := by
  rw [call, Service.groupEnable, Service.groupDisable]
  cases c.enable <;> cases s.enableOnDefault <;> rfl

theorem mem_emplace {groups : List GId} {g g' : GId} : g' ∈ emplace groups g ↔ g' = g ∨ g' ∈ groups := by
  rw [emplace]
  split
  next h =>
    constructor
    · exact .inr
    · rintro (rfl | h')
      · exact h
      · exact h'
  next h => simp [or_comm]

theorem mem_foldl_emplace {gs groups : List GId} {g : GId} :
    g ∈ gs.foldl emplace groups ↔ g ∈ gs ∨ g ∈ groups := by
  induction gs generalizing groups with
  | nil => simp
  | cons a gs ih => simp [ih, mem_emplace, or_assoc, or_left_comm]

theorem readGroups_numbers (gs : List GId) : readGroups (.array (gs.map .numberUnsigned)) = .ok gs := by
  simp only [readGroups, Json.items, ok_bind]
  induction gs with
  | nil => rfl
  | cons g gs ih => simp [List.mapM_cons, Json.getUInt64, ih]

theorem savedGroups_set (o : Object) (gs : List GId) :
    savedGroups (.object (Object.set o "groups" (.array (gs.map .numberUnsigned)))) = .ok gs := by
  simp [savedGroups, Json.index, Object.index, readGroups_numbers]

theorem saveConfig_eq {s : Service} {o : Object} (hc : s.config = .object o) (disk : Disk) :
    let config := Json.object (Object.set o "groups" (.array (s.groups.map .numberUnsigned)))
    s.saveConfig disk =
      .ok ({ s with config := config }, Function.update disk s.configPath (some config)) := by
  simp only [Service.saveConfig, hc, Json.setIndex, ok_bind]
  rfl

theorem saveConfig_saved {s : Service} {o : Object} (hc : s.config = .object o)
    (he : Object.find o "enable_on_default" = some (.boolean s.enableOnDefault)) (disk : Disk) :
    ∃ config e, s.saveConfig disk = .ok ({ s with config := config }, e) ∧
      Saved { s with config := config } e := by
  have hfind : Object.find (Object.set o "groups" (.array (s.groups.map .numberUnsigned)))
      "enable_on_default" = some (.boolean s.enableOnDefault) := by
    rw [Object.find_set_ne _ _ (by decide), he]
  refine ⟨_, _, saveConfig_eq hc disk, ⟨_, rfl, hfind⟩, _, ?_, hfind, s.groups,
    savedGroups_set o s.groups, fun g => Iff.rfl⟩
  simp [Service.configPath]

theorem changeGroup_saved {s : Service} {disk : Disk} (h : Saved s disk) (erases : Bool) (g : GId)
    {permission : Int} (hp : s.managePermission ≤ permission) :
    ∃ groups config e, s.changeGroup erases g permission disk =
        .ok (true, { s with groups := groups, config := config }, e) ∧
      Saved { s with groups := groups, config := config } e ∧
      ∀ g', g' ∈ groups ↔ if g' = g then erases = false else g' ∈ s.groups := by
  obtain ⟨o, hc, he⟩ := h.config
  rw [Service.changeGroup, if_neg (by omega)]
  cases erases with
  | true =>
      obtain ⟨config, e, hs, hsaved⟩ :=
        saveConfig_saved (s := { s with groups := s.groups.filter (· != g) }) hc he disk
      refine ⟨_, config, e, by simp only [if_true, hs]; rfl, hsaved, fun g' => ?_⟩
      by_cases hg : g' = g <;> simp [hg]
  | false =>
      by_cases hg : g ∈ s.groups
      · refine ⟨s.groups, s.config, disk, by simp [hg], h, fun g' => ?_⟩
        by_cases hg' : g' = g <;> simp [hg', hg]
      · obtain ⟨config, e, hs, hsaved⟩ :=
          saveConfig_saved (s := { s with groups := emplace s.groups g }) hc he disk
        refine ⟨_, config, e, by simp only [hg, if_false, hs]; rfl, hsaved, fun g' => ?_⟩
        by_cases hg' : g' = g <;> simp [hg', mem_emplace]

theorem loadConfig_saved {s : Service} {disk : Disk} (h : Saved s disk) (t : Service)
    (hpath : t.configPath = s.configPath) (hm : t.managePermission ≠ alwaysOn)
    (hsub : ∀ g ∈ t.groups, g ∈ s.groups) :
    ∃ groups config, t.loadConfig disk =
        .ok ({ t with enableOnDefault := s.enableOnDefault, groups := groups, config := config }, disk) ∧
      ∀ g, g ∈ groups ↔ g ∈ s.groups := by
  obtain ⟨o, hfile, he, gs, hgs, hmem⟩ := h.file
  have hread : readGroups (Object.index o "groups").2 = .ok gs := hgs
  refine ⟨gs.foldl emplace t.groups, .object (Object.index o "groups").1, ?_, fun g => ?_⟩
  · simp only [Service.loadConfig, if_neg hm, Service.openConfig, hpath, hfile, ok_bind,
      Service.readConfig, Json.index, Object.index_of_find he, Json.getBool, hread]
    rfl
  · rw [mem_foldl_emplace, hmem]
    constructor
    · rintro (hg | hg)
      · exact hg
      · exact hsub g hg
    · exact .inl

theorem openConfig_file {s : Service} {disk e : Disk} {config : Json}
    (h : s.openConfig disk = .ok (config, e)) : e s.configPath = some config := by
  rw [Service.openConfig] at h
  cases hd : disk s.configPath with
  | none =>
      simp only [hd, bind_eq_ok] at h
      obtain ⟨c, _, c', _, h⟩ := h
      cases h
      simp
  | some file =>
      simp only [hd] at h
      cases h
      exact hd

theorem readConfig_eq_ok {s t : Service} {config : Json} (h : s.readConfig config = .ok t) :
    ∃ (o : Object) (gs : List GId), config = .object o ∧
      Object.find o "enable_on_default" = some (.boolean t.enableOnDefault) ∧
      readGroups (Object.index o "groups").2 = .ok gs ∧
      t = { s with
        enableOnDefault := t.enableOnDefault
        groups := gs.foldl emplace s.groups
        config := .object (Object.index o "groups").1 } := by
  simp only [Service.readConfig, bind_eq_ok] at h
  obtain ⟨⟨c, v⟩, hc, b, hb, ⟨c', list⟩, hl, gs, hgs, h⟩ := h
  cases v <;> simp only [Json.getBool, throwing, reduceCtorEq] at hb
  next b' =>
    cases hb
    cases config <;> simp only [Json.index, throwing, reduceCtorEq] at hc
    · cases hc
    next o =>
      have hfind : Object.find o "enable_on_default" = some (.boolean b) := by
        cases hf : Object.find o "enable_on_default" with
        | none => simp [Object.index, hf] at hc
        | some v =>
            rw [Object.index_of_find hf] at hc
            cases hc
            rfl
      rw [Object.index_of_find hfind] at hc
      cases hc
      cases hl
      cases h
      exact ⟨o, gs, rfl, hfind, hgs, rfl⟩

theorem new_saved {name : Bytes} {managePermission : Int} {enableOnDefault : Bool} {disk e : Disk}
    {s : Service} (h : Service.new name managePermission enableOnDefault disk = .ok (s, e))
    (hm : managePermission ≠ alwaysOn) :
    Saved s e ∧ s.managePermission = managePermission ∧ s.serviceName = name := by
  simp only [Service.new, Service.loadConfig, if_neg hm, bind_eq_ok] at h
  obtain ⟨⟨config, d⟩, ho, t, hr, h⟩ := h
  cases h
  have hfile := openConfig_file ho
  obtain ⟨o, gs, rfl, he, hgs, ht⟩ := readConfig_eq_ok hr
  have hpath : s.configPath = name ++ bytes ".json" := by rw [ht]; rfl
  refine ⟨⟨⟨(Object.index o "groups").1, by rw [ht], ?_⟩, o, ?_, he, gs, ?_, fun g => ?_⟩, ?_, ?_⟩
  · rw [Object.find_index_ne _ (by decide), he]
  · rw [hpath]
    exact hfile
  · exact hgs
  · rw [ht, mem_foldl_emplace]
    simp
  · rw [ht]
  · rw [ht]

theorem groupStatus_changed {s : Service} {c : Call} {groups : List GId} {config : Json}
    (hg : ∀ g, g ∈ groups ↔ if g = c.groupId then (c.enable == s.enableOnDefault) = false else g ∈ s.groups)
    (g : GId) : Service.groupStatus { s with groups := groups, config := config } g =
      if g = c.groupId then c.enable else s.groupStatus g := by
  simp only [Service.groupStatus, hg]
  by_cases hgc : g = c.groupId
  · simp only [hgc, if_true]
    cases c.enable <;> cases s.enableOnDefault <;> rfl
  · simp only [hgc, if_false]

/-- One call: it answers whether its permission sufficed, and only then the
group gets its direction. -/
theorem call_saved {s : Service} {disk : Disk} (h : Saved s disk) (c : Call) :
    ∃ t e, call s c disk = .ok (decide (s.managePermission ≤ c.permission), t, e) ∧ Saved t e ∧
      (c.permission < s.managePermission → t = s ∧ e = disk) ∧
      (t.managePermission = s.managePermission ∧ t.serviceName = s.serviceName) ∧
      ∀ g, t.groupStatus g =
        if g = c.groupId ∧ s.managePermission ≤ c.permission then c.enable else s.groupStatus g := by
  rw [call_eq]
  by_cases hp : s.managePermission ≤ c.permission
  · obtain ⟨groups, config, e, hcall, hsaved, hg⟩ := changeGroup_saved h (c.enable == s.enableOnDefault) c.groupId hp
    refine ⟨_, e, by rw [hcall]; simp [hp], hsaved, fun hlt => absurd hp (by omega), ⟨rfl, rfl⟩, fun g => ?_⟩
    simpa [hp] using groupStatus_changed hg g
  · refine ⟨s, disk, ?_, h, fun _ => ⟨rfl, rfl⟩, ⟨rfl, rfl⟩, fun g => by simp [hp]⟩
    rw [Service.changeGroup, if_pos (by omega)]
    simp [hp]

theorem lastEffective_snoc (managePermission : Int) (initial : Bool) (cs : List Call) (c : Call) (g : GId) :
    lastEffective managePermission initial (cs ++ [c]) g =
      if g = c.groupId ∧ managePermission ≤ c.permission then c.enable
      else lastEffective managePermission initial cs g := by
  rw [lastEffective, List.filter_append]
  by_cases hc : g = c.groupId ∧ managePermission ≤ c.permission
  · simp [hc]
  · have hc' : ¬ (c.groupId = g ∧ managePermission ≤ c.permission) := fun h => hc ⟨h.1.symm, h.2⟩
    rw [if_neg hc]
    simp [lastEffective, hc']

theorem exec_saved {s : Service} {disk : Disk} (h : Saved s disk) (cs : List Call) :
    ∃ t e, exec s disk cs = .ok (t, e) ∧ Saved t e ∧
      (t.managePermission = s.managePermission ∧ t.serviceName = s.serviceName) ∧
      ∀ g, t.groupStatus g = lastEffective s.managePermission (s.groupStatus g) cs g := by
  induction cs using List.reverseRecOn with
  | nil => exact ⟨s, disk, rfl, h, ⟨rfl, rfl⟩, fun g => rfl⟩
  | append_singleton cs c ih =>
      obtain ⟨t, e, ht, hsaved, ⟨hm, hn⟩, hstatus⟩ := ih
      obtain ⟨u, f, hu, hsaved', _, ⟨hm', hn'⟩, hstatus'⟩ := call_saved hsaved c
      refine ⟨u, f, ?_, hsaved', ⟨hm'.trans hm, hn'.trans hn⟩, fun g => ?_⟩
      · rw [exec] at ht ⊢
        rw [List.foldlM_append, ht, ok_bind, List.foldlM_cons, hu]
        rfl
      · rw [hstatus', hstatus, hm, lastEffective_snoc]

/-- After every sequence of calls on a new service. -/
theorem group_status {name : Bytes} {managePermission : Int} {enableOnDefault : Bool} {disk₀ d₀ : Disk}
    {s₀ : Service} (hnew : Service.new name managePermission enableOnDefault disk₀ = .ok (s₀, d₀))
    (hm : managePermission < alwaysOn) (cs : List Call) :
    ∃ s d, exec s₀ d₀ cs = .ok (s, d) ∧
      (∀ g, s.groupStatus g = lastEffective managePermission (s₀.groupStatus g) cs g ∧
        ∀ usePermission onlyToMe, TriggeredService.checkIsEnable ⟨s, usePermission, onlyToMe⟩ g =
          lastEffective managePermission (s₀.groupStatus g) cs g) ∧
      (∀ c, ∃ t e, call s c d = .ok (decide (managePermission ≤ c.permission), t, e) ∧
        (c.permission < managePermission → t = s ∧ e = d) ∧
        ∀ g, g ≠ c.groupId → t.groupStatus g = s.groupStatus g) ∧
      (∃ file gs, d s.configPath = some file ∧ savedGroups file = .ok gs ∧ ∀ g, g ∈ gs ↔ g ∈ s.groups) ∧
      (∃ t, s.loadConfig d = .ok (t, d) ∧ ∀ g, t.groupStatus g = s.groupStatus g) ∧
      ∀ default, ∃ t, Service.new name managePermission default d = .ok (t, d) ∧
        ∀ g, t.groupStatus g = s.groupStatus g := by
  have hne : managePermission ≠ alwaysOn := by omega
  obtain ⟨hsaved₀, hm₀, hn₀⟩ := new_saved hnew hne
  obtain ⟨s, d, hs, hsaved, ⟨hms, hns⟩, hstatus⟩ := exec_saved hsaved₀ cs
  rw [hm₀] at hms hstatus
  refine ⟨s, d, hs, fun g => ⟨hstatus g, fun _ _ => hstatus g⟩, fun c => ?_, ?_, ?_, fun default => ?_⟩
  · obtain ⟨t, e, ht, _, hrefused, _, hother⟩ := call_saved hsaved c
    rw [hms] at ht hrefused
    refine ⟨t, e, ht, hrefused, fun g hg => ?_⟩
    rw [hother, if_neg (fun h => hg h.1)]
  · obtain ⟨o, hfile, _, gs, hgs, hmem⟩ := hsaved.file
    exact ⟨_, gs, hfile, hgs, hmem⟩
  · obtain ⟨groups, config, hl, hg⟩ :=
      loadConfig_saved hsaved s rfl (by rw [hms]; exact hne) (fun g hg => hg)
    refine ⟨_, hl, fun g => ?_⟩
    simp only [Service.groupStatus, hg]
  · obtain ⟨groups, config, hl, hg⟩ :=
      loadConfig_saved hsaved ⟨managePermission, default, [], name, .null⟩
        (by rw [Service.configPath, Service.configPath, hns, hn₀]) hne (by simp)
    refine ⟨_, hl, fun g => ?_⟩
    simp only [Service.groupStatus, hg]

theorem group_status_disabled :
    ∃ s₀ d₀ s d, Service.new (bytes "复读") groupAdmin true (fun _ => none) = .ok (s₀, d₀) ∧
      exec s₀ d₀ [⟨true, 5, superuser⟩, ⟨false, 5, groupAdmin⟩, ⟨true, 5, groupMember⟩] = .ok (s, d) ∧
      s.groupStatus 5 = false := by
  have hnew : Service.new (bytes "复读") groupAdmin true (fun _ => none) = .ok (_, _) := rfl
  obtain ⟨s, d, hs, hstatus, _⟩ := group_status hnew (by decide)
    [⟨true, 5, superuser⟩, ⟨false, 5, groupAdmin⟩, ⟨true, 5, groupMember⟩]
  refine ⟨_, _, s, d, hnew, hs, (hstatus 5).1.trans ?_⟩
  decide

end MigangBot.ServiceStatus
