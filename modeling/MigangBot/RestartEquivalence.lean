import MigangBot.ServiceManagement

namespace MigangBot.RestartEquivalence

open Lib.Exceptions Text JsonValue ApiTypes Permission Services ServiceStatus ServiceManagement

def callsTo (name : Bytes) (rs : List Request) : List Call :=
  (rs.filter (fun r => r.serviceName == name)).map Request.call

def savesAfter (s : Service) (past : List Call) (c : Call) : Bool :=
  decide (s.managePermission ≤ c.permission) && (c.enable == s.enableOnDefault ||
    lastEffective s.managePermission (s.groupStatus c.groupId) past c.groupId != c.enable)

/-- Which of the services that share a file wrote it last. -/
def lastSaver (services : List Service) (past : List Call) : List Call → Option Service
  | [] => none
  | c :: cs =>
      (lastSaver services (past ++ [c]) cs).or (services.filter (fun s => savesAfter s past c)).getLast?

def RestartEquivalent (registrations : List Registration) (sm : ServiceManager) (disk : Disk) : Prop :=
  ∃ sm' e, registerAll registrations disk = .ok (sm', e) ∧
    List.Forall₂ (fun s t => ∀ g, s.groupStatus g = t.groupStatus g) sm.serviceNameMap sm'.serviceNameMap

structure InAgreement (services : List Service) (rs : List Request) : Prop where
  sameDirection : ∀ s ∈ services, ∀ t ∈ services, s.serviceName = t.serviceName →
    s.managePermission ≠ alwaysOn → t.managePermission ≠ alwaysOn → ∀ g,
      lastEffective s.managePermission (s.groupStatus g) (callsTo s.serviceName rs) g =
        lastEffective t.managePermission (t.groupStatus g) (callsTo t.serviceName rs) g
  alwaysOnKept : ∀ s ∈ services, s.managePermission = alwaysOn → ∀ g,
    lastEffective s.managePermission (s.groupStatus g) (callsTo s.serviceName rs) g = s.groupStatus g
  fileReadable : ∀ s ∈ services, s.managePermission ≠ alwaysOn → ∀ t,
    lastSaver (named services s.serviceName) [] (callsTo s.serviceName rs) = some t →
      t.managePermission ≠ alwaysOn

def afterAll (rs : List Request) (s : Service) : Service := (callsTo s.serviceName rs).foldl after s

@[simp] theorem serviceName_afterAll (rs : List Request) (s : Service) :
    (afterAll rs s).serviceName = s.serviceName := afterAll_serviceName s _

theorem callsTo_snoc (name : Bytes) (rs : List Request) (r : Request) :
    callsTo name (rs ++ [r]) = if r.serviceName = name then callsTo name rs ++ [r.call] else callsTo name rs := by
  by_cases h : r.serviceName = name <;> simp [callsTo, h]

theorem afterAll_snoc (rs : List Request) (r : Request) (s : Service) :
    afterAll (rs ++ [r]) s = afterRange r.serviceName r.call (afterAll rs s) := by
  rw [afterRange, serviceName_afterAll, afterAll, callsTo_snoc]
  by_cases h : s.serviceName = r.serviceName
  · rw [if_pos h.symm, if_pos h, List.foldl_append]
    rfl
  · rw [if_neg (Ne.symm h), if_neg h]
    rfl

theorem saves_foldl_after (s : Service) (past : List Call) (c : Call) :
    saves (past.foldl after s) c = savesAfter s past c := by
  rw [saves, savesAfter, afterAll_groupStatus, afterAll_managePermission, afterAll_enableOnDefault]

theorem lastSaver_snoc (services : List Service) (past cs : List Call) (c : Call) :
    lastSaver services past (cs ++ [c]) =
      ((services.filter (fun s => savesAfter s (past ++ cs) c)).getLast?).or (lastSaver services past cs) := by
  induction cs generalizing past with
  | nil => simp [lastSaver]
  | cons c' cs ih =>
      rw [List.cons_append, lastSaver, ih, lastSaver, List.append_assoc, List.singleton_append, Option.or_assoc]

theorem lastSaver_mem {services : List Service} {past cs : List Call} {t : Service}
    (h : lastSaver services past cs = some t) : t ∈ services := by
  induction cs generalizing past with
  | nil => cases h
  | cons c cs ih =>
      rw [lastSaver, Option.or_eq_some_iff] at h
      rcases h with h | ⟨_, h⟩
      · exact ih h
      · exact List.mem_of_mem_filter (List.mem_of_getLast? h)

theorem named_map_afterAll (services : List Service) (rs : List Request) (name : Bytes) :
    named (services.map (afterAll rs)) name = (named services name).map (afterAll rs) := by
  induction services with
  | nil => rfl
  | cons s services ih =>
      by_cases h : s.serviceName = name <;> simpa [named, h] using ih

theorem mem_named {services : List Service} {name : Bytes} {s : Service} :
    s ∈ named services name ↔ s ∈ services ∧ s.serviceName = name := by
  simp [named]

theorem savers_afterAll (services : List Service) (rs : List Request) (name : Bytes) (c : Call) :
    (named (services.map (afterAll rs)) name).filter (fun s => saves s c) =
      ((named services name).filter (fun s => savesAfter s (callsTo name rs) c)).map (afterAll rs) := by
  rw [named_map_afterAll, List.filter_map]
  congr 1
  apply List.filter_congr
  intro s hs
  rw [Function.comp_apply, afterAll, (mem_named.mp hs).2, saves_foldl_after]

theorem execAll_snoc (sm : ServiceManager) (disk : Disk) (rs : List Request) (r : Request) :
    execAll sm disk (rs ++ [r]) = do
      let p ← execAll sm disk rs
      return (← change p.1 r p.2).2 := by
  simp only [execAll, List.foldlM_append, List.foldlM_cons, List.foldlM_nil, bind_pure]

theorem configPath_afterAll (rs : List Request) (s : Service) :
    (afterAll rs s).configPath = s.configPath := by
  rw [configPath_eq_iff, serviceName_afterAll]

/-- What a file holds after a sequence of calls: the configuration of the
service that wrote it last, as that service still has it. -/
def fileAfter (services : List Service) (disk : Disk) (rs : List Request) (s : Service) : Option Json :=
  match lastSaver (named services s.serviceName) [] (callsTo s.serviceName rs) with
  | some t => some (afterAll rs t).config
  | none => disk s.configPath

theorem fileAfter_snoc_other (services : List Service) (disk : Disk) (rs : List Request) {r : Request}
    {s : Service} (h : r.serviceName ≠ s.serviceName) :
    fileAfter services disk (rs ++ [r]) s = fileAfter services disk rs s := by
  rw [fileAfter, fileAfter, callsTo_snoc, if_neg h]
  cases hl : lastSaver (named services s.serviceName) [] (callsTo s.serviceName rs) with
  | none => rfl
  | some t =>
      have ht := (mem_named.mp (lastSaver_mem hl)).2
      simp only [afterAll, ht, callsTo_snoc, if_neg h]

theorem fileAfter_snoc_named (services : List Service) (disk : Disk) (rs : List Request) {r : Request}
    {s : Service} (h : r.serviceName = s.serviceName) {e : Disk}
    (he : e s.configPath = fileAfter services disk rs s) :
    diskAfter r.serviceName r.call (services.map (afterAll rs)) e s.configPath =
      fileAfter services disk (rs ++ [r]) s := by
  rw [diskAfter, savers_afterAll, List.getLast?_map, fileAfter, callsTo_snoc, if_pos h, lastSaver_snoc,
    List.nil_append, h]
  cases hl : ((named services s.serviceName).filter
      (fun t => savesAfter t (callsTo s.serviceName rs) r.call)).getLast? with
  | some t =>
      have ht := (mem_named.mp (List.mem_of_mem_filter (List.mem_of_getLast? hl))).2
      have hpath : (afterAll rs t).configPath = s.configPath := by
        rw [configPath_afterAll, configPath_eq_iff, ht]
      simp only [Option.map_some, hpath, Function.update_self, Option.some_or, afterAll_snoc, afterRange,
        serviceName_afterAll, ht, h, if_true]
  | none =>
      simp only [Option.map_none, Option.none_or, he, fileAfter]
      cases hl' : lastSaver (named services s.serviceName) [] (callsTo s.serviceName rs) with
      | none => rfl
      | some t =>
          have ht := lastSaver_mem hl'
          have hns : savesAfter t (callsTo s.serviceName rs) r.call ≠ true := by
            rw [List.getLast?_eq_none_iff, List.filter_eq_nil_iff] at hl
            exact hl t ht
          have hname := (mem_named.mp ht).2
          rw [← saves_foldl_after] at hns
          simp only [afterAll_snoc, afterRange, serviceName_afterAll, hname, h, if_true, after]
          rw [afterAll, hname, if_neg hns]

theorem diskAfter_other {name : Bytes} (c : Call) (services : List Service) (disk : Disk) {s : Service}
    (h : name ≠ s.serviceName) :
    diskAfter name c services disk s.configPath = disk s.configPath := by
  rw [diskAfter]
  cases hl : ((named services name).filter (fun s => saves s c)).getLast? with
  | none => rfl
  | some t =>
      have ht := (mem_named.mp (List.mem_of_mem_filter (List.mem_of_getLast? hl))).2
      apply Function.update_of_ne
      rw [Ne, configPath_eq_iff, ht]
      exact fun h' => h h'.symm

theorem execAll_eq (sm : ServiceManager) (disk : Disk) (hw : ∀ s ∈ sm.serviceNameMap, Writable s)
    (rs : List Request) :
    ∃ e, execAll sm disk rs = .ok (⟨sm.serviceNameMap.map (afterAll rs)⟩, e) ∧
      ∀ s, e s.configPath = fileAfter sm.serviceNameMap disk rs s := by
  induction rs using List.reverseRecOn with
  | nil =>
      refine ⟨disk, ?_, fun s => rfl⟩
      have hid : sm.serviceNameMap.map (afterAll []) = sm.serviceNameMap := List.map_id _
      rw [hid]
      rfl
  | append_singleton rs r ih =>
      obtain ⟨e, he, hfile⟩ := ih
      have hw' : ∀ s ∈ sm.serviceNameMap.map (afterAll rs), Writable s := by
        intro s hs
        obtain ⟨s₀, hs₀, rfl⟩ := List.mem_map.mp hs
        exact afterAll_writable (hw s₀ hs₀) _
      refine ⟨diskAfter r.serviceName r.call (sm.serviceNameMap.map (afterAll rs)) e, ?_, fun s => ?_⟩
      · rw [execAll_snoc, he, ok_bind, change_eq_after _ _ hw', ok_bind, List.map_map]
        simp only [Function.comp_def, ← afterAll_snoc]
        rfl
      · by_cases h : r.serviceName = s.serviceName
        · exact fileAfter_snoc_named _ disk rs h (hfile s)
        · rw [diskAfter_other _ _ _ h, fileAfter_snoc_other _ _ _ h, hfile]

def flag : Json → Option Json
  | .object o => Object.find o "enable_on_default"
  | _ => none

def FileStatus (file : Json) (status : GId → Bool) : Prop :=
  ∃ enable gs, flag file = some (.boolean enable) ∧ savedGroups file = .ok gs ∧
    ∀ g, status g = if enable then !decide (g ∈ gs) else decide (g ∈ gs)

theorem FileStatus.unique {file : Json} {status status' : GId → Bool} (h : FileStatus file status)
    (h' : FileStatus file status') (g : GId) : status g = status' g := by
  obtain ⟨enable, gs, he, hgs, hst⟩ := h
  obtain ⟨enable', gs', he', hgs', hst'⟩ := h'
  rw [he] at he'
  cases he'
  rw [hgs] at hgs'
  cases hgs'
  rw [hst, hst']

theorem FileStatus.congr {file : Json} {status status' : GId → Bool} (h : FileStatus file status)
    (hst : ∀ g, status' g = status g) : FileStatus file status' := by
  obtain ⟨enable, gs, he, hgs, h⟩ := h
  exact ⟨enable, gs, he, hgs, fun g => (hst g).trans (h g)⟩

/-- What a restart shows of a service that reads its file. -/
theorem created_status {r : Registration} {disk : Disk} {file : Json} (hm : r.managePermission ≠ alwaysOn)
    (hfile : disk (r.serviceName ++ bytes ".json") = some file) (status : GId → Bool) :
    (∃ s, Created r disk s ∧ ∀ g, status g = s.groupStatus g) ↔ FileStatus file status := by
  constructor
  · rintro ⟨s, hs, hst⟩
    simp only [Created, Service.new, Service.loadConfig, if_neg hm, Service.openConfig,
      Service.configPath, hfile, ok_bind, bind_eq_ok] at hs
    obtain ⟨t, hr, h⟩ := hs
    cases h
    obtain ⟨o, gs, rfl, he, hgs, ht⟩ := readConfig_eq_ok hr
    refine ⟨s.enableOnDefault, gs, he, hgs, fun g => ?_⟩
    have hmem : g ∈ s.groups ↔ g ∈ gs := by
      rw [ht, mem_foldl_emplace]
      simp
    rw [hst, Service.groupStatus]
    simp only [hmem]
  · rintro ⟨enable, gs, he, hgs, hst⟩
    cases file <;> simp only [flag, reduceCtorEq] at he
    next o =>
      have hread : readGroups (Object.index o "groups").2 = .ok gs := hgs
      refine ⟨⟨r.managePermission, enable, gs.foldl emplace [], r.serviceName,
        .object (Object.index o "groups").1⟩, ?_, fun g => ?_⟩
      · simp only [Created, Service.new, Service.loadConfig, if_neg hm, Service.openConfig,
          Service.configPath, hfile, ok_bind, Service.readConfig, Json.index, Object.index_of_find he,
          Json.getBool, hread]
        rfl
      · rw [hst, Service.groupStatus]
        simp only [mem_foldl_emplace, List.not_mem_nil, or_false]

/-- The configuration a service holds in memory says what the service itself
says; one that is always on has never read a file, and its flag is missing. -/
structure ConfigCurrent (s : Service) : Prop where
  writable : Writable s
  flag : flag s.config = if s.managePermission = alwaysOn then none else some (.boolean s.enableOnDefault)
  groups : s.managePermission ≠ alwaysOn → ∃ gs, savedGroups s.config = .ok gs ∧ ∀ g, g ∈ gs ↔ g ∈ s.groups

theorem flag_savedConfig (config : Json) (groups : List GId) : flag (savedConfig config groups) = flag config := by
  cases config with
  | object o => exact Object.find_set_ne _ _ (by decide)
  | _ => rfl

theorem ConfigCurrent.after {s : Service} (h : ConfigCurrent s) (c : Call) : ConfigCurrent (after s c) := by
  have hw := after_writable h.writable c
  rw [ServiceManagement.after]
  split
  next hsave =>
    rw [ServiceManagement.after, if_pos hsave] at hw
    refine ⟨hw, (flag_savedConfig _ _).trans h.flag, fun _ => ⟨changedGroups s c, ?_, fun g => Iff.rfl⟩⟩
    obtain ⟨o, ho, hgs⟩ := savedConfig_object s.config (changedGroups s c)
    exact ho ▸ hgs
  next => exact h

theorem ConfigCurrent.foldl_after {s : Service} (h : ConfigCurrent s) (cs : List Call) :
    ConfigCurrent (cs.foldl ServiceManagement.after s) := by
  induction cs generalizing s with
  | nil => exact h
  | cons c cs ih => exact ih (h.after c)

theorem ConfigCurrent.fileStatus {s : Service} (h : ConfigCurrent s) :
    (∃ status, FileStatus s.config status) ↔ s.managePermission ≠ alwaysOn := by
  constructor
  · rintro ⟨status, enable, gs, he, _⟩ hm
    rw [h.flag, if_pos hm] at he
    cases he
  · intro hm
    obtain ⟨gs, hgs, _⟩ := h.groups hm
    exact ⟨_, s.enableOnDefault, gs, by rw [h.flag, if_neg hm], hgs, fun g => rfl⟩

theorem ConfigCurrent.shows {s : Service} (h : ConfigCurrent s) (hm : s.managePermission ≠ alwaysOn) :
    FileStatus s.config s.groupStatus := by
  obtain ⟨gs, hgs, hmem⟩ := h.groups hm
  refine ⟨s.enableOnDefault, gs, by rw [h.flag, if_neg hm], hgs, fun g => ?_⟩
  rw [Service.groupStatus]
  simp only [hmem]

theorem index_index (o : Object) (key : String) :
    Object.index (Object.index o key).1 key = Object.index o key := by
  cases h : Object.find o key with
  | none => simp [Object.index, h]
  | some v => rw [Object.index_of_find h, Object.index_of_find h]

/-- Before any call the file of a service says what the service says. -/
theorem created_current {r : Registration} {disk : Disk} {s : Service} (h : Created r disk s) :
    ConfigCurrent s ∧ (s.managePermission ≠ alwaysOn →
      ∃ file, disk s.configPath = some file ∧ FileStatus file s.groupStatus) := by
  obtain ⟨hn, hp⟩ := new_names h
  by_cases hm : r.managePermission = alwaysOn
  · cases created_unique h (new_alwaysOn hm disk)
    exact ⟨⟨.inl rfl, by rw [if_pos hm]; rfl, fun hm' => absurd hm hm'⟩, fun hm' => absurd hm hm'⟩
  · obtain ⟨hsaved, _⟩ := new_saved h hm
    obtain ⟨o, hfile, _⟩ := hsaved.file
    have hpath : s.configPath = r.serviceName ++ bytes ".json" := by rw [Service.configPath, hn]
    refine ⟨?_, fun _ => ⟨_, hfile, (created_status hm (hpath ▸ hfile) s.groupStatus).mp ⟨s, h, fun g => rfl⟩⟩⟩
    simp only [Created, Service.new, Service.loadConfig, if_neg hm, bind_eq_ok] at h
    obtain ⟨⟨config, d⟩, ho, t, hr, h⟩ := h
    cases h
    obtain ⟨o, gs, rfl, he, hgs, ht⟩ := readConfig_eq_ok hr
    have hc : s.config = .object (Object.index o "groups").1 := by rw [ht]
    refine ⟨.inr ⟨_, hc⟩, ?_, fun _ => ⟨gs, ?_, fun g => ?_⟩⟩
    · rw [hp, if_neg hm, hc]
      exact (Object.find_index_ne _ (by decide)).trans he
    · rw [hc]
      exact (congrArg (fun p => readGroups p.2) (index_index o "groups")).trans hgs
    · rw [ht, mem_foldl_emplace]
      simp

theorem lastSaver_none {services : List Service} {past cs : List Call} {s : Service}
    (h : lastSaver services past cs = none) (hs : s ∈ services) :
    (past ++ cs).foldl after s = past.foldl after s := by
  induction cs using List.reverseRecOn with
  | nil => rw [List.append_nil]
  | append_singleton cs c ih =>
      rw [lastSaver_snoc, Option.or_eq_none_iff, List.getLast?_eq_none_iff, List.filter_eq_nil_iff] at h
      have hns := h.1 s hs
      rw [← saves_foldl_after, ih h.2] at hns
      rw [← List.append_assoc, List.foldl_append, ih h.2, List.foldl_cons, List.foldl_nil, after, if_neg hns]

def Restored (services : List Service) (disk : Disk) (rs : List Request) (s : Service) : Prop :=
  (s.managePermission = alwaysOn → ∀ g, (afterAll rs s).groupStatus g = s.groupStatus g) ∧
    (s.managePermission ≠ alwaysOn → ∃ file, fileAfter services disk rs s = some file ∧
      FileStatus file (afterAll rs s).groupStatus)

theorem groupStatus_afterAll (rs : List Request) (s : Service) (g : GId) :
    (afterAll rs s).groupStatus g =
      lastEffective s.managePermission (s.groupStatus g) (callsTo s.serviceName rs) g :=
  afterAll_groupStatus s _ g

theorem restored_iff_inAgreement {services : List Service} {disk : Disk}
    (hload : ∀ s ∈ services, ConfigCurrent s ∧ (s.managePermission ≠ alwaysOn →
      ∃ file, disk s.configPath = some file ∧ FileStatus file s.groupStatus)) (rs : List Request) :
    (∀ s ∈ services, Restored services disk rs s) ↔ InAgreement services rs := by
  constructor
  · intro h
    refine ⟨fun s hs t ht hname hms hmt g => ?_, fun s hs hm g => ?_, fun s hs hm t ht => ?_⟩
    · obtain ⟨file, hf, hst⟩ := (h s hs).2 hms
      obtain ⟨file', hf', hst'⟩ := (h t ht).2 hmt
      have hpath : s.configPath = t.configPath := (configPath_eq_iff s t).mpr hname
      rw [fileAfter, hname, hpath] at hf
      rw [fileAfter, hf] at hf'
      cases hf'
      rw [← groupStatus_afterAll, ← groupStatus_afterAll]
      exact hst.unique hst' g
    · rw [← groupStatus_afterAll]
      exact (h s hs).1 hm g
    · obtain ⟨file, hf, hst⟩ := (h s hs).2 hm
      have hcur := ((hload t (mem_named.mp (lastSaver_mem ht)).1).1).foldl_after (callsTo t.serviceName rs)
      rw [fileAfter, ht] at hf
      cases hf
      rw [← afterAll_managePermission t (callsTo t.serviceName rs)]
      exact hcur.fileStatus.mp ⟨_, hst⟩
  · intro h s hs
    refine ⟨fun hm g => (groupStatus_afterAll rs s g).trans (h.alwaysOnKept s hs hm g), fun hm => ?_⟩
    rw [fileAfter]
    cases hl : lastSaver (named services s.serviceName) [] (callsTo s.serviceName rs) with
    | none =>
        obtain ⟨file, hf, hst⟩ := (hload s hs).2 hm
        have hsame : afterAll rs s = s := lastSaver_none hl (mem_named.mpr ⟨hs, rfl⟩)
        rw [hsame]
        exact ⟨file, hf, hst⟩
    | some t =>
        obtain ⟨ht, hname⟩ := mem_named.mp (lastSaver_mem hl)
        have hmt := h.fileReadable s hs hm t hl
        have hcur := (hload t ht).1.foldl_after (callsTo t.serviceName rs)
        refine ⟨_, rfl, (hcur.shows ?_).congr fun g => ?_⟩
        · rwa [afterAll_managePermission]
        · rw [groupStatus_afterAll, h.sameDirection s hs t ht hname.symm hm hmt, ← groupStatus_afterAll]
          rfl

theorem fileAfter_exists (services : List Service) {disk : Disk} {s : Service} {file : Json}
    (h : disk s.configPath = some file) (rs : List Request) :
    ∃ file', fileAfter services disk rs s = some file' := by
  rw [fileAfter]
  cases lastSaver (named services s.serviceName) [] (callsTo s.serviceName rs) with
  | none => exact ⟨file, h⟩
  | some t => exact ⟨_, rfl⟩

theorem restored_iff {services : List Service} {disk e : Disk} {r : Registration} {s : Service}
    (hr : Created r disk s) {rs : List Request} (he : e s.configPath = fileAfter services disk rs s) :
    (∃ t, Created r e t ∧ ∀ g, (afterAll rs s).groupStatus g = t.groupStatus g) ↔
      Restored services disk rs s := by
  obtain ⟨hn, hp⟩ := new_names hr
  by_cases hm : r.managePermission = alwaysOn
  · have hs := created_unique hr (new_alwaysOn hm _)
    have hms : s.managePermission = alwaysOn := hp.trans hm
    constructor
    · rintro ⟨t, ht, hst⟩
      have hts := (created_unique ht (new_alwaysOn hm _)).trans hs.symm
      exact ⟨fun _ g => (hst g).trans (by rw [hts]), fun h => absurd hms h⟩
    · intro h
      exact ⟨s, hs ▸ new_alwaysOn hm e, h.1 hms⟩
  · obtain ⟨file, hf, _⟩ := (created_current hr).2 (hp ▸ hm)
    obtain ⟨file', hf'⟩ := fileAfter_exists services hf rs
    rw [hf'] at he
    have hpath : e (r.serviceName ++ bytes ".json") = some file' := by rw [← he, Service.configPath, hn]
    rw [created_status hm hpath, Restored, hf']
    constructor
    · intro h
      exact ⟨fun h' => absurd (hp ▸ h') hm, fun _ => ⟨file', rfl, h⟩⟩
    · intro h
      obtain ⟨file, hfile, hst⟩ := h.2 (hp ▸ hm)
      cases hfile
      exact hst

theorem exists_forall₂ {α β γ : Type} {P : α → β → Prop} {R : α → γ → Prop} {S : β → γ → Prop}
    {as : List α} {bs : List β} (h : List.Forall₂ P as bs)
    (hf : ∀ a b, P a b → b ∈ bs → ∃ c, R a c ∧ S b c) :
    ∃ cs, List.Forall₂ R as cs ∧ List.Forall₂ S bs cs := by
  induction h with
  | nil => exact ⟨[], .nil, .nil⟩
  | @cons a b as bs hab _ ih =>
      obtain ⟨c, hac, hbc⟩ := hf a b hab List.mem_cons_self
      obtain ⟨cs, has, hbs⟩ := ih (fun a' b' h hb => hf a' b' h (List.mem_cons_of_mem _ hb))
      exact ⟨c :: cs, .cons hac has, .cons hbc hbs⟩

theorem restartEquivalent_iff_restored {registrations : List Registration} {ts : List Service}
    {disk e : Disk} (hts : List.Forall₂ (fun r s => Created r disk s) registrations ts)
    {rs : List Request} (he : ∀ s, e s.configPath = fileAfter ts disk rs s) :
    RestartEquivalent registrations ⟨ts.map (afterAll rs)⟩ e ↔ ∀ s ∈ ts, Restored ts disk rs s := by
  constructor
  · rintro ⟨sm', e', hreg, hst⟩ s hs
    obtain ⟨hext, us, hus, hcreated⟩ := registerAll_created hreg
    obtain ⟨hlen, hget⟩ := List.forall₂_iff_get.mp hts
    rw [hus, List.nil_append] at hst
    rw [List.forall₂_iff_get] at hst hcreated
    obtain ⟨i, rfl⟩ := List.mem_iff_get.mp hs
    have hi : i.1 < registrations.length := by rw [hlen]; exact i.2
    have hi' : i.1 < us.length := hcreated.1 ▸ hi
    have hr := hget i.1 hi i.2
    have hu := hcreated.2 i.1 hi hi'
    have hsame := hst.2 i.1 (by simp) hi'
    rw [← restored_iff hr (he _)]
    refine ⟨us.get ⟨i.1, hi'⟩, ?_, by simpa using hsame⟩
    obtain ⟨hn, hp⟩ := new_names hr
    by_cases hm : (registrations.get ⟨i.1, hi⟩).managePermission = alwaysOn
    · rw [created_unique hu (new_alwaysOn hm _)]
      exact new_alwaysOn hm _
    · obtain ⟨file, hf, _⟩ := (created_current hr).2 (hp ▸ hm)
      obtain ⟨file', hf'⟩ := fileAfter_exists ts hf rs
      have hf' := (he _).trans hf'
      rw [Service.configPath, hn] at hf'
      have hf'' := hext _ _ hf'
      simp only [Created, Service.new, Service.loadConfig, if_neg hm, Service.openConfig,
        Service.configPath, hf', hf'', ok_bind, bind_eq_ok] at hu ⊢
      obtain ⟨t, ht, h⟩ := hu
      cases h
      exact ⟨_, ht, rfl⟩
  · intro h
    obtain ⟨us, hus, hst⟩ := exists_forall₂ (R := fun r t => Created r e t)
      (S := fun s t => ∀ g, (afterAll rs s).groupStatus g = t.groupStatus g) hts
      (fun r s hr hs => (restored_iff hr (he s)).mpr (h s hs))
    exact ⟨⟨us⟩, e, registerAll_of_created hus, List.forall₂_map_left_iff.mpr hst⟩

/-- After every sequence of calls on the services of a start. -/
theorem restart_equivalent_iff {registrations : List Registration} {disk₀ disk : Disk} {sm : ServiceManager}
    (h : registerAll registrations disk₀ = .ok (sm, disk)) (rs : List Request) :
    ∃ sm' e, execAll sm disk rs = .ok (sm', e) ∧
      (RestartEquivalent registrations sm' e ↔ InAgreement sm.serviceNameMap rs) := by
  obtain ⟨_, ts, rfl, hts⟩ := registerAll_created h
  rw [List.nil_append]
  have hload : ∀ s ∈ ts, ConfigCurrent s ∧ (s.managePermission ≠ alwaysOn →
      ∃ file, disk s.configPath = some file ∧ FileStatus file s.groupStatus) := by
    intro s hs
    obtain ⟨i, rfl⟩ := List.mem_iff_get.mp hs
    obtain ⟨hlen, hget⟩ := List.forall₂_iff_get.mp hts
    exact created_current (hget i.1 (by rw [hlen]; exact i.2) i.2)
  obtain ⟨e, hexec, hfile⟩ := execAll_eq ⟨ts⟩ disk (fun s hs => (hload s hs).1.writable) rs
  refine ⟨_, e, hexec, ?_⟩
  rw [restartEquivalent_iff_restored hts hfile, restored_iff_inAgreement hload]

def chatRegistrations : List Registration :=
  [⟨bytes "chat", groupMember, true⟩, ⟨bytes "chat", groupOwner, true⟩]

theorem restart_equivalent_owner :
    ∃ sm disk sm' e, registerAll chatRegistrations (fun _ => none) = .ok (sm, disk) ∧
      execAll sm disk [⟨bytes "chat", false, 7, groupOwner⟩] = .ok (sm', e) ∧
      (RestartEquivalent chatRegistrations sm' e ↔
        InAgreement sm.serviceNameMap [⟨bytes "chat", false, 7, groupOwner⟩]) := by
  have h : registerAll chatRegistrations (fun _ => none) = .ok (_, _) := rfl
  obtain ⟨sm', e, hexec, hiff⟩ := restart_equivalent_iff h [⟨bytes "chat", false, 7, groupOwner⟩]
  exact ⟨_, _, sm', e, h, hexec, hiff⟩

/-- An administrator disables both services, and the one that asks for the owner
refuses. It comes back disabled. -/
theorem restart_not_equivalent :
    ∃ sm disk sm' e, registerAll chatRegistrations (fun _ => none) = .ok (sm, disk) ∧
      execAll sm disk [⟨bytes "chat", false, 7, groupAdmin⟩] = .ok (sm', e) ∧
      ¬ RestartEquivalent chatRegistrations sm' e := by
  refine ⟨_, _, _, _, rfl, rfl, ?_⟩
  rintro ⟨sm'', e', h, hst⟩
  cases h
  have hsecond := (List.forall₂_iff_get.mp hst).2 1 (by decide) (by decide) 7
  exact absurd hsecond (by decide)

end MigangBot.RestartEquivalence
