import MigangBot.DispatchAuthorisation
import MigangBot.NoticeDispatch
import MigangBot.RestartEquivalence

namespace MigangBot.Registrar

open Lib.Exceptions Lib.Maps Lib.Tries Text JsonValue CommandTrie ApiTypes Permission Services ServiceStatus
  ServiceManagement RestartEquivalence EventHandling MessageHandling DispatchAuthorisation

/-- What the service of one call is registered under with the event handler; that
of OnSchedule under nothing. -/
inductive Trigger
  | onCommand (type : CommandType) (commands : List Bytes)
  | onRegex (patterns : List Bytes)
  | onNotice (noticeType subType : Bytes)
  | onRequest (requestType subType : Bytes)
  | onSchedule

structure Plugin where
  registration : ServiceManagement.Registration
  usePermission : Int
  onlyToMe : Bool
  trigger : Trigger

def Trigger.registrations (service : ServicePtr) : Trigger → List EventHandling.Registration
  | .onCommand type commands => commands.map fun command => .command type command service
  | .onRegex patterns => [.regex patterns service]
  | .onNotice noticeType subType => [.notice noticeType subType service]
  | .onRequest requestType subType => [.request requestType subType service]
  | .onSchedule => []

/-- The two registries share their services: a pointer is the place of a service
in the order of the registrations. -/
structure Registry where
  handler : EventHandler
  manager : ServiceManager

def on (st : Registry × Disk) (plugin : Plugin) : Outcome (Registry × Disk) := do
  let service := st.1.manager.serviceNameMap.length
  let (manager, disk) ← registerNew (st.1.manager, st.2) plugin.registration
  let handler := (plugin.trigger.registrations service).foldl (fun h r => (register h r).1) st.1.handler
  return (⟨handler, manager⟩, disk)

def start (plugins : List Plugin) (disk : Disk) : Outcome (Registry × Disk) :=
  plugins.foldlM on (⟨.empty, ⟨[]⟩⟩, disk)

/-- What the event handler finds behind its pointers. -/
def services (plugins : List Plugin) (manager : ServiceManager) (service : ServicePtr) : TriggeredService :=
  ⟨(manager.serviceNameMap[service]?).getD ⟨0, false, [], [], .null⟩,
    (plugins[service]?).elim 0 Plugin.usePermission, (plugins[service]?).elim false Plugin.onlyToMe⟩

section Launches

variable {h : EventHandler} {env : Environment} {event : Object} {launches : List Launch}

theorem launchEach_enabled {path : Path} {ps : List ServicePtr} (hl : launchEach env path event ps = .ok launches) :
    ∀ l ∈ launches, l.service ∈ ps ∧ enabledFor env event l.service = .ok true := by
  induction ps generalizing launches with
  | nil =>
      cases hl
      exact fun l hl => by cases hl
  | cons p ps ih =>
      simp only [launchEach, bind_eq_ok] at hl
      obtain ⟨enabled, henabled, rest, hrest, hl⟩ := hl
      cases hl
      intro l hl
      rw [List.mem_append] at hl
      rcases hl with hl | hl
      · cases enabled with
        | false => cases hl
        | true =>
            cases List.mem_singleton.mp hl
            exact ⟨List.mem_cons_self, henabled⟩
      · obtain ⟨hmem, he⟩ := ih hrest l hl
        exact ⟨List.mem_cons_of_mem _ hmem, he⟩

theorem handle_launches {b : Bool} (hh : handle h env event = .ok (b, launches)) :
    launches = [] ∨ ∃ postType c, event.find "post_type" = some (.string postType) ∧
      charAt postType 3 = .ok c ∧ handlePostType h env c event = .ok launches := by
  rw [handle, noexcept_eq_ok, bind_eq_ok] at hh
  obtain ⟨passes, _, hh⟩ := hh
  cases passes with
  | false =>
      cases hh
      exact .inl rfl
  | true =>
      by_cases hpost : event.contains "post_type" = true
      · simp only [if_true, hpost, bind_eq_ok] at hh
        obtain ⟨postType, hread, c, hchar, ls, hls, hh⟩ := hh
        cases hh
        exact .inr ⟨postType, c, find_of_getString hread, hchar, hls⟩
      · rw [Bool.not_eq_true] at hpost
        simp only [if_true, hpost] at hh
        cases hh
        exact .inl rfl

end Launches

section Pointers

variable {P : ServicePtr → Prop} {h : EventHandler} {env : Environment} {event : Object} {launches : List Launch}

/-- All pointers in the registries of the event handler. -/
structure Known (P : ServicePtr → Prop) (h : EventHandler) : Prop where
  fullmatch : ∀ command p, h.commandFullmatch.lookup command = some p → P p
  prefixMatch : ∀ key c, h.commandPrefix.root.find key = some c → P c.service
  suffixMatch : ∀ key c, h.commandSuffix.root.find key = some c → P c.service
  regex : ∀ matcher ∈ h.commandRegex, P matcher.service
  allMsg : ∀ p ∈ h.allMsgHandler, P p
  notice : ∀ n s, ∀ p ∈ (find₂ h.noticeHandler n s).getD [], P p
  request : ∀ n s, ∀ p ∈ (find₂ h.requestHandler n s).getD [], P p

theorem known_empty : Known P .empty where
  fullmatch _ _ hfound := by cases hfound
  prefixMatch key _ hfound := by
    have hnone : (EventHandler.empty.commandPrefix.root.find key) = none := Node.find_empty key
    rw [hnone] at hfound
    cases hfound
  suffixMatch key _ hfound := by
    have hnone : (EventHandler.empty.commandSuffix.root.find key) = none := Node.find_empty key
    rw [hnone] at hfound
    cases hfound
  regex _ hmem := by cases hmem
  allMsg _ hmem := by cases hmem
  notice _ _ _ hmem := by cases hmem
  request _ _ _ hmem := by cases hmem

theorem known_pushBack {m : FiniteMap Bytes (FiniteMap Bytes (List ServicePtr))} {n s : Bytes} {q : ServicePtr}
    (hm : ∀ n s, ∀ p ∈ (find₂ m n s).getD [], P p) (hq : P q) (n' s' : Bytes) :
    ∀ p ∈ (find₂ (pushBack m n s q) n' s').getD [], P p := by
  intro p hp
  rw [NoticeDispatch.find₂_pushBack, List.mem_append] at hp
  rcases hp with hp | hp
  · exact hm n' s' p hp
  · split at hp
    · cases List.mem_singleton.mp hp
      exact hq
    · cases hp

theorem known_insertImpl {t : Trie ServicePtr} {isFromBack : Bool} {it : Bytes} {q : ServicePtr}
    (ht : ∀ key c, t.root.find key = some c → P c.service) (hq : P q) (key : Bytes)
    (c : CommandTrie.Command ServicePtr)
    (hfound : (t.insertImpl isFromBack it q).1.root.find key = some c) : P c.service := by
  rw [Trie.insertImpl] at hfound
  dsimp only at hfound
  rw [Node.find_insert] at hfound
  cases hold : t.root.find key with
  | some old =>
      rw [hold] at hfound
      cases hfound
      exact ht key _ hold
  | none =>
      rw [hold, Option.none_or] at hfound
      split at hfound
      · cases hfound
        exact hq
      · cases hfound

theorem Known.emplaceFullmatch (hk : Known P h) {command : Bytes} {q : ServicePtr} (hq : P q) :
    Known P (emplaceFullmatch h command q).1 := by
  rw [EventHandling.emplaceFullmatch]
  cases h.commandFullmatch.lookup command with
  | some _ => exact hk
  | none =>
      refine { hk with fullmatch := fun command' p hfound => ?_ }
      have hfound' : (h.commandFullmatch.insert command q).lookup command' = some p := hfound
      rw [lookup_insert_eq] at hfound'
      split at hfound'
      · cases hfound'
        exact hq
      · exact hk.fullmatch command' p hfound'

def pointerOf : EventHandling.Registration → ServicePtr
  | .command _ _ service | .regex _ service | .notice _ _ service | .request _ _ service => service

theorem Known.register (hk : Known P h) {r : EventHandling.Registration} (hr : P (pointerOf r)) :
    Known P (register h r).1 := by
  cases r with
  | command type command q =>
      cases type with
      | fullmatch | keyword => exact hk.emplaceFullmatch hr
      | prefixMatch => exact { hk with prefixMatch := known_insertImpl hk.prefixMatch hr }
      | suffixMatch => exact { hk with suffixMatch := known_insertImpl hk.suffixMatch hr }
      | allMsg =>
          refine { hk with allMsg := fun p hp => ?_ }
          rcases List.mem_append.mp hp with hp | hp
          · exact hk.allMsg p hp
          · cases List.mem_singleton.mp hp
            exact hr
  | regex patterns q =>
      refine { hk with regex := fun matcher hm => ?_ }
      rcases List.mem_append.mp hm with hm | hm
      · exact hk.regex matcher hm
      · cases List.mem_singleton.mp hm
        exact hr
  | notice n s q => exact { hk with notice := known_pushBack hk.notice hr }
  | request n s q => exact { hk with request := known_pushBack hk.request hr }

theorem Known.registerEach (hk : Known P h) {rs : List EventHandling.Registration}
    (hrs : ∀ r ∈ rs, P (pointerOf r)) :
    Known P (rs.foldl (fun h r => (EventHandling.register h r).1) h) := by
  induction rs generalizing h with
  | nil => exact hk
  | cons r rs ih =>
      exact ih (hk.register (hrs r List.mem_cons_self)) (fun r hr => hrs r (List.mem_cons_of_mem _ hr))

theorem Known.search {t : Trie ServicePtr} (ht : ∀ key c, t.root.find key = some c → P c.service) {it : Bytes}
    {p : ServicePtr} (hfound : (t.longestSearchImpl it event).2 = some p) : P p := by
  rcases Node.longest_spec (lower it) t.root none with ⟨key, c, hw, hl⟩ | ⟨_, hl⟩
  · rw [Trie.longestSearchImpl, hl] at hfound
    cases hfound
    exact ht key c hw.found
  · rw [Trie.longestSearchImpl, hl] at hfound
    cases hfound

theorem Known.dispatch (hk : Known P h) {commandGuard : Object → TriggeredService → Bool}
    {guard : TriggeredService → Bool} {message : Bytes} {l : Launch}
    (hl : l ∈ EventHandling.dispatch h env commandGuard guard message event) : P l.service := by
  rw [mem_dispatch] at hl
  rcases hl with ⟨p, hp, _, rfl⟩ | ⟨p, hp, _, rfl⟩ | ⟨p, hp, _, rfl⟩ | ⟨m, hm, _, _, rfl⟩ | ⟨p, hp, _, rfl⟩
  · exact hk.fullmatch message p hp
  · exact Known.search hk.prefixMatch hp
  · exact Known.search hk.suffixMatch hp
  · exact hk.regex m hm
  · exact hk.allMsg p hp

theorem launchUnder_mem {m : FiniteMap Bytes (FiniteMap Bytes (List ServicePtr))} {path : Path} {n s : Bytes}
    (hl : launchUnder env m path event n s = .ok launches) :
    ∀ l ∈ launches, l.service ∈ (find₂ m n s).getD [] ∧ enabledFor env event l.service = .ok true := by
  rw [launchUnder] at hl
  cases hm : find₂ m n s with
  | none =>
      rw [hm] at hl
      cases hl
      exact fun l hl => by cases hl
  | some ps =>
      rw [hm] at hl
      exact launchEach_enabled hl

/-- An event of the group: a message in it, or a notice or a request that names it. -/
structure Concerns (event : Object) (g : GId) : Prop where
  group : (member event "group_id").getUInt64 = .ok g
  chat : IsMessage event → IsGroup event

theorem contains_of_concerns {g : GId} (hc : Concerns event g) : event.contains "group_id" = true := by
  have hgroup := hc.group
  rw [member, Object.index_value] at hgroup
  rw [Object.contains]
  cases hf : event.find "group_id" with
  | none =>
      rw [hf] at hgroup
      cases hgroup
  | some _ => rfl

theorem enabled_of_enabledFor {g : GId} (hc : Concerns event g) {p : ServicePtr}
    (he : enabledFor env event p = .ok true) : (env.services p).groupStatus g = true := by
  rw [enabledFor, if_pos (contains_of_concerns hc), hc.group, ok_bind] at he
  exact Except.ok.inj he

theorem handleNotice_mem (hh : handleNotice h env event = .ok launches) {l : Launch} (hl : l ∈ launches) :
    ∃ n s, l.service ∈ (find₂ h.noticeHandler n s).getD [] ∧ enabledFor env event l.service = .ok true := by
  simp only [handleNotice, bind_eq_ok] at hh
  obtain ⟨noticeType, _, subType, _, _, _, exact, hexact, hrest⟩ := hh
  split at hrest
  · cases hrest
    exact ⟨noticeType, subType, launchUnder_mem hexact l hl⟩
  · rw [bind_eq_ok] at hrest
    obtain ⟨wild, hwild, hrest⟩ := hrest
    cases hrest
    rcases List.mem_append.mp hl with hl | hl
    · exact ⟨noticeType, subType, launchUnder_mem hexact l hl⟩
    · exact ⟨noticeType, [], launchUnder_mem hwild l hl⟩

theorem handleRequest_mem (hh : handleRequest h env event = .ok launches) {l : Launch} (hl : l ∈ launches) :
    ∃ n s, l.service ∈ (find₂ h.requestHandler n s).getD [] ∧ enabledFor env event l.service = .ok true := by
  simp only [handleRequest, bind_eq_ok] at hh
  obtain ⟨requestType, _, subType, _, _, _, hh⟩ := hh
  exact ⟨requestType, subType, launchUnder_mem hh l hl⟩

theorem handleMetaEvent_nil (hh : handleMetaEvent event = .ok launches) : launches = [] := by
  simp only [handleMetaEvent, bind_eq_ok] at hh
  obtain ⟨metaEventType, _, hh⟩ := hh
  split at hh
  · simp only [bind_eq_ok] at hh
    obtain ⟨subType, _, hh⟩ := hh
    split at hh
    · simp only [bind_eq_ok] at hh
      obtain ⟨_, _, hh⟩ := hh
      cases hh
      rfl
    · cases hh
      rfl
  · simp only [bind_eq_ok] at hh
    obtain ⟨_, _, _, _, hh⟩ := hh
    cases hh
    rfl

theorem handleMessage_launched (hk : Known P h) (hm : IsMessage event) (hh : handleMessage h env event = .ok launches)
    {l : Launch} (hl : l ∈ launches) :
    P l.service ∧ ∀ g, Concerns event g → (env.services l.service).groupStatus g = true := by
  obtain ⟨msg, messageType, perm, logged, marked, message, hd⟩ := handleMessage_eq_ok hh
  rcases hd.cases_type with ⟨_, groupId, hgroup, rfl⟩ | ⟨hp, rfl⟩ | ⟨_, _, rfl⟩
  · refine ⟨hk.dispatch hl, fun g hc => ?_⟩
    have hgroup' := hc.group
    rw [hgroup] at hgroup'
    cases hgroup'
    exact (groupGuard_iff.mp (mem_dispatchGroup hl).1).1
  · refine ⟨hk.dispatch hl, fun g hc => ?_⟩
    have hchat := hd.isGroup_iff.mp (hc.chat hm)
    rw [hp] at hchat
    exact absurd hchat (by decide)
  · cases hl

/-- Every launch is of a service that was registered, and in a group of one that is
on there. -/
theorem handle_launched (hk : Known P h) {b : Bool} (hh : handle h env event = .ok (b, launches)) {l : Launch}
    (hl : l ∈ launches) :
    P l.service ∧ ∀ g, Concerns event g → (env.services l.service).groupStatus g = true := by
  rcases handle_launches hh with rfl | ⟨postType, c, hpost, hchar, htype⟩
  · cases hl
  rw [handlePostType] at htype
  split at htype
  next hs => exact handleMessage_launched hk ⟨postType, hpost, hs ▸ hchar⟩ htype hl
  split at htype
  next =>
    obtain ⟨n, s, hmem, he⟩ := handleNotice_mem htype hl
    exact ⟨hk.notice n s _ hmem, fun g hc => enabled_of_enabledFor hc he⟩
  split at htype
  next =>
    obtain ⟨n, s, hmem, he⟩ := handleRequest_mem htype hl
    exact ⟨hk.request n s _ hmem, fun g hc => enabled_of_enabledFor hc he⟩
  split at htype
  next =>
    cases handleMetaEvent_nil htype
    cases hl
  next =>
    cases htype
    cases hl

end Pointers

section History

variable {plugins : List Plugin} {disk : Disk} {st : Registry × Disk}

theorem pointerOf_registrations {plugin : Plugin} {service : ServicePtr} :
    ∀ r ∈ plugin.trigger.registrations service, pointerOf r = service := by
  intro r hr
  cases htrigger : plugin.trigger with
  | onCommand type commands =>
      rw [htrigger] at hr
      obtain ⟨command, _, rfl⟩ := List.mem_map.mp hr
      rfl
  | onSchedule =>
      rw [htrigger] at hr
      cases hr
  | onRegex | onNotice | onRequest =>
      rw [htrigger] at hr
      cases List.mem_singleton.mp hr
      rfl

theorem Known.mono {P Q : ServicePtr → Prop} {h : EventHandler} (hk : Known P h) (himp : ∀ p, P p → Q p) :
    Known Q h where
  fullmatch command p hfound := himp p (hk.fullmatch command p hfound)
  prefixMatch key c hfound := himp _ (hk.prefixMatch key c hfound)
  suffixMatch key c hfound := himp _ (hk.suffixMatch key c hfound)
  regex matcher hmem := himp _ (hk.regex matcher hmem)
  allMsg p hmem := himp p (hk.allMsg p hmem)
  notice n s p hmem := himp p (hk.notice n s p hmem)
  request n s p hmem := himp p (hk.request n s p hmem)

theorem on_eq_ok {st st' : Registry × Disk} {plugin : Plugin} (hon : on st plugin = .ok st') :
    registerNew (st.1.manager, st.2) plugin.registration = .ok (st'.1.manager, st'.2) ∧
      st'.1.manager.serviceNameMap.length = st.1.manager.serviceNameMap.length + 1 ∧
      st'.1.handler = (plugin.trigger.registrations st.1.manager.serviceNameMap.length).foldl
        (fun h r => (register h r).1) st.1.handler := by
  simp only [on, bind_eq_ok] at hon
  obtain ⟨⟨sm', disk'⟩, hnew, hon⟩ := hon
  cases hon
  refine ⟨hnew, ?_, rfl⟩
  simp only [registerNew, bind_eq_ok] at hnew
  obtain ⟨⟨s, d⟩, _, hadded⟩ := hnew
  cases hadded
  exact List.length_append

/-- The manager has the services of the calls in their order, and the event handler
points to nothing else. -/
theorem start_registered {rest : List Plugin} {sm : ServiceManager} {h : EventHandler}
    (hk : Known (· < sm.serviceNameMap.length) h) (hstart : rest.foldlM on (⟨h, sm⟩, disk) = .ok st) :
    (rest.map Plugin.registration).foldlM registerNew (sm, disk) = .ok (st.1.manager, st.2) ∧
      Known (· < st.1.manager.serviceNameMap.length) st.1.handler := by
  induction rest generalizing sm h disk with
  | nil =>
      cases hstart
      exact ⟨rfl, hk⟩
  | cons plugin rest ih =>
      rw [List.foldlM_cons, bind_eq_ok] at hstart
      obtain ⟨⟨⟨h', sm'⟩, disk'⟩, hon, hstart⟩ := hstart
      obtain ⟨hnew, hlonger, hhandler⟩ := on_eq_ok hon
      have hk' : Known (· < sm'.serviceNameMap.length) h' := by
        dsimp only at hlonger hhandler
        rw [hhandler, hlonger]
        refine (hk.mono fun p hp => Nat.lt_succ_of_lt hp).registerEach fun r hr => ?_
        rw [pointerOf_registrations r hr]
        exact Nat.lt_succ_self _
      obtain ⟨hrest, hknown⟩ := ih hk' hstart
      refine ⟨?_, hknown⟩
      rw [List.map_cons, List.foldlM_cons, hnew]
      exact hrest

/-- The service at each place is the one that was registered there. -/
theorem registered_services {registrations : List ServiceManagement.Registration} {sm : ServiceManager} {d : Disk}
    (h : registerAll registrations disk = .ok (sm, d)) : sm.serviceNameMap.length = registrations.length ∧
      (∀ s ∈ sm.serviceNameMap, Writable s) ∧ ∀ (p : ServicePtr) r s, registrations[p]? = some r →
        sm.serviceNameMap[p]? = some s → s.serviceName = r.serviceName ∧ s.managePermission = r.managePermission := by
  obtain ⟨_, ts, hts, hcreated⟩ := registerAll_created h
  rw [List.nil_append] at hts
  rw [hts]
  obtain ⟨hlength, hget⟩ := List.forall₂_iff_get.mp hcreated
  refine ⟨hlength.symm, fun s hs => ?_, fun p r s hr hs => ?_⟩
  · obtain ⟨i, rfl⟩ := List.mem_iff_get.mp hs
    exact (created_current (hget i.1 (by rw [hlength]; exact i.2) i.2)).1.writable
  · obtain ⟨hp, rfl⟩ := List.getElem?_eq_some_iff.mp hr
    obtain ⟨hp', rfl⟩ := List.getElem?_eq_some_iff.mp hs
    exact new_names (hget p hp hp')

/-- The service at each place is the one its call made. -/
theorem start_created (hstart : start plugins disk = .ok st) :
    st.1.manager.serviceNameMap.length = plugins.length ∧ (∀ s ∈ st.1.manager.serviceNameMap, Writable s) ∧
      ∀ (p : ServicePtr) (plugin : Plugin) (s : Service), plugins[p]? = some plugin →
        st.1.manager.serviceNameMap[p]? = some s → s.serviceName = plugin.registration.serviceName ∧
          s.managePermission = plugin.registration.managePermission := by
  obtain ⟨hregister, _⟩ := start_registered known_empty hstart
  obtain ⟨hlength, hwritable, hnames⟩ := registered_services hregister
  rw [List.length_map] at hlength
  refine ⟨hlength, hwritable, fun p plugin s hplugin hs => hnames p _ s ?_ hs⟩
  rw [List.getElem?_map, hplugin]
  rfl

/-- What the event handler finds behind a pointer after the calls of the manager. -/
theorem services_after (hstart : start plugins disk = .ok st) (rs : List Request) {p : ServicePtr}
    {plugin : Plugin} {s : Service} (hplugin : plugins[p]? = some plugin)
    (hs : st.1.manager.serviceNameMap[p]? = some s) :
    services plugins ⟨st.1.manager.serviceNameMap.map (afterAll rs)⟩ p =
        ⟨afterAll rs s, plugin.usePermission, plugin.onlyToMe⟩ ∧
      ∀ g, (afterAll rs s).groupStatus g = lastEffective plugin.registration.managePermission (s.groupStatus g)
        (callsTo plugin.registration.serviceName rs) g := by
  obtain ⟨_, _, hnames⟩ := start_created hstart
  obtain ⟨hname, hperm⟩ := hnames p plugin s hplugin hs
  constructor
  · simp only [services, List.getElem?_map, hs, hplugin, Option.map_some, Option.getD_some, Option.elim_some]
  · intro g
    rw [groupStatus_afterAll, hname, hperm]

/-- What a call of the manager says to a service holds for all that the event handler
launches: in every group the services that are launched are those for which the
last call that sufficed, or their start, left them on. -/
theorem disabled_stays_silent (hstart : start plugins disk = .ok st) (rs : List Request) :
    ∃ manager disk', execAll st.1.manager st.2 rs = .ok (manager, disk') ∧
      ∀ config reMatch event b launches g, Concerns event g →
        handle st.1.handler ⟨services plugins manager, config, reMatch⟩ event = .ok (b, launches) →
        ∀ l ∈ launches, ∃ plugin s, plugins[l.service]? = some plugin ∧
          st.1.manager.serviceNameMap[l.service]? = some s ∧
          lastEffective plugin.registration.managePermission (s.groupStatus g)
            (callsTo plugin.registration.serviceName rs) g = true := by
  obtain ⟨_, hknown⟩ := start_registered known_empty hstart
  obtain ⟨hlength, hwritable, _⟩ := start_created hstart
  obtain ⟨e, hexec, _⟩ := execAll_eq st.1.manager st.2 hwritable rs
  refine ⟨_, e, hexec, fun config reMatch event b launches g hc hh l hl => ?_⟩
  obtain ⟨hlt, hon⟩ := handle_launched hknown hh hl
  have hs : st.1.manager.serviceNameMap[l.service]? = some (st.1.manager.serviceNameMap.get ⟨l.service, hlt⟩) :=
    List.getElem?_eq_getElem hlt
  have hplugin : plugins[l.service]? = some (plugins.get ⟨l.service, hlength ▸ hlt⟩) :=
    List.getElem?_eq_getElem _
  obtain ⟨hbehind, hstatus⟩ := services_after hstart rs hplugin hs
  refine ⟨_, _, hplugin, hs, ?_⟩
  rw [← hstatus]
  have hactive := hon g hc
  dsimp only at hactive
  rw [hbehind] at hactive
  exact hactive

def echoPlugins : List Plugin :=
  [⟨⟨bytes "echo", groupMember, true⟩, normal, false, .onRegex [bytes "echo"]⟩]

/-- The message is one that launches the service before the call. -/
theorem disabled_stays_silent_echo :
    ∃ st launch manager disk', start echoPlugins (fun _ => none) = .ok st ∧
      handle st.1.handler { onlyToMe with services := services echoPlugins st.1.manager } groupMessage =
        .ok (true, [launch]) ∧
      execAll st.1.manager st.2 [⟨bytes "echo", false, 5, groupOwner⟩] = .ok (manager, disk') ∧
      ∀ b launches, handle st.1.handler { onlyToMe with services := services echoPlugins manager } groupMessage =
        .ok (b, launches) → launches = [] := by
  have hstart : start echoPlugins (fun _ => none) = .ok _ := rfl
  obtain ⟨manager, disk', hexec, hsilent⟩ :=
    disabled_stays_silent hstart [⟨bytes "echo", false, 5, groupOwner⟩]
  refine ⟨_, ⟨.regex, 0, _⟩, manager, disk', hstart, rfl, hexec, fun b launches hh => ?_⟩
  rw [List.eq_nil_iff_forall_not_mem]
  intro l hl
  obtain ⟨plugin, s, hplugin, hs, hon⟩ :=
    hsilent _ _ _ _ _ 5 ⟨rfl, fun _ => ⟨bytes "group", rfl, rfl⟩⟩ hh l hl
  obtain ⟨hfirst, _⟩ := List.getElem?_eq_some_iff.mp hplugin
  have hzero : l.service = 0 := Nat.lt_one_iff.mp hfirst
  rw [hzero] at hplugin hs
  cases hplugin
  cases hs
  exact absurd hon (by decide)

end History

end MigangBot.Registrar
