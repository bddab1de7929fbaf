import MigangBot.Registrar
import Mathlib.Data.List.MinMax

namespace MigangBot.MessageDispatch

open Lib.Exceptions Lib.Maps Lib.Tries Text JsonValue CommandTrie ApiTypes Permission Services ServiceStatus
  ServiceManagement RestartEquivalence EventHandling MessageHandling DispatchAuthorisation Registrar

section Scanning

variable {calls : List (Bytes × ServicePtr)} {fits : Bytes → Bool} {key : Bytes} {p : ServicePtr}

/-- Of the non-empty commands that fit the longest, and of these the first. -/
def longestFitting (fits : Bytes → Bool) (calls : List (Bytes × ServicePtr)) : Option ServicePtr :=
  ((calls.filter fun c => !c.1.isEmpty && fits (lower c.1)).argmax fun c => c.1.length).map Prod.snd

theorem idxOf_find_le {α : Type} [DecidableEq α] {q : α → Bool} {as : List α} {a b : α}
    (hfind : as.find? q = some a) (hb : q b = true) : as.idxOf a ≤ as.idxOf b := by
  induction as with
  | nil => cases hfind
  | cons c as ih =>
      by_cases hc : q c = true
      · rw [List.find?_cons_of_pos hc] at hfind
        cases hfind
        rw [List.idxOf_cons_self]
        exact Nat.zero_le _
      · rw [List.find?_cons_of_neg hc] at hfind
        have ha : c ≠ a := fun h => hc (h ▸ List.find?_some hfind)
        have hne : c ≠ b := fun h => hc (h ▸ hb)
        rw [List.idxOf_cons_ne _ ha, List.idxOf_cons_ne _ hne]
        exact Nat.succ_le_succ (ih hfind)

/-- Commands of one length that fit are one command up to case, and of those the
first keeps its place. -/
theorem longestFitting_of_wins
    (hunique : ∀ k k', fits k = true → fits k' = true → k.length = k'.length → k = k')
    (hw : Node.Wins (fun k => fits k = true) (firstUnder calls) (· ≥ ·) key p) :
    longestFitting fits calls = some p := by
  have hfound := hw.found
  rw [firstUnder, Option.map_eq_some_iff] at hfound
  obtain ⟨c, hc, rfl⟩ := hfound
  have hkey : lower c.1 = key := by simpa using List.find?_some hc
  have hlength (s : Bytes) : (lower s).length = s.length := List.length_map _
  have hnonempty (d : Bytes × ServicePtr) (hd : lower d.1 = key) : d.1 ≠ [] := by
    intro h
    rw [h, lower_nil] at hd
    exact hw.nonempty hd.symm
  have hfirst : (calls.filter fun c => !c.1.isEmpty && fits (lower c.1)).find? (fun c => lower c.1 = key) =
      some c := by
    rw [List.find?_filter, ← hc]
    apply congrArg (List.find? · calls)
    funext d
    have hfits := hw.fits
    by_cases hd : lower d.1 = key
    · simp [hd, hnonempty d hd, hfits]
    · simp [hd]
  have hmax : (calls.filter fun c => !c.1.isEmpty && fits (lower c.1)).argmax (fun c => c.1.length) = some c := by
    have hbest {d : Bytes × ServicePtr} (hd : d ∈ calls.filter fun c => !c.1.isEmpty && fits (lower c.1)) :
        fits (lower d.1) = true ∧ d.1.length ≤ c.1.length := by
      have hd' : d ∈ calls ∧ d.1 ≠ [] ∧ fits (lower d.1) = true := by simpa using hd
      have hle := hw.best (lower d.1) (by simpa using hd'.2.1) hd'.2.2
        fun hnone => firstUnder_eq_none.mp hnone d hd'.1 rfl
      rw [← hkey, hlength, hlength] at hle
      exact ⟨hd'.2.2, hle⟩
    refine List.argmax_eq_some_iff.mpr ⟨List.mem_of_find?_eq_some hfirst, fun d hd => (hbest hd).2, ?_⟩
    intro d hd hle
    have hsame : lower d.1 = key := by
      refine hunique _ _ (hbest hd).1 hw.fits ?_
      rw [← hkey, hlength, hlength]
      exact Nat.le_antisymm (hbest hd).2 hle
    exact idxOf_find_le hfirst (by simpa using hsame)
  rw [longestFitting, hmax]
  rfl

theorem longestFitting_of_missing (hm : Node.Missing (fun k => fits k = true) (firstUnder calls)) :
    longestFitting fits calls = none := by
  have hnone : (calls.filter fun c => !c.1.isEmpty && fits (lower c.1)) = [] := by
    rw [List.filter_eq_nil_iff]
    intro c hc
    have := missing_iff.mp hm c hc
    simpa using this
  rw [longestFitting, hnone]
  rfl

theorem longestFitting_of_answers {isFromBack : Bool} {event : Object} {answer : Object × Option ServicePtr}
    (hunique : ∀ k k', fits k = true → fits k' = true → k.length = k'.length → k = k')
    (ha : Answers isFromBack (fun k => fits k = true) (· ≥ ·) calls event answer) :
    answer.2 = longestFitting fits calls := by
  rcases ha with ⟨key, p, hw, rfl⟩ | ⟨hm, rfl⟩
  · exact (longestFitting_of_wins hunique hw).symm
  · exact (longestFitting_of_missing hm).symm

end Scanning

section Choosing

def exactCommand : EventHandling.Registration → Option (Bytes × ServicePtr)
  | .command .fullmatch command service | .command .keyword command service => some (command, service)
  | _ => none

def regexMatcher : EventHandling.Registration → Option RegexMatcher
  | .regex patterns service => some ⟨patterns, service⟩
  | _ => none

def allMsgService : EventHandling.Registration → Option ServicePtr
  | .command .allMsg _ service => some service
  | _ => none

variable (regs : List EventHandling.Registration) (h : EventHandler) (env : Environment) (message : Bytes)

def exactly (message : Bytes) (calls : List (Bytes × ServicePtr)) : Option ServicePtr :=
  (calls.find? fun c => c.1 = message).map Prod.snd

/-- What answers a message, from the list of the registrations alone. -/
def chosen (reMatch : Bytes → Bytes → Bool) : List (Path × ServicePtr) :=
  (exactly message (regs.filterMap exactCommand)).toList.map (Prod.mk .fullmatch) ++
    ((longestFitting (· <+: lower message) (prefixCommands regs)).toList.map (Prod.mk .prefixMatch) ++
      ((longestFitting (· <:+ lower message) (suffixCommands regs)).toList.map (Prod.mk .suffixMatch) ++
        (((regs.filterMap regexMatcher).filter fun m => m.regex.any (reMatch · message)).map
            (fun m => (.regex, m.service)) ++
          (regs.filterMap allMsgService).map (Prod.mk .allMsg))))

theorem emplaceFullmatch_lookup (command : Bytes) (service : ServicePtr) :
    (emplaceFullmatch h command service).1.commandFullmatch.lookup message =
      (h.commandFullmatch.lookup message).or (if command = message then some service else none) := by
  rw [emplaceFullmatch]
  cases hc : h.commandFullmatch.lookup command with
  | some p =>
      by_cases hm : command = message
      · rw [← hm, hc]
        rfl
      · rw [if_neg hm, Option.or_none]
  | none =>
      dsimp only
      rw [lookup_insert_eq]
      by_cases hm : command = message
      · rw [← hm, hc]
        simp
      · rw [if_neg hm, if_neg (Ne.symm hm), Option.or_none]

theorem register_listeners (r : EventHandling.Registration) :
    (register h r).1.commandFullmatch.lookup message =
        (h.commandFullmatch.lookup message).or (exactly message (exactCommand r).toList) ∧
      (register h r).1.commandRegex = h.commandRegex ++ (regexMatcher r).toList ∧
      (register h r).1.allMsgHandler = h.allMsgHandler ++ (allMsgService r).toList := by
  have hexact (command : Bytes) (service : ServicePtr) :
      exactly message [(command, service)] = if command = message then some service else none := by
    by_cases hm : command = message <;> simp [exactly, hm]
  have hlisteners (command : Bytes) (service : ServicePtr) :
      (emplaceFullmatch h command service).1.commandRegex = h.commandRegex ∧
        (emplaceFullmatch h command service).1.allMsgHandler = h.allMsgHandler := by
    rw [emplaceFullmatch]
    cases h.commandFullmatch.lookup command <;> exact ⟨rfl, rfl⟩
  cases r with
  | command type command service =>
      cases type with
      | fullmatch | keyword =>
          refine ⟨?_, ?_, ?_⟩
          · rw [register, registerCommand, emplaceFullmatch_lookup, ← hexact]
            rfl
          · exact (hlisteners command service).1.trans (List.append_nil _).symm
          · exact (hlisteners command service).2.trans (List.append_nil _).symm
      | prefixMatch | suffixMatch =>
          exact ⟨(Option.or_none ..).symm, (List.append_nil _).symm, (List.append_nil _).symm⟩
      | allMsg => exact ⟨(Option.or_none ..).symm, (List.append_nil _).symm, rfl⟩
  | regex patterns service => exact ⟨(Option.or_none ..).symm, rfl, (List.append_nil _).symm⟩
  | notice | request => exact ⟨(Option.or_none ..).symm, (List.append_nil _).symm, (List.append_nil _).symm⟩

theorem exactly_append (calls calls' : List (Bytes × ServicePtr)) :
    exactly message (calls ++ calls') = (exactly message calls).or (exactly message calls') := by
  rw [exactly, List.find?_append, Option.map_or]
  rfl

theorem filterMap_cons_toList {α β : Type} (f : α → Option β) (a : α) (as : List α) :
    (a :: as).filterMap f = (f a).toList ++ as.filterMap f := by
  cases h : f a <;> simp [h]

theorem registered_listeners_from :
    (regs.foldl (fun h r => (register h r).1) h).commandFullmatch.lookup message =
        (h.commandFullmatch.lookup message).or (exactly message (regs.filterMap exactCommand)) ∧
      (regs.foldl (fun h r => (register h r).1) h).commandRegex = h.commandRegex ++ regs.filterMap regexMatcher ∧
      (regs.foldl (fun h r => (register h r).1) h).allMsgHandler =
        h.allMsgHandler ++ regs.filterMap allMsgService := by
  induction regs generalizing h with
  | nil => exact ⟨(Option.or_none ..).symm, (List.append_nil _).symm, (List.append_nil _).symm⟩
  | cons r regs ih =>
      obtain ⟨hfull, hregex, hall⟩ := register_listeners h message r
      obtain ⟨ihfull, ihregex, ihall⟩ := ih (register h r).1
      rw [List.foldl_cons, ihfull, ihregex, ihall, hfull, hregex, hall, filterMap_cons_toList,
        filterMap_cons_toList, filterMap_cons_toList, exactly_append, Option.or_assoc, List.append_assoc,
        List.append_assoc]
      exact ⟨rfl, rfl, rfl⟩

theorem registered_listeners :
    (registered regs).commandFullmatch.lookup message = exactly message (regs.filterMap exactCommand) ∧
      (registered regs).commandRegex = regs.filterMap regexMatcher ∧
      (registered regs).allMsgHandler = regs.filterMap allMsgService :=
  registered_listeners_from regs .empty message

theorem registered_prefix (event : Object) :
    ((registered regs).commandPrefix.longestPrefix message event).2 =
      longestFitting (· <+: lower message) (prefixCommands regs) := by
  have ha : Answers false (fun k => decide (k <+: lower message) = true) (· ≥ ·) (prefixCommands regs) event
      ((registered regs).commandPrefix.longestPrefix message event) := by
    simpa only [decide_eq_true_eq] using answers_longestPrefix regs message event
  refine longestFitting_of_answers (fun k k' hk hk' hlength => ?_) ha
  have hpre := List.prefix_of_prefix_length_le (of_decide_eq_true hk) (of_decide_eq_true hk') hlength.le
  exact hpre.eq_of_length hlength

theorem registered_suffix (event : Object) :
    ((registered regs).commandSuffix.longestSuffix message event).2 =
      longestFitting (· <:+ lower message) (suffixCommands regs) := by
  have ha : Answers true (fun k => decide (k <:+ lower message) = true) (· ≥ ·) (suffixCommands regs) event
      ((registered regs).commandSuffix.longestSuffix message event) := by
    simpa only [decide_eq_true_eq] using answers_longestSuffix regs message event
  refine longestFitting_of_answers (fun k k' hk hk' hlength => ?_) ha
  have hsuf := List.suffix_of_suffix_length_le (of_decide_eq_true hk) (of_decide_eq_true hk') hlength.le
  exact hsuf.eq_of_length hlength

def Launch.choice (l : Launch) : Path × ServicePtr := (l.path, l.service)

/-- The commands are asked for more than the two kinds of listeners. -/
def admits (commandGuard guard : TriggeredService → Bool) (env : Environment) (choice : Path × ServicePtr) : Bool :=
  match choice.1 with
  | .regex | .allMsg => guard (env.services choice.2)
  | _ => commandGuard (env.services choice.2)

variable {env} {commandGuard : Object → TriggeredService → Bool} {guard : TriggeredService → Bool}

theorem choice_launchIf (path : Path) (event : Object) (service : Option ServicePtr) :
    (launchIf env guard path event service).map Launch.choice =
      (service.toList.map (Prod.mk path)).filter fun x => guard (env.services x.2) := by
  cases service with
  | none => rfl
  | some p => by_cases hg : guard (env.services p) = true <;> simp [launchIf, hg, Launch.choice]

theorem choice_launchEach {α : Type} (path : Path) (event : Object) (service : α → ServicePtr) (as : List α) :
    (as.flatMap fun a => launchIf env guard path event (some (service a))).map Launch.choice =
      (as.map fun a => (path, service a)).filter fun x => guard (env.services x.2) := by
  induction as with
  | nil => rfl
  | cons a as ih =>
      rw [List.flatMap_cons, List.map_append, ih, choice_launchIf, List.map_cons, ← List.singleton_append,
        List.filter_append]
      rfl

/-- The maps and the tries answer as the list does, and Handle launches what its
guards admit of the answer. -/
theorem dispatch_chosen {event : Object}
    (htoMe : ∀ e, e.contains "__to_me__" = event.contains "__to_me__" → commandGuard e = commandGuard event) :
    (dispatch (registered regs) env commandGuard guard message event).map Launch.choice =
      (chosen regs message env.reMatch).filter (admits (commandGuard event) guard env) := by
  have hfront := htoMe (afterPrefix (registered regs) message event)
    (contains_congr (find_afterPrefix message event (by decide)))
  have hback := htoMe (afterSuffix (registered regs) message event)
    (contains_congr (find_afterSuffix message event (by decide)))
  obtain ⟨hfull, hregex, hall⟩ := registered_listeners regs message
  rw [afterPrefix] at hfront
  rw [afterSuffix, afterPrefix] at hback
  simp only [dispatch, List.map_append, choice_launchIf, hfront, hback, registered_prefix, registered_suffix, hfull,
    hregex, hall, choice_launchEach, chosen, List.filter_append, List.filter_map]
  rfl

theorem exactly_mem {calls : List (Bytes × ServicePtr)} {p : ServicePtr} (h : exactly message calls = some p) :
    ∃ c ∈ calls, c.2 = p := by
  rw [exactly, Option.map_eq_some_iff] at h
  obtain ⟨c, hc, hp⟩ := h
  exact ⟨c, List.mem_of_find?_eq_some hc, hp⟩

theorem longestFitting_mem {fits : Bytes → Bool} {calls : List (Bytes × ServicePtr)} {p : ServicePtr}
    (h : longestFitting fits calls = some p) : ∃ c ∈ calls, c.2 = p := by
  rw [longestFitting, Option.map_eq_some_iff] at h
  obtain ⟨c, hc, hp⟩ := h
  exact ⟨c, List.mem_of_mem_filter (List.argmax_mem hc), hp⟩

/-- Nothing is chosen that was not registered. -/
theorem mem_chosen {reMatch : Bytes → Bytes → Bool} {choice : Path × ServicePtr}
    (hc : choice ∈ chosen regs message reMatch) : ∃ r ∈ regs, pointerOf r = choice.2 := by
  have hcommand {pick : EventHandling.Registration → Option (Bytes × ServicePtr)} {answer : Option ServicePtr}
      {path : Path} (hpick : ∀ r c, pick r = some c → pointerOf r = c.2)
      (hanswer : ∀ p, answer = some p → ∃ c ∈ regs.filterMap pick, c.2 = p)
      (hmem : choice ∈ answer.toList.map (Prod.mk path)) : ∃ r ∈ regs, pointerOf r = choice.2 := by
    obtain ⟨p, hp, rfl⟩ := List.mem_map.mp hmem
    obtain ⟨c, hcall, rfl⟩ := hanswer p (Option.mem_toList.mp hp)
    obtain ⟨r, hr, hrc⟩ := List.mem_filterMap.mp hcall
    exact ⟨r, hr, hpick r c hrc⟩
  simp only [chosen, List.mem_append] at hc
  rcases hc with hc | hc | hc | hc | hc
  · refine hcommand (fun r c h => ?_) (fun p => exactly_mem message) hc
    unfold exactCommand at h
    split at h <;> cases h <;> rfl
  · refine hcommand (fun r c h => ?_) (fun p => longestFitting_mem) hc
    unfold prefixCommand at h
    split at h <;> cases h
    rfl
  · refine hcommand (fun r c h => ?_) (fun p => longestFitting_mem) hc
    unfold suffixCommand at h
    split at h <;> cases h
    rfl
  · obtain ⟨m, hm, rfl⟩ := List.mem_map.mp hc
    obtain ⟨r, hr, hrm⟩ := List.mem_filterMap.mp (List.mem_of_mem_filter hm)
    refine ⟨r, hr, ?_⟩
    unfold regexMatcher at hrm
    split at hrm <;> cases hrm
    rfl
  · obtain ⟨p, hp, rfl⟩ := List.mem_map.mp hc
    obtain ⟨r, hr, hrp⟩ := List.mem_filterMap.mp hp
    refine ⟨r, hr, ?_⟩
    unfold allMsgService at hrp
    split at hrp <;> cases hrp
    rfl

end Choosing

section Plugins

variable {plugins : List Plugin} {disk : Disk} {st : Registry × Disk}

/-- The registrations with the event handler that the calls at start make. -/
def calls (plugins : List Plugin) : List EventHandling.Registration :=
  plugins.zipIdx.flatMap fun c => c.1.trigger.registrations c.2

theorem start_handler_from {rest : List Plugin} {sm : ServiceManager} {h : EventHandler}
    (hstart : rest.foldlM on (⟨h, sm⟩, disk) = .ok st) :
    st.1.handler = ((rest.zipIdx sm.serviceNameMap.length).flatMap fun c => c.1.trigger.registrations c.2).foldl
      (fun h r => (register h r).1) h := by
  induction rest generalizing sm h disk with
  | nil =>
      cases hstart
      rfl
  | cons plugin rest ih =>
      rw [List.foldlM_cons, bind_eq_ok] at hstart
      obtain ⟨⟨⟨h', sm'⟩, disk'⟩, hon, hstart⟩ := hstart
      obtain ⟨_, hlonger, hhandler⟩ := on_eq_ok hon
      dsimp only at hlonger hhandler
      rw [ih hstart, hlonger, hhandler, List.zipIdx_cons, List.flatMap_cons, List.foldl_append]

theorem start_handler (hstart : start plugins disk = .ok st) : st.1.handler = registered (calls plugins) :=
  start_handler_from hstart

/-- Whether the plugin may run for a user of this permission, in the group if the
message came from one. -/
def mayRun (plugins : List Plugin) (manager : ServiceManager) (rs : List Request) (group : Option GId) (perm : Int)
    (p : ServicePtr) : Bool :=
  match plugins[p]?, manager.serviceNameMap[p]? with
  | some plugin, some s =>
      decide (plugin.usePermission ≤ perm) && group.all fun g =>
        lastEffective plugin.registration.managePermission (s.groupStatus g)
          (callsTo plugin.registration.serviceName rs) g
  | _, _ => false

/-- In a group a command that is only for messages to the bot asks for one. -/
def mayAnswer (plugins : List Plugin) (manager : ServiceManager) (rs : List Request) (group : Option GId) (perm : Int)
    (toMe : Bool) (choice : Path × ServicePtr) : Bool :=
  mayRun plugins manager rs group perm choice.2 &&
    (decide (choice.1 ∈ [Path.regex, Path.allMsg]) || group.isNone ||
      !(plugins[choice.2]?).any Plugin.onlyToMe || toMe)

theorem chosen_started (hstart : start plugins disk = .ok st) {message : Bytes} {reMatch : Bytes → Bytes → Bool}
    {choice : Path × ServicePtr} (hc : choice ∈ chosen (calls plugins) message reMatch) :
    ∃ plugin s, plugins[choice.2]? = some plugin ∧ st.1.manager.serviceNameMap[choice.2]? = some s := by
  obtain ⟨r, hr, hp⟩ := mem_chosen _ _ hc
  obtain ⟨⟨plugin, i⟩, hmem, hr⟩ := List.mem_flatMap.mp hr
  rw [pointerOf_registrations r hr] at hp
  subst hp
  have hplugin := List.mem_zipIdx_iff_getElem?.mp hmem
  obtain ⟨hi, _⟩ := List.getElem?_eq_some_iff.mp hplugin
  rw [← (start_created hstart).1] at hi
  exact ⟨plugin, _, hplugin, List.getElem?_eq_getElem hi⟩

section Admission

variable {rs : List Request} {env : Environment} {choice : Path × ServicePtr} {plugin : Plugin} {s : Service}

theorem admits_group (hstart : start plugins disk = .ok st) (hplugin : plugins[choice.2]? = some plugin)
    (hs : st.1.manager.serviceNameMap[choice.2]? = some s)
    (henv : env.services = services plugins ⟨st.1.manager.serviceNameMap.map (afterAll rs)⟩)
    (g : GId) (perm : Int) (toMe : Bool) :
    admits (fun service => groupGuard g perm service && service.checkToMe toMe) (groupGuard g perm) env choice =
      mayAnswer plugins st.1.manager rs (some g) perm toMe choice := by
  obtain ⟨hbehind, hstatus⟩ := services_after hstart rs hplugin hs
  have hguard : groupGuard g perm (env.services choice.2) = mayRun plugins st.1.manager rs (some g) perm choice.2 := by
    rw [henv, hbehind, mayRun, hplugin, hs]
    dsimp only
    rw [Option.all_some, ← hstatus, Bool.and_comm]
    rfl
  have htoMe : (env.services choice.2).checkToMe toMe = (!(plugins[choice.2]?).any Plugin.onlyToMe || toMe) := by
    rw [henv, hbehind, hplugin]
    rfl
  obtain ⟨path, p⟩ := choice
  cases path <;> simp [admits, mayAnswer, hguard, htoMe]

theorem admits_private (hstart : start plugins disk = .ok st) (hplugin : plugins[choice.2]? = some plugin)
    (hs : st.1.manager.serviceNameMap[choice.2]? = some s)
    (henv : env.services = services plugins ⟨st.1.manager.serviceNameMap.map (afterAll rs)⟩) (perm : Int) :
    admits (fun service => service.checkPerm perm) (fun service => service.checkPerm perm) env choice =
      mayAnswer plugins st.1.manager rs none perm false choice := by
  obtain ⟨hbehind, _⟩ := services_after hstart rs hplugin hs
  have hguard : (env.services choice.2).checkPerm perm = mayRun plugins st.1.manager rs none perm choice.2 := by
    rw [henv, hbehind, mayRun, hplugin, hs]
    exact (Bool.and_true _).symm
  obtain ⟨path, p⟩ := choice
  cases path <;> simp [admits, mayAnswer, hguard]

end Admission

/-- From the calls at start, the calls of the manager since and the message to what
is launched: the plugins that the list of the registrations names for the text,
those of them that may run, each once and in that order. -/
theorem message_launches (hstart : start plugins disk = .ok st) (rs : List Request) :
    ∃ manager disk', execAll st.1.manager st.2 rs = .ok (manager, disk') ∧
      ∀ env event launches, env.services = services plugins manager → IsMessage event →
        handle st.1.handler env event = .ok (true, launches) →
        ∃ perm message, getUserPermission env.config event = .ok perm ∧ MatchedText env event message ∧
          (IsGroup event → ∃ g toMe, (member event "group_id").getUInt64 = .ok g ∧
            (toMe = true ↔ Addressed env event) ∧
            launches.map Launch.choice = (chosen (calls plugins) message env.reMatch).filter
              (mayAnswer plugins st.1.manager rs (some g) perm toMe)) ∧
          (IsPrivate event → launches.map Launch.choice = (chosen (calls plugins) message env.reMatch).filter
            (mayAnswer plugins st.1.manager rs none perm false)) ∧
          (¬ IsGroup event → ¬ IsPrivate event → launches = []) := by
  obtain ⟨_, hwritable, _⟩ := start_created hstart
  obtain ⟨e, hexec, _⟩ := execAll_eq st.1.manager st.2 hwritable rs
  refine ⟨_, e, hexec, fun env event launches henv hm hh => ?_⟩
  rcases handle_message hm hh with ⟨hf, _⟩ | ⟨_, hmessage⟩
  · rw [handle_filtered hf] at hh
    cases hh
  obtain ⟨msg, messageType, perm, logged, marked, message, hd⟩ := handleMessage_eq_ok hmessage
  have hfilter {group : Option GId} {toMe : Bool} {commandGuard guard : TriggeredService → Bool}
      (hadmits : ∀ choice plugin s, plugins[choice.2]? = some plugin →
        st.1.manager.serviceNameMap[choice.2]? = some s →
        admits commandGuard guard env choice = mayAnswer plugins st.1.manager rs group perm toMe choice) :
      (chosen (calls plugins) message env.reMatch).filter (admits commandGuard guard env) =
        (chosen (calls plugins) message env.reMatch).filter
          (mayAnswer plugins st.1.manager rs group perm toMe) := by
    refine List.filter_congr fun choice hc => ?_
    obtain ⟨plugin, s, hplugin, hs⟩ := chosen_started hstart hc
    exact hadmits choice plugin s hplugin hs
  refine ⟨perm, message, hd.rank, hd.matchedText, fun hg => ?_, fun hp => ?_, fun hg hp => ?_⟩
  · rcases hd.cases_type with ⟨_, g, hgroup, rfl⟩ | ⟨hp, _⟩ | ⟨hng, _⟩
    · refine ⟨g, marked.contains "__to_me__", hgroup, contains_marked hd, ?_⟩
      rw [dispatchGroup, start_handler hstart, dispatch_chosen _ _ fun e he => by simp only [he]]
      exact hfilter fun choice plugin s hplugin hs => admits_group hstart hplugin hs henv g perm _
    · rw [hd.isGroup_iff.mp hg] at hp
      exact absurd hp (by decide)
    · exact absurd (hd.isGroup_iff.mp hg) hng
  · rcases hd.cases_type with ⟨hg, _⟩ | ⟨_, rfl⟩ | ⟨_, hnp, _⟩
    · rw [hd.isPrivate_iff.mp hp] at hg
      exact absurd hg (by decide)
    · rw [dispatchPrivate, start_handler hstart, dispatch_chosen _ _ fun e he => rfl]
      exact hfilter fun choice plugin s hplugin hs => admits_private hstart hplugin hs henv perm
    · exact absurd (hd.isPrivate_iff.mp hp) hnp
  · rcases hd.cases_type with ⟨hg', _⟩ | ⟨hp', _⟩ | ⟨_, _, hnone⟩
    · exact absurd (hd.isGroup_iff.mpr hg') hg
    · exact absurd (hd.isPrivate_iff.mpr hp') hp
    · exact hnone

def twoPrefixes : List Plugin :=
  [⟨⟨bytes "short", groupMember, true⟩, normal, false, .onCommand .prefixMatch [bytes "ec"]⟩,
    ⟨⟨bytes "long", groupMember, true⟩, normal, false, .onCommand .prefixMatch [bytes "Ech", bytes "EC"]⟩,
    ⟨⟨bytes "echo", groupMember, true⟩, normal, false, .onRegex [bytes "echo"]⟩]

/-- The longer of two commands answers, and the pattern that was turned off in the
group does not. -/
theorem message_launches_longer :
    ∃ st manager disk', start twoPrefixes (fun _ => none) = .ok st ∧
      execAll st.1.manager st.2 [⟨bytes "echo", false, 5, groupOwner⟩] = .ok (manager, disk') ∧
      ∃ launches, handle st.1.handler { onlyToMe with services := services twoPrefixes manager } groupMessage =
        .ok (true, launches) ∧ launches.map Launch.choice = [(.prefixMatch, 1)] := by
  have hstart : start twoPrefixes (fun _ => none) = .ok _ := rfl
  obtain ⟨manager, disk', hexec, hlaunches⟩ := message_launches hstart [⟨bytes "echo", false, 5, groupOwner⟩]
  refine ⟨_, manager, disk', hstart, hexec, ?_⟩
  cases hexec
  refine Exists.imp (fun launches hh => ⟨hh, ?_⟩) ⟨_, rfl⟩
  obtain ⟨perm, message, hperm, hmessage, hgroup, _⟩ := hlaunches _ _ _ rfl isMessage_groupMessage hh
  cases matchedText_unique hmessage ⟨bytes "echo", _, rfl, rfl⟩
  cases hperm
  obtain ⟨g, toMe, hg, _, hchoice⟩ := hgroup ⟨bytes "group", rfl, rfl⟩
  cases hg
  rw [hchoice]
  cases toMe <;> rfl

end Plugins

end MigangBot.MessageDispatch
