import MigangBot.EventHandling
import MigangBot.Lib.Runs

namespace MigangBot.MessageHandling

open Lib.Exceptions Lib.Maps Text JsonValue ApiTypes Permission Services CommandTrie EventHandling

variable {h : EventHandler} {env : Environment}

theorem mem_launchIf {guard : TriggeredService → Bool} {path : Path} {event : Object}
    {service : Option ServicePtr} {l : Launch} :
    l ∈ launchIf env guard path event service ↔
      ∃ p, service = some p ∧ guard (env.services p) = true ∧ l = ⟨path, p, event⟩ := by
  cases service with
  | none => simp [launchIf]
  | some p =>
      simp only [launchIf, Option.some.injEq, exists_eq_left']
      split
      next hg => simp [hg]
      next hg => simp [hg]

def afterPrefix (h : EventHandler) (message : Bytes) (event : Object) : Object :=
  (h.commandPrefix.longestPrefix message event).1

def afterSuffix (h : EventHandler) (message : Bytes) (event : Object) : Object :=
  (h.commandSuffix.longestSuffix message (afterPrefix h message event)).1

def Listening (h : EventHandler) (env : Environment) (message : Bytes) (p : ServicePtr) : Prop :=
  (∃ matcher ∈ h.commandRegex, matcher.check env message = true ∧ matcher.service = p) ∨
    p ∈ h.allMsgHandler

theorem mem_dispatch {commandGuard : Object → TriggeredService → Bool} {guard : TriggeredService → Bool}
    {message : Bytes} {event : Object} {l : Launch} :
    l ∈ dispatch h env commandGuard guard message event ↔
      (∃ p, h.commandFullmatch.lookup message = some p ∧
        commandGuard event (env.services p) = true ∧ l = ⟨.fullmatch, p, event⟩) ∨
      (∃ p, (h.commandPrefix.longestPrefix message event).2 = some p ∧
        commandGuard (afterPrefix h message event) (env.services p) = true ∧
        l = ⟨.prefixMatch, p, afterPrefix h message event⟩) ∨
      (∃ p, (h.commandSuffix.longestSuffix message (afterPrefix h message event)).2 = some p ∧
        commandGuard (afterSuffix h message event) (env.services p) = true ∧
        l = ⟨.suffixMatch, p, afterSuffix h message event⟩) ∨
      (∃ matcher ∈ h.commandRegex, matcher.check env message = true ∧
        guard (env.services matcher.service) = true ∧
        l = ⟨.regex, matcher.service, afterSuffix h message event⟩) ∨
      ∃ p ∈ h.allMsgHandler, guard (env.services p) = true ∧
        l = ⟨.allMsg, p, afterSuffix h message event⟩ := by
  simp only [dispatch, List.mem_append, List.mem_flatMap, List.mem_filter, mem_launchIf,
    Option.some.injEq, exists_eq_left', afterPrefix, afterSuffix, and_assoc]

theorem find_found (event : Object) (c : Option (Command ServicePtr)) {key : String}
    (hk : key ≠ "__command_size__") : (found event c).1.find key = event.find key := by
  cases c with
  | none => rfl
  | some c => exact Object.find_set_ne _ _ hk

theorem find_afterPrefix (message : Bytes) (event : Object) {key : String}
    (hk : key ≠ "__command_size__") : (afterPrefix h message event).find key = event.find key :=
  find_found event _ hk

theorem find_afterSuffix (message : Bytes) (event : Object) {key : String}
    (hk : key ≠ "__command_size__") : (afterSuffix h message event).find key = event.find key :=
  (find_found _ _ hk).trans (find_afterPrefix message event hk)

theorem member_congr {event event' : Object} {key : String} (h : event'.find key = event.find key) :
    member event' key = member event key := by
  simp only [member, Object.index_value, h]

theorem contains_congr {event event' : Object} {key : String} (h : event'.find key = event.find key) :
    event'.contains key = event.contains key := by
  simp only [Object.contains, h]

theorem find_of_getString {event : Object} {key : String} {s : Bytes}
    (h : (member event key).getString = .ok s) : event.find key = some (.string s) := by
  rw [Json.getString_eq_ok, member, Object.index_value] at h
  cases hf : event.find key with
  | none => simp [hf] at h
  | some v => simpa [hf] using h

theorem find_logMessage {messageType : UInt8} {event event' : Object}
    (hl : logMessage messageType event = .ok event') {key : String} (hk : key ≠ "anonymous") :
    event'.find key = event.find key := by
  rw [logMessage] at hl
  split at hl
  · simp only [bind_eq_ok] at hl
    obtain ⟨_, _, hl⟩ := hl
    cases hl
    rfl
  · split at hl
    · simp only [logGroup, bind_eq_ok] at hl
      obtain ⟨_, _, _, _, hl⟩ := hl
      have hrest : (event.index "anonymous").1 = event' := by
        split at hl
        · rw [bind_eq_ok] at hl
          obtain ⟨_, _, hl⟩ := hl
          cases hl
          rfl
        · cases hl
          rfl
      rw [← hrest]
      exact Object.find_index_ne event hk
    · cases hl
      rfl

def atId (msg : Bytes) : Bytes :=
  (msg.drop (min 10 msg.length)).take
    (sizeSub (min (findFirstOf (char ']') msg) msg.length) (min 10 msg.length))

def SpeaksTo (env : Environment) (event : Object) (msg : Bytes) : Prop :=
  if startsWith msg (bytes "[CQ:at") then
    ∃ selfId, (member event "self_id").getUInt64 = .ok selfId ∧ atId msg = decimal selfId
  else startsWith msg env.config.botName = true

theorem speaksTo_congr {event event' : Object} {msg : Bytes}
    (hself : event'.find "self_id" = event.find "self_id") :
    SpeaksTo env event' msg ↔ SpeaksTo env event msg := by
  simp only [SpeaksTo, member_congr hself]

theorem prePropose_eq_ok {event event' : Object} {msg msg' : Bytes}
    (hp : prePropose env event msg = .ok (event', msg')) :
    (SpeaksTo env event msg ∧ event' = markToMe event msg') ∨
      (¬ SpeaksTo env event msg ∧ event' = event ∧ msg' = msg) := by
  rw [prePropose] at hp
  rw [SpeaksTo]
  split at hp
  next hat =>
    rw [if_pos hat]
    have hsub : substr msg (min 10 msg.length)
        (sizeSub (min (findFirstOf (char ']') msg) msg.length) (min 10 msg.length)) = .ok (atId msg) := by
      rw [substr, if_pos (by omega), atId]
    simp only [proposeAt, hsub, ok_bind, bind_eq_ok] at hp
    obtain ⟨selfId, hself, hp⟩ := hp
    split at hp
    next hid =>
      rw [bind_eq_ok] at hp
      obtain ⟨m, _, hp⟩ := hp
      cases hp
      exact .inl ⟨⟨selfId, hself, hid⟩, rfl⟩
    next hid =>
      cases hp
      refine .inr ⟨?_, rfl, rfl⟩
      rintro ⟨selfId', hself', hid'⟩
      rw [hself] at hself'
      cases hself'
      exact hid hid'
  next hat =>
    rw [if_neg hat]
    split at hp
    next hbot =>
      cases hp
      exact .inl ⟨hbot, rfl⟩
    next hbot =>
      cases hp
      exact .inr ⟨hbot, rfl, rfl⟩

theorem find_markToMe (event : Object) (msg : Bytes) {key : String} (hk : key ≠ "__to_me__")
    (hk' : key ≠ "message") : (markToMe event msg).find key = event.find key := by
  rw [markToMe, Object.find_set_ne _ _ hk', Object.find_set_ne _ _ hk]

theorem contains_markToMe (event : Object) (msg : Bytes) :
    (markToMe event msg).contains "__to_me__" = true := by
  simp [markToMe, Object.contains_set]

theorem find_prePropose {event event' : Object} {msg msg' : Bytes}
    (hp : prePropose env event msg = .ok (event', msg')) {key : String} (hk : key ≠ "__to_me__")
    (hk' : key ≠ "message") : event'.find key = event.find key := by
  rcases prePropose_eq_ok hp with ⟨_, rfl⟩ | ⟨_, rfl, _⟩
  · exact find_markToMe event msg' hk hk'
  · rfl

theorem message_prePropose {event event' : Object} {msg msg' : Bytes}
    (hm : event.find "message" = some (.string msg))
    (hp : prePropose env event msg = .ok (event', msg')) :
    event'.find "message" = some (.string msg') := by
  rcases prePropose_eq_ok hp with ⟨_, rfl⟩ | ⟨_, rfl, rfl⟩
  · simp [markToMe]
  · exact hm

/-- The text the matchers see, with the part removed that speaks to the bot. -/
def MatchedText (env : Environment) (event : Object) (message : Bytes) : Prop :=
  ∃ msg marked, event.find "message" = some (.string msg) ∧
    prePropose env event msg = .ok (marked, message)

theorem prePropose_congr {event event' marked : Object} {msg message : Bytes}
    (hself : event'.find "self_id" = event.find "self_id")
    (hp : prePropose env event msg = .ok (marked, message)) :
    ∃ marked', prePropose env event' msg = .ok (marked', message) := by
  rw [prePropose] at hp ⊢
  split at hp
  next hat =>
    rw [if_pos hat]
    simp only [proposeAt, member_congr hself, bind_eq_ok] at hp ⊢
    obtain ⟨id, hid, selfId, hself', hp⟩ := hp
    by_cases heq : id = decimal selfId
    · rw [if_pos heq, bind_eq_ok] at hp
      obtain ⟨m, hm, hp⟩ := hp
      cases hp
      exact ⟨_, id, hid, selfId, hself', by rw [if_pos heq, hm]; rfl⟩
    · rw [if_neg heq] at hp
      cases hp
      exact ⟨event', id, hid, selfId, hself', by rw [if_neg heq]; rfl⟩
  next hat =>
    rw [if_neg hat]
    split at hp
    next hbot =>
      cases hp
      exact ⟨_, by rw [if_pos hbot]⟩
    next hbot =>
      cases hp
      exact ⟨event', by rw [if_neg hbot]⟩

theorem matchedText_unique {event : Object} {m m' : Bytes} (h : MatchedText env event m)
    (h' : MatchedText env event m') : m = m' := by
  obtain ⟨msg, marked, hmsg, hp⟩ := h
  obtain ⟨msg', marked', hmsg', hp'⟩ := h'
  rw [hmsg, Option.some.injEq, Json.string.injEq] at hmsg'
  rw [← hmsg', hp] at hp'
  cases hp'
  rfl

def IsMessage (event : Object) : Prop :=
  ∃ postType, event.find "post_type" = some (.string postType) ∧ charAt postType 3 = .ok (char 's')

def IsGroup (event : Object) : Prop :=
  ∃ messageType, event.find "message_type" = some (.string messageType) ∧ first messageType = char 'g'

def IsPrivate (event : Object) : Prop :=
  ∃ messageType, event.find "message_type" = some (.string messageType) ∧ first messageType = char 'p'

/-- What Handle has read and made of a message event when it dispatches it. -/
structure Dispatched (h : EventHandler) (env : Environment) (event : Object) (launches : List Launch)
    (msg messageType : Bytes) (perm : Int) (logged marked : Object) (message : Bytes) : Prop where
  text : event.find "message" = some (.string msg)
  chat : event.find "message_type" = some (.string messageType)
  rank : getUserPermission env.config event = .ok perm
  log : logMessage (first messageType) event = .ok logged
  propose : prePropose env logged msg = .ok (marked, message)
  dispatch : dispatchMessage h env (first messageType) perm message marked = .ok launches

theorem handleMessage_eq_ok {event : Object} {launches : List Launch}
    (hh : handleMessage h env event = .ok launches) :
    ∃ msg messageType perm logged marked message,
      Dispatched h env event launches msg messageType perm logged marked message := by
  simp only [handleMessage, bind_eq_ok] at hh
  obtain ⟨msg, hmsg, messageType, htype, perm, hperm, logged, hlog, ⟨marked, message⟩, hmark, hh⟩ := hh
  exact ⟨msg, messageType, perm, logged, marked, message, find_of_getString hmsg,
    find_of_getString htype, hperm, hlog, hmark, hh⟩

/-- An event that is not filtered out goes on by the character of its post_type. -/
theorem handle_passed {event : Object} {postType : Bytes} {c : UInt8}
    (hpost : event.find "post_type" = some (.string postType)) (hchar : charAt postType 3 = .ok c)
    (hf : filter event = .ok true) :
    handle h env event = noexcept (handlePostType h env c event >>= fun launches => .ok (true, launches)) := by
  have hcontains : event.contains "post_type" = true := (Object.contains_iff _ _).mpr ⟨_, hpost⟩
  have hmember : (member event "post_type").getString = .ok postType := by
    simp [member, Object.index_value, hpost, Json.getString]
  simp only [handle, hf, ok_bind, if_true, hcontains, hmember, hchar]
  rfl

theorem handle_filtered {event : Object} (hf : filter event = .ok false) :
    handle h env event = .ok (false, []) := by
  rw [handle, hf]
  rfl

theorem handle_message {event : Object} {b : Bool} {launches : List Launch} (hm : IsMessage event)
    (hh : handle h env event = .ok (b, launches)) :
    (filter event = .ok false ∧ launches = []) ∨
      (filter event = .ok true ∧ handleMessage h env event = .ok launches) := by
  obtain ⟨postType, hpost, hchar⟩ := hm
  have hread := hh
  rw [handle, noexcept_eq_ok, bind_eq_ok] at hread
  obtain ⟨passes, hf, _⟩ := hread
  cases passes with
  | false =>
      rw [handle_filtered hf] at hh
      cases hh
      exact .inl ⟨hf, rfl⟩
  | true =>
      rw [handle_passed hpost hchar hf, noexcept_eq_ok, bind_eq_ok] at hh
      obtain ⟨ls, hls, hh⟩ := hh
      cases hh
      exact .inr ⟨hf, hls⟩

namespace Dispatched

variable {event logged marked : Object} {launches : List Launch} {msg messageType message : Bytes}
  {perm : Int}

theorem find_marked (hd : Dispatched h env event launches msg messageType perm logged marked message)
    {key : String} (hkey : key ∉ ["anonymous", "__to_me__", "message"]) :
    marked.find key = event.find key := by
  simp only [List.mem_cons, List.not_mem_nil, or_false, not_or] at hkey
  rw [find_prePropose hd.propose hkey.2.1 hkey.2.2, find_logMessage hd.log hkey.1]

theorem message_marked (hd : Dispatched h env event launches msg messageType perm logged marked message) :
    marked.find "message" = some (.string message) := by
  refine message_prePropose ?_ hd.propose
  rw [find_logMessage hd.log (by decide)]
  exact hd.text

theorem matchedText (hd : Dispatched h env event launches msg messageType perm logged marked message) :
    MatchedText env event message := by
  obtain ⟨marked', hp⟩ := prePropose_congr (find_logMessage hd.log (by decide)).symm hd.propose
  exact ⟨msg, marked', hd.text, hp⟩

theorem isGroup_iff (hd : Dispatched h env event launches msg messageType perm logged marked message) :
    IsGroup event ↔ first messageType = char 'g' := by
  simp [IsGroup, hd.chat]

theorem isPrivate_iff (hd : Dispatched h env event launches msg messageType perm logged marked message) :
    IsPrivate event ↔ first messageType = char 'p' := by
  simp [IsPrivate, hd.chat]

theorem cases_type (hd : Dispatched h env event launches msg messageType perm logged marked message) :
    (first messageType = char 'g' ∧ ∃ groupId, (member event "group_id").getUInt64 = .ok groupId ∧
      launches = dispatchGroup h env groupId perm message marked) ∨
    (first messageType = char 'p' ∧ launches = dispatchPrivate h env perm message marked) ∨
    (first messageType ≠ char 'g' ∧ first messageType ≠ char 'p' ∧ launches = []) := by
  have hl := hd.dispatch
  rw [dispatchMessage] at hl
  split at hl
  next hg =>
    rw [bind_eq_ok] at hl
    obtain ⟨groupId, hgroup, hl⟩ := hl
    rw [member_congr (hd.find_marked (show "group_id" ∉ _ by decide))] at hgroup
    cases hl
    exact .inl ⟨hg, groupId, hgroup, rfl⟩
  next hg =>
    split at hl
    next hp =>
      cases hl
      exact .inr (.inl ⟨hp, rfl⟩)
    next hp =>
      cases hl
      exact .inr (.inr ⟨hg, hp, rfl⟩)

end Dispatched

theorem mem_launches {event : Object} {b : Bool} {launches : List Launch} {l : Launch}
    (hm : IsMessage event) (hh : handle h env event = .ok (b, launches)) (hl : l ∈ launches) :
    ∃ message marked commandGuard guard, MatchedText env event message ∧
      marked.find "message" = some (.string message) ∧
      l ∈ dispatch h env commandGuard guard message marked := by
  rcases handle_message hm hh with ⟨_, rfl⟩ | ⟨_, hh⟩
  · cases hl
  obtain ⟨msg, messageType, perm, logged, marked, message, hd⟩ := handleMessage_eq_ok hh
  rcases hd.cases_type with ⟨_, groupId, _, rfl⟩ | ⟨_, rfl⟩ | ⟨_, _, rfl⟩
  · exact ⟨message, marked, _, _, hd.matchedText, hd.message_marked, hl⟩
  · exact ⟨message, marked, _, _, hd.matchedText, hd.message_marked, hl⟩
  · cases hl

theorem handed_prefix {event : Object} {b : Bool} {launches : List Launch} {l : Launch}
    (hm : IsMessage event) (hh : handle h env event = .ok (b, launches)) (hl : l ∈ launches)
    (hpath : l.path = .prefixMatch) :
    ∃ message marked, MatchedText env event message ∧
      (marked.find "message" = some (.string message) ∧ l.event.find "message" = some (.string message)) ∧
      h.commandPrefix.longestPrefix message marked = (l.event, some l.service) := by
  obtain ⟨message, marked, _, _, ht, hmark, hmem⟩ := mem_launches hm hh hl
  rcases mem_dispatch.mp hmem with ⟨_, _, _, rfl⟩ | ⟨p, hp, _, rfl⟩ | ⟨_, _, _, rfl⟩ |
      ⟨_, _, _, _, rfl⟩ | ⟨_, _, _, rfl⟩
  · cases hpath
  · refine ⟨message, marked, ht, ⟨hmark, ?_⟩, Prod.ext rfl hp⟩
    rw [find_afterPrefix message marked (by decide)]
    exact hmark
  · cases hpath
  · cases hpath
  · cases hpath

theorem handed_suffix {event : Object} {b : Bool} {launches : List Launch} {l : Launch}
    (hm : IsMessage event) (hh : handle h env event = .ok (b, launches)) (hl : l ∈ launches)
    (hpath : l.path = .suffixMatch) :
    ∃ message marked, MatchedText env event message ∧
      (marked.find "message" = some (.string message) ∧ l.event.find "message" = some (.string message)) ∧
      h.commandSuffix.longestSuffix message marked = (l.event, some l.service) := by
  obtain ⟨message, marked, _, _, ht, hmark, hmem⟩ := mem_launches hm hh hl
  rcases mem_dispatch.mp hmem with ⟨_, _, _, rfl⟩ | ⟨_, _, _, rfl⟩ | ⟨p, hp, _, rfl⟩ |
      ⟨_, _, _, _, rfl⟩ | ⟨_, _, _, rfl⟩
  · cases hpath
  · cases hpath
  · refine ⟨message, afterPrefix h message marked, ht, ⟨?_, ?_⟩, Prod.ext rfl hp⟩
    · rw [find_afterPrefix message marked (by decide)]
      exact hmark
    · rw [find_afterSuffix message marked (by decide)]
      exact hmark
  · cases hpath
  · cases hpath

def prefixCommand : Registration → Option (Bytes × ServicePtr)
  | .command .prefixMatch command service => some (command, service)
  | _ => none

def suffixCommand : Registration → Option (Bytes × ServicePtr)
  | .command .suffixMatch command service => some (command, service)
  | _ => none

def prefixCommands (regs : List Registration) : List (Bytes × ServicePtr) := regs.filterMap prefixCommand

def suffixCommands (regs : List Registration) : List (Bytes × ServicePtr) := regs.filterMap suffixCommand

theorem emplaceFullmatch_tries (h : EventHandler) (command : Bytes) (service : ServicePtr) :
    (emplaceFullmatch h command service).1.commandPrefix = h.commandPrefix ∧
      (emplaceFullmatch h command service).1.commandSuffix = h.commandSuffix := by
  rw [emplaceFullmatch]
  cases h.commandFullmatch.lookup command <;> exact ⟨rfl, rfl⟩

theorem register_tries (h : EventHandler) (r : Registration) :
    (register h r).1.commandPrefix =
      (prefixCommand r).elim h.commandPrefix (fun c => (h.commandPrefix.insert c.1 c.2).1) ∧
    (register h r).1.commandSuffix =
      (suffixCommand r).elim h.commandSuffix (fun c => (h.commandSuffix.insertFromBack c.1 c.2).1) := by
  cases r with
  | command type command service =>
      cases type with
      | fullmatch => exact emplaceFullmatch_tries h command service
      | keyword => exact emplaceFullmatch_tries h command service
      | prefixMatch => exact ⟨rfl, rfl⟩
      | suffixMatch => exact ⟨rfl, rfl⟩
      | allMsg => exact ⟨rfl, rfl⟩
  | regex patterns service => exact ⟨rfl, rfl⟩
  | notice noticeType subType service => exact ⟨rfl, rfl⟩
  | request requestType subType service => exact ⟨rfl, rfl⟩

theorem registered_tries (regs : List Registration) (h : EventHandler) :
    (regs.foldl (fun h r => (register h r).1) h).commandPrefix =
      (prefixCommands regs).foldl (fun t c => (t.insert c.1 c.2).1) h.commandPrefix ∧
    (regs.foldl (fun h r => (register h r).1) h).commandSuffix =
      (suffixCommands regs).foldl (fun t c => (t.insertFromBack c.1 c.2).1) h.commandSuffix := by
  constructor
  · exact Lib.Runs.foldl_part (fun h r => (register_tries h r).1) regs h
  · exact Lib.Runs.foldl_part (fun h r => (register_tries h r).2) regs h

theorem answers_longestPrefix (regs : List Registration) (message : Bytes) (event : Object) :
    Answers false (· <+: lower message) (· ≥ ·) (prefixCommands regs) event
      ((registered regs).commandPrefix.longestPrefix message event) := by
  rw [registered, (registered_tries regs .empty).1]
  exact answers_longest false (prefixCommands regs) message event

theorem answers_longestSuffix (regs : List Registration) (message : Bytes) (event : Object) :
    Answers true (· <:+ lower message) (· ≥ ·) (suffixCommands regs) event
      ((registered regs).commandSuffix.longestSuffix message event) := by
  rw [registered, (registered_tries regs .empty).2]
  exact answers_longest true (suffixCommands regs) message event

end MigangBot.MessageHandling
