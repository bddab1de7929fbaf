import MigangBot.JsonReads
import MigangBot.MessageViews
import Mathlib.Tactic.MkIffOfInductiveProp

namespace MigangBot.WellFormedEvents

open Lib.Exceptions Lib.Maps Text JsonValue ApiTypes Permission EventHandling MessageHandling
  MessageViews JsonReads

variable {α β : Type} {k : Kind} {get : Json → Outcome α} {read : Json → α}

theorem member_eq (event : Object) (key : String) : member event key = (event.find key).getD .null :=
  Object.index_value event key

theorem has_iff {event : Object} {key : String} : Has k event key ↔ k.Reads (member event key) := by
  rw [Has, member_eq]
  cases event.find key with
  | none => simp [not_reads_null]
  | some v => simp

theorem returns_member (hg : Getter k get read) {event : Object} {key : String} {f : α → Outcome β} :
    Returns (get (member event key) >>= f) ↔
      Has k event key ∧ Returns (f (read (member event key))) := by
  rw [hg.returns_bind, has_iff]

theorem returns_constIndex (hg : Getter k get read) {event : Object} {key : String}
    {f : α → Outcome β} : Returns (event.constIndex key >>= fun v => get v >>= f) ↔
      Has k event key ∧ Returns (f (read (member event key))) := by
  rw [Object.constIndex, Has, member_eq]
  cases event.find key with
  | none => simp
  | some v => simp [hg.returns_bind]

theorem returns_get (hg : Getter k get read) {event : Object} {key : String} :
    Returns (event.constIndex key >>= get) ↔ Has k event key := by
  rw [Object.constIndex, Has]
  cases event.find key with
  | none => simp
  | some v => simp [hg.returns]

theorem returns_value (hg : Getter k get read) {d : α} (hd : read .null = d) {event : Object}
    {key : String} {f : α → Outcome β} : Returns ((Json.object event).value get key d >>= f) ↔
      HasIfAny k event key ∧ Returns (f (read (member event key))) := by
  simp only [Json.value, HasIfAny, member_eq]
  cases event.find key with
  | none => simp [hd]
  | some v => simp [hg.returns_bind]

theorem value_eq_ok (hg : Getter k get read) {d : α} (hd : read .null = d) {event : Object}
    {key : String} (hh : HasIfAny k event key) :
    (Json.object event).value get key d = .ok (read (member event key)) := by
  rw [HasIfAny] at hh
  simp only [Json.value, member_eq]
  cases hf : event.find key with
  | none => simp [hd]
  | some v => exact hg.reads v (hh v hf)

theorem value_of_has (hg : Getter k get read) {d : α} {event : Object} {key : String} (h : Has k event key) :
    (Json.object event).value get key d = .ok (read (member event key)) := by
  obtain ⟨v, hf, hv⟩ := h
  rw [Json.value, member_eq, hf]
  exact hg.reads v hv

theorem constIndex_of_has (hg : Getter k get read) {event : Object} {key : String} (h : Has k event key)
    {f : α → Outcome β} : event.constIndex key >>= (fun v => get v >>= f) = f (read (member event key)) := by
  obtain ⟨v, hf, hv⟩ := h
  rw [Object.constIndex_eq_ok.mpr hf, ok_bind, hg.reads v hv, ok_bind, member_eq, hf]
  rfl

def textOf (event : Object) (key : String) : Bytes := asString (member event key)

def userOf (event : Object) : QId := asUInt64 (member event "user_id")

def groupOf (event : Object) : GId := asUInt64 (member event "group_id")

def SenderOk (event : Object) : Prop :=
  ∃ sender, event.find "sender" = some (.object sender) ∧
    HasIfAny .string sender "nickname" ∧ HasIfAny .int sender "user_id"

def LogOk (event : Object) : Prop :=
  (first (textOf event "message_type") = char 'p' → Has .string event "sub_type" ∧
    (first (textOf event "sub_type") = char 'f' → Has .uint64 event "self_id" ∧ SenderOk event)) ∧
  (first (textOf event "message_type") = char 'g' → Has .uint64 event "self_id" ∧
    Has .uint64 event "group_id" ∧ (isAnonymous event = false → SenderOk event))

/-- The role of a sender is read where nothing else decides the permission. -/
def PermissionOk (config : Config) (event : Object) : Prop :=
  Has .uint64 event "user_id" ∧
  (userOf event ∉ config.superusers → userOf event ∉ config.whiteList →
    first (textOf event "message_type") = char 'g' → isAnonymous event = false →
    ∀ sender, event.find "sender" = some (.object sender) → HasIfAny .string sender "role")

def AfterAtOk (msg : Bytes) : Prop :=
  let rest := msg.drop (sizeSucc (findFirstOf (char ']') msg))
  (∃ c ∈ rest, c ≠ char ' ') ∨ npos ≤ rest.length

def ProposeOk (event : Object) (msg : Bytes) : Prop :=
  startsWith msg (bytes "[CQ:at") = true → Has .uint64 event "self_id" ∧
    (atId msg = decimal (asUInt64 (member event "self_id")) → AfterAtOk msg)

/-- Nothing is left to be copied of a text that speaks to the bot: it is the bare name,
or, though no text is so long, it ends in spaces that find_first_not_of cannot count. -/
def NothingLeft (botName msg : Bytes) : Prop :=
  if startsWith msg (bytes "[CQ:at") then
    let rest := msg.drop (sizeSucc (findFirstOf (char ']') msg))
    rest.length = npos ∧ ∀ c ∈ rest, c = char ' '
  else msg = botName

/-- What is left of a text that speaks to the bot is copied after it was freed. -/
def CopyOk (env : Environment) (event : Object) : Prop :=
  SpeaksTo env event (textOf event "message") → NothingLeft env.config.botName (textOf event "message")

structure MessageOk (env : Environment) (event : Object) : Prop where
  text : Has .string event "message"
  chat : Has .string event "message_type"
  permission : PermissionOk env.config event
  log : LogOk event
  propose : ProposeOk event (textOf event "message")

def Meets (m : FiniteMap Bytes (FiniteMap Bytes (List ServicePtr))) (type subType : Bytes) : Prop :=
  ∃ p ps, find₂ m type subType = some (p :: ps)

@[mk_iff] structure NoticeOk (h : EventHandler) (event : Object) : Prop where
  type : HasIfAny .string event "notice_type"
  subType : HasIfAny .string event "sub_type"
  self : Has .uint64 event "self_id"
  group : Meets h.noticeHandler (textOf event "notice_type") (textOf event "sub_type") ∨
    Meets h.noticeHandler (textOf event "notice_type") [] → HasIfAny .uint64 event "group_id"

@[mk_iff] structure RequestOk (h : EventHandler) (event : Object) : Prop where
  type : HasIfAny .string event "request_type"
  subType : HasIfAny .string event "sub_type"
  self : Has .uint64 event "self_id"
  group : Meets h.requestHandler (textOf event "request_type") (textOf event "sub_type") →
    HasIfAny .uint64 event "group_id"

@[mk_iff] structure MetaEventOk (event : Object) : Prop where
  type : Has .string event "meta_event_type"
  lifecycle : first (textOf event "meta_event_type") = char 'l' → Has .string event "sub_type" ∧
    (first (textOf event "sub_type") ∈ [char 'e', char 'c', char 'd'] → Has .uint64 event "self_id")
  heartbeat : first (textOf event "meta_event_type") ≠ char 'l' →
    Has .uint64 event "self_id" ∧ Has .int64 event "time"

@[mk_iff] structure PostTypeOk (h : EventHandler) (env : Environment) (event : Object) : Prop where
  type : Has .string event "post_type"
  length : 3 ≤ (textOf event "post_type").length
  message : (textOf event "post_type").getD 3 0 = char 's' → MessageOk env event ∧ CopyOk env event
  notice : (textOf event "post_type").getD 3 0 = char 'i' → NoticeOk h event
  request : (textOf event "post_type").getD 3 0 = char 'u' → RequestOk h event
  metaEvent : (textOf event "post_type").getD 3 0 = char 'a' → MetaEventOk event

def FilterOk (event : Object) : Prop :=
  HasIfAny .string event "message_type" ∧
  (textOf event "message_type" = bytes "private" → HasIfAny .string event "sub_type")

def GroupTalk (event : Object) : Prop :=
  textOf event "message_type" = bytes "private" ∧ textOf event "sub_type" = bytes "group"

/-- The events that Handle comes through. -/
def HandleOk (h : EventHandler) (env : Environment) (event : Object) : Prop :=
  event.contains "post_type" = true → FilterOk event ∧
    (¬ GroupTalk event → event.contains "retcode" = false → PostTypeOk h env event)

variable {h : EventHandler} {env : Environment} {event : Object}

theorem has_congr {event' : Object} {key : String} (hf : event'.find key = event.find key) :
    Has k event' key ↔ Has k event key := by
  simp only [Has, hf]

theorem returns_logSender : Returns (logSender event) ↔ SenderOk event := by
  rw [logSender, SenderOk, member_eq]
  cases event.find "sender" with
  | none => simp [Json.value]
  | some v =>
      cases v with
      | object sender =>
          simp only [Option.getD_some, Option.some.injEq, Json.object.injEq, exists_eq_left']
          rw [returns_value getter_getString (d := []) rfl, returns_value getter_getInt (d := 0) rfl]
          simp
      | _ => simp [Json.value]

theorem returns_logPrivate : Returns (logPrivate event) ↔ Has .string event "sub_type" ∧
    (first (textOf event "sub_type") = char 'f' → Has .uint64 event "self_id" ∧ SenderOk event) := by
  rw [logPrivate, returns_member getter_getString]
  refine and_congr_right fun _ => ?_
  rw [← textOf]
  split
  next hf => simp [returns_member getter_getUInt64, returns_logSender, hf]
  next hf => simp [hf]

theorem isNull_index : (event.index "anonymous").2.isNull = !isAnonymous event := by
  rw [Object.index_value, isAnonymous]
  cases event.find "anonymous" with
  | none => rfl
  | some v => simp

theorem returns_logGroup : Returns (logGroup event) ↔ Has .uint64 event "self_id" ∧
    Has .uint64 event "group_id" ∧ (isAnonymous event = false → SenderOk event) := by
  have hfind : ∀ key, key ≠ "anonymous" → (event.index "anonymous").1.find key = event.find key :=
    fun key hk => Object.find_index_ne event hk
  have hsender : SenderOk (event.index "anonymous").1 ↔ SenderOk event := by
    rw [SenderOk, SenderOk, hfind _ (by decide)]
  simp only [logGroup]
  rw [returns_member getter_getUInt64, returns_member getter_getUInt64,
    has_congr (hfind "self_id" (by decide)), has_congr (hfind "group_id" (by decide)), isNull_index]
  refine and_congr_right fun _ => and_congr_right fun _ => ?_
  cases isAnonymous event with
  | true => simp
  | false => simp [returns_logSender, hsender]

theorem returns_logMessage : Returns (logMessage (first (textOf event "message_type")) event) ↔
    LogOk event := by
  have hne : char 'p' ≠ char 'g' := by decide
  rw [logMessage, LogOk]
  split
  next hp => simp [returns_logPrivate, hp, hne]
  next hp =>
    split
    next hg => simp [returns_logGroup, hg, hne.symm]
    next hg => simp [hp, hg]

theorem returns_senderPermission : Returns (senderPermission event) ↔
    ∀ sender, event.find "sender" = some (.object sender) → HasIfAny .string sender "role" := by
  rw [senderPermission, hasRole, Object.constIndex]
  cases event.find "sender" with
  | none => simp
  | some v =>
      cases v with
      | object sender =>
          simp only [Json.contains, Option.some.injEq, Json.object.injEq, forall_eq', hasIfAny_iff]
          by_cases hc : Object.contains sender "role" = true
          · simp only [hc, if_true, ok_bind, Json.constIndex, returns_constIndex getter_getString]
            simp
          · simp [hc]
      | _ => simp [Json.contains]

theorem returns_getUserPermission {config : Config} (hchat : Has .string event "message_type") :
    Returns (getUserPermission config event) ↔ PermissionOk config event := by
  rw [getUserPermission, returns_constIndex getter_getUInt64, PermissionOk, ← userOf]
  refine and_congr_right fun _ => ?_
  by_cases hs : userOf event ∈ config.superusers
  · simp [hs]
  by_cases hw : userOf event ∈ config.whiteList
  · simp [hs, hw]
  simp only [hs, hw, if_false, not_false_eq_true, true_implies, chatPermission]
  rw [returns_constIndex getter_getString, ← textOf]
  simp only [hchat, true_and]
  split
  next hg =>
    cases isAnonymous event with
    | true => simp [hg]
    | false => simp [hg, returns_senderPermission]
  next hg => simp [hg]

theorem findFirstOf_succ_le (c : UInt8) (s : Bytes) : sizeSucc (findFirstOf c s) ≤ s.length := by
  rw [findFirstOf]
  cases hf : s.findIdx? (· == c) with
  | none => simp [sizeSucc, npos]
  | some i =>
      have hi : i < s.length := (List.findIdx?_eq_some_iff_getElem.mp hf).1
      simp only [Option.getD_some, sizeSucc]
      exact (Nat.mod_le _ _).trans hi

theorem findFirstNotOf_le (c : UInt8) (s : Bytes) :
    findFirstNotOf c s ≤ s.length ↔ (∃ d ∈ s, d ≠ c) ∨ npos ≤ s.length := by
  rw [findFirstNotOf]
  cases hf : s.findIdx? (· != c) with
  | none =>
      rw [List.findIdx?_eq_none_iff] at hf
      have hn : ¬ ∃ d ∈ s, d ≠ c := by
        rintro ⟨d, hd, hdc⟩
        have := hf d hd
        simp [hdc] at this
      simp [hn]
  | some i =>
      obtain ⟨hi, hd, _⟩ := List.findIdx?_eq_some_iff_getElem.mp hf
      have he : ∃ d ∈ s, d ≠ c := ⟨s[i], List.getElem_mem hi, by simpa using hd⟩
      simp [he, hi.le]

theorem returns_afterAt {msg : Bytes} : Returns (afterAt msg) ↔ AfterAtOk msg := by
  rw [afterAt, AfterAtOk, substrFrom, if_pos (findFirstOf_succ_le _ _), ok_bind, substrFrom,
    ← findFirstNotOf_le]
  split
  next hle => simp only [returns_ok, hle]
  next hle => simp only [not_returns_throwing, hle]

theorem returns_prePropose {msg : Bytes} : Returns (prePropose env event msg) ↔ ProposeOk event msg := by
  rw [prePropose, ProposeOk]
  split
  next hat =>
    rw [proposeAt, substr, if_pos (by omega), ok_bind, ← atId, returns_member getter_getUInt64]
    simp only [hat, true_implies]
    refine and_congr_right fun _ => ?_
    split
    next hid => simp [returns_afterAt, hid]
    next hid => simp [hid]
  next hat =>
    split <;> simp [hat]

theorem returns_dispatchMessage {messageType : UInt8} {perm : Int} {message : Bytes} :
    Returns (dispatchMessage h env messageType perm message event) ↔
      (messageType = char 'g' → Has .uint64 event "group_id") := by
  rw [dispatchMessage]
  split
  next hg => simp [getter_getUInt64.returns, has_iff, hg]
  next hg => split <;> simp [hg]

/-- Neither logging nor pre-processing takes away what is read after it. -/
theorem returns_handleMessage : Returns (handleMessage h env event) ↔ MessageOk env event := by
  have hpropose : ∀ logged, logMessage (first (textOf event "message_type")) event = .ok logged →
      (Returns (prePropose env logged (textOf event "message")) ↔
        ProposeOk event (textOf event "message")) := by
    intro logged hlog
    have hself : logged.find "self_id" = event.find "self_id" := find_logMessage hlog (by decide)
    rw [returns_prePropose, ProposeOk, ProposeOk, has_congr hself, member_congr hself]
  rw [handleMessage, returns_member getter_getString, returns_member getter_getString, ← textOf, ← textOf]
  constructor
  · rintro ⟨htext, hchat, hr⟩
    rw [returns_bind] at hr
    obtain ⟨perm, hperm, hr⟩ := hr
    rw [returns_bind] at hr
    obtain ⟨logged, hlog, hr⟩ := hr
    rw [returns_bind] at hr
    obtain ⟨marked, hmark, _⟩ := hr
    exact ⟨htext, hchat, (returns_getUserPermission hchat).mp ⟨_, hperm⟩,
      returns_logMessage.mp ⟨_, hlog⟩, (hpropose logged hlog).mp ⟨_, hmark⟩⟩
  · rintro ⟨htext, hchat, hperm, hlog, hmark⟩
    refine ⟨htext, hchat, ?_⟩
    obtain ⟨perm, hperm⟩ := (returns_getUserPermission hchat).mpr hperm
    have hgroup := hlog.2
    obtain ⟨logged, hlog⟩ := returns_logMessage.mpr hlog
    obtain ⟨⟨marked, message⟩, hmark⟩ := (hpropose logged hlog).mpr hmark
    simp only [hperm, hlog, hmark, ok_bind, returns_dispatchMessage]
    intro hg
    have hfind : marked.find "group_id" = event.find "group_id" :=
      (find_prePropose hmark (by decide) (by decide)).trans (find_logMessage hlog (by decide))
    rw [has_congr hfind]
    exact (hgroup hg).2.1

theorem substrFrom_nonspace_eq_nil {c : UInt8} {s rest : Bytes}
    (h : substrFrom s (findFirstNotOf c s) = .ok rest) : rest = [] ↔ s.length = npos ∧ ∀ d ∈ s, d = c := by
  rw [substrFrom] at h
  split at h
  next hle =>
    cases h
    rw [List.drop_eq_nil_iff]
    cases hf : s.findIdx? (· != c) with
    | none =>
        have hnpos : findFirstNotOf c s = npos := by rw [findFirstNotOf, hf]; rfl
        rw [hnpos] at hle ⊢
        have hall : ∀ d ∈ s, d = c := by simpa [List.findIdx?_eq_none_iff] using hf
        exact ⟨fun hge => ⟨hge.antisymm hle, hall⟩, fun hs => hs.1.le⟩
    | some i =>
        obtain ⟨hi, hd, _⟩ := List.findIdx?_eq_some_iff_getElem.mp hf
        have hpos : findFirstNotOf c s = i := by rw [findFirstNotOf, hf]; rfl
        rw [hpos]
        constructor
        · intro hge
          omega
        · rintro ⟨_, hall⟩
          simp [hall s[i] (List.getElem_mem hi)] at hd
  next => cases h

theorem prePropose_eq_nil {msg message : Bytes} {marked : Object} (hs : SpeaksTo env event msg)
    (hp : prePropose env event msg = .ok (marked, message)) :
    message = [] ↔ NothingLeft env.config.botName msg := by
  rw [SpeaksTo] at hs
  rw [prePropose] at hp
  rw [NothingLeft]
  split at hp
  next hat =>
    rw [if_pos hat] at hs ⊢
    obtain ⟨selfId, hself, hid⟩ := hs
    rw [proposeAt, substr, if_pos (by omega), ok_bind, hself, ok_bind, ← atId, if_pos hid, bind_eq_ok] at hp
    obtain ⟨rest, hrest, hp⟩ := hp
    cases hp
    rw [afterAt, substrFrom, if_pos (findFirstOf_succ_le _ _), ok_bind] at hrest
    exact substrFrom_nonspace_eq_nil hrest
  next hat =>
    rw [if_neg hat] at hs ⊢
    rw [if_pos hs] at hp
    cases hp
    obtain ⟨rest, rfl⟩ := List.isPrefixOf_iff_prefix.mp hs
    simp

theorem spent_iff_copyOk (h : MessageOk env event) : Spent env event ↔ CopyOk env event := by
  obtain ⟨v, hfind, ⟨msg, rfl⟩, _⟩ := h.text
  have htext : textOf event "message" = msg := by
    rw [textOf, member_eq, hfind]
    rfl
  rw [CopyOk, htext]
  obtain ⟨⟨marked, message⟩, hp⟩ := returns_prePropose.mpr (htext ▸ h.propose)
  have hmatched : MatchedText env event message := ⟨msg, marked, hfind, hp⟩
  constructor
  · intro hspent hs
    exact (prePropose_eq_nil hs hp).mp (hspent message hmatched msg hfind hs)
  · intro hcopy message' hmatched' msg' hfind' hs
    cases hfind.symm.trans hfind'
    rw [matchedText_unique hmatched' hmatched, prePropose_eq_nil hs hp]
    exact hcopy hs

theorem returns_handleMessageView :
    Returns (handleMessageView h env event) ↔ MessageOk env event ∧ CopyOk env event := by
  constructor
  · rintro ⟨launches, hl⟩
    obtain ⟨hl, hspent⟩ := handleMessageView_eq_ok.mp hl
    have hok : MessageOk env event := returns_handleMessage.mp ⟨launches, hl⟩
    exact ⟨hok, (spent_iff_copyOk hok).mp hspent⟩
  · rintro ⟨hok, hcopy⟩
    obtain ⟨launches, hl⟩ := returns_handleMessage.mpr hok
    exact ⟨launches, handleMessageView_eq_ok.mpr ⟨hl, (spent_iff_copyOk hok).mpr hcopy⟩⟩

theorem returns_enabledFor {p : ServicePtr} :
    Returns (enabledFor env event p) ↔ HasIfAny .uint64 event "group_id" := by
  rw [enabledFor, hasIfAny_iff]
  split
  next hc => simp [getter_getUInt64.returns, has_iff, hc]
  next hc => simp [hc]

theorem returns_launchEach {path : Path} {ps : List ServicePtr} :
    Returns (launchEach env path event ps) ↔ (ps ≠ [] → HasIfAny .uint64 event "group_id") := by
  induction ps with
  | nil => simp [launchEach]
  | cons p ps ih =>
      rw [launchEach, returns_bind_iff (p := ps ≠ [] → HasIfAny .uint64 event "group_id"),
        returns_enabledFor]
      · simp only [ne_eq, reduceCtorEq, not_false_eq_true, true_implies]
        exact and_iff_left_of_imp fun hg _ => hg
      · intro enabled _
        simp [ih]

theorem returns_launchUnder {m : FiniteMap Bytes (FiniteMap Bytes (List ServicePtr))} {path : Path}
    {type subType : Bytes} : Returns (launchUnder env m path event type subType) ↔
      (Meets m type subType → HasIfAny .uint64 event "group_id") := by
  rw [launchUnder, Meets]
  cases find₂ m type subType with
  | none => simp
  | some services => cases services <;> simp [returns_launchEach]

theorem returns_handleNotice : Returns (handleNotice h env event) ↔ NoticeOk h event := by
  rw [handleNotice, returns_value getter_getString (d := []) rfl,
    returns_value getter_getString (d := []) rfl, returns_member getter_getUInt64, ← textOf, ← textOf,
    returns_bind_iff (p := Meets h.noticeHandler (textOf event "notice_type") [] →
      HasIfAny .uint64 event "group_id"), returns_launchUnder, noticeOk_iff, or_imp]
  intro exact hexact
  split
  next hempty =>
    rw [List.isEmpty_iff.mp hempty] at hexact
    simpa using returns_launchUnder.mp ⟨exact, hexact⟩
  next hempty => simp [returns_launchUnder]

theorem returns_handleRequest : Returns (handleRequest h env event) ↔ RequestOk h event := by
  rw [handleRequest, returns_value getter_getString (d := []) rfl,
    returns_value getter_getString (d := []) rfl, returns_member getter_getUInt64, ← textOf, ← textOf,
    returns_launchUnder, requestOk_iff]

theorem returns_handleMetaEvent : Returns (handleMetaEvent event) ↔ MetaEventOk event := by
  rw [handleMetaEvent, returns_member getter_getString, ← textOf, metaEventOk_iff]
  refine and_congr_right fun _ => ?_
  by_cases hl : first (textOf event "meta_event_type") = char 'l'
  · rw [if_pos hl, returns_member getter_getString, ← textOf]
    simp only [hl, true_implies, ne_eq, not_true_eq_false, false_implies, and_true, List.mem_cons,
      List.not_mem_nil, or_false]
    refine and_congr_right fun _ => ?_
    split
    next hc => simp [getter_getUInt64.returns, has_iff, hc]
    next hc => simp [hc]
  · rw [if_neg hl, returns_member getter_getUInt64, returns_member getter_getInt64]
    simp [hl]

theorem returns_isGroupTalk (hp : event.contains "post_type" = true) :
    Returns (isGroupTalk event) ↔ FilterOk event := by
  rw [isGroupTalk, if_pos hp, returns_value getter_getString (d := []) rfl, ← textOf, FilterOk]
  refine and_congr_right fun _ => ?_
  split
  next hm =>
    rw [returns_value getter_getString (d := []) rfl]
    simp [hm]
  next hm => simp [hm]

theorem isGroupTalk_eq_ok {b : Bool} (hp : event.contains "post_type" = true)
    (hb : isGroupTalk event = .ok b) : b = true ↔ GroupTalk event := by
  obtain ⟨htype, hsub⟩ := (returns_isGroupTalk hp).mp ⟨b, hb⟩
  rw [isGroupTalk, if_pos hp, value_eq_ok getter_getString (d := []) rfl htype, ok_bind, ← textOf] at hb
  rw [GroupTalk]
  split at hb
  next hm =>
    rw [value_eq_ok getter_getString (d := []) rfl (hsub hm), ok_bind, ← textOf] at hb
    cases hb
    simp [hm]
  next hm =>
    cases hb
    simp [hm]

theorem returns_handlePostTypeView {c : UInt8} : Returns (handlePostTypeView h env c event) ↔
    (c = char 's' → MessageOk env event ∧ CopyOk env event) ∧ (c = char 'i' → NoticeOk h event) ∧
    (c = char 'u' → RequestOk h event) ∧ (c = char 'a' → MetaEventOk event) := by
  have hsi : char 's' ≠ char 'i' := by decide
  have hsu : char 's' ≠ char 'u' := by decide
  have hsa : char 's' ≠ char 'a' := by decide
  have hiu : char 'i' ≠ char 'u' := by decide
  have hia : char 'i' ≠ char 'a' := by decide
  have hua : char 'u' ≠ char 'a' := by decide
  rw [handlePostTypeView]
  split
  next hc => simp [hc, returns_handleMessageView, hsi, hsu, hsa]
  next hs =>
    rw [handlePostType, if_neg hs]
    split
    next hc => simp [hc, returns_handleNotice, hsi.symm, hiu, hia]
    next hi =>
      split
      next hc => simp [hc, returns_handleRequest, hsu.symm, hiu.symm, hua]
      next hu =>
        split
        next hc => simp [hc, returns_handleMetaEvent, hsa.symm, hia.symm, hua.symm]
        next ha => simp [hs, hi, hu, ha]

theorem returns_postType : Returns (do
      let postType ← (member event "post_type").getString
      let launches ← handlePostTypeView h env (← charAt postType 3) event
      return (true, launches)) ↔ PostTypeOk h env event := by
  rw [returns_member getter_getString, ← textOf, charAt]
  rw [postTypeOk_iff]
  refine and_congr_right fun _ => ?_
  by_cases hlen : 3 ≤ (textOf event "post_type").length
  · simp only [hlen, if_true, ok_bind, bind_pure_comp, returns_map, returns_handlePostTypeView, true_and]
  · simp [hlen]

theorem filter_of_isGroupTalk {talk : Bool} (ht : isGroupTalk event = .ok talk) :
    filter event = .ok (!talk && !event.contains "retcode") := by
  simp [filter, ht, noexcept, pure, Except.pure]

theorem returns_handleView : Returns (handleView h env event) ↔ HandleOk h env event := by
  rw [handleView, returns_noexcept, HandleOk]
  by_cases hp : event.contains "post_type" = true
  · simp only [hp, true_implies, if_true]
    by_cases hok : FilterOk event
    · obtain ⟨talk, htalk⟩ := (returns_isGroupTalk hp).mpr hok
      have hgroup := isGroupTalk_eq_ok hp htalk
      simp only [filter_of_isGroupTalk htalk, ok_bind, hok, true_and, ← hgroup]
      cases talk with
      | true => simp
      | false =>
          cases event.contains "retcode" with
          | true => simp
          | false => simpa using returns_postType
    · have hf : ¬ Returns (filter event) := by
        rw [filter, returns_noexcept, bind_pure_comp, returns_map, returns_isGroupTalk hp]
        exact hok
      simp only [hok, false_and, iff_false]
      rw [returns_bind]
      rintro ⟨b, hb, _⟩
      exact hf ⟨b, hb⟩
  · have htalk : isGroupTalk event = .ok false := if_neg hp
    simp only [filter_of_isGroupTalk htalk, ok_bind, hp]
    split <;> simp

end MigangBot.WellFormedEvents
