import MigangBot.ApiCalls
import MigangBot.Digits
import MigangBot.EchoCorrelation
import MigangBot.JsonReads

namespace MigangBot.GroupCleaning

open Lib.Exceptions Text JsonValue ApiTypes ApiCalls Digits EchoCorrelation JsonReads

/-- What comes back for a call before its future is given up. -/
inductive Reply
  | noAnswer
  | answered (data : Json)

/-- The call of get_group_member_info while its future still waits. -/
def pending : EchoCorrelation.Call := ⟨0, .groupMemberInfo, true, []⟩

/-- CoFutureWrapper::get, once something was put into the promise or the time is
up. -/
def get (c : EchoCorrelation.Call) : ApiValue := c.values.head?.getD (defaultValue c.type)

def memberInfoOf : ApiValue → Outcome GroupMemberInfo
  | .groupMemberInfo info => .ok info
  | _ => .error .undefined

def memberInfo : Reply → Outcome GroupMemberInfo
  | .noAnswer => memberInfoOf (get pending)
  | .answered data => do
      let c ← pending.echoFunction data
      memberInfoOf (get c)

/-- The settings that DoClean reads. -/
structure Settings where
  superusers : List QId
  botName : Bytes
  autoCleanAfter : Int

/-- A turn of the loop: the group, what its call brings, and the clock. -/
structure Visit where
  group : GroupInfo
  reply : Reply
  now : Int

variable (settings : Settings)

def notify (text : Bytes) : List Json := settings.superusers.map fun white => sendPrivateMsg white text false

/-- The product is one of ints, for which overflow has no meaning. -/
def limit : Outcome Int :=
  let product := 3600 * 24 * settings.autoCleanAfter
  if -2 ^ 31 ≤ product ∧ product < 2 ^ 31 then .ok product else .error .undefined

def goodbye : Bytes := bytes "本群已超过" ++ (decimalInt settings.autoCleanAfter ++ (bytes "未使用" ++
  (settings.botName ++ bytes "，即将自动退群，如有误请联系维护者")))

def cleanGroup (selfId : QId) (visit : Visit) : Outcome (List Json × Bool) := do
  let groupId := visit.group.groupId
  let asked := getGroupMemberInfo groupId selfId false
  let selfInfo ← memberInfo visit.reply
  if visit.now - selfInfo.lastSentTime ≥ (← limit settings) then
    return (asked :: sendGroupMsg groupId (goodbye settings) false :: setGroupLeave groupId false ::
      notify settings (bytes "已自动退出群" ++ (decimal groupId ++ (bytes "(超过" ++
        (decimalInt settings.autoCleanAfter ++ bytes "天未使用)")))), true)
  else return ([asked], false)

/-- DoClean. The list of groups is the answer to its first call. -/
def doClean (event : Object) (visits : List Visit) : Outcome (List Json) := do
  let selfId ← (← event.constIndex "self_id").getUInt64
  let turns ← visits.mapM (cleanGroup settings selfId)
  let count := (turns.countP fun turn => turn.2)
  return getGroupList false :: (notify settings (bytes "已开始自动清理") ++
    (turns.flatMap (fun turn => turn.1) ++
      notify settings (bytes "清理结束，共清理" ++ (decimal (UInt32.ofNat count).toUInt64 ++ bytes "个群"))))

section Replies

/-- The record that an answer really carries. -/
def record : Reply → Option GroupMemberInfo
  | .noAnswer => none
  | .answered data =>
      if data.isNull then none
      else match desiredGroupMemberInfo data with
        | .ok info => some info
        | .error _ => none

/-- A missing field is read through operator[] of a constant object. -/
def Meaningful : Reply → Prop
  | .noAnswer => True
  | .answered data => data.isNull = true ∨ DecodableAs data .groupMemberInfo

/-- The time stamp as the answer has it, a number of seconds. -/
def reported : Reply → Option ℚ
  | .noAnswer => none
  | .answered data =>
      match data.constIndex "last_sent_time" with
      | .ok (.numberUnsigned n) => some n.toNat
      | .ok (.numberInteger i) => some i.toInt
      | .ok (.numberFloat q) => some q
      | _ => none

def lastSentTime (reply : Reply) : Int := ((record reply).map fun info => info.lastSentTime).getD 0

def noRecord : GroupMemberInfo := ⟨0, 0, [], [], [], 0, [], 0, 0, [], [], false, [], 0, false⟩

theorem memberInfo_noAnswer : memberInfo .noAnswer = .ok noRecord := rfl

theorem memberInfo_data (data : Json) :
    memberInfo (.answered data) = (pending.echoFunction data >>= fun c => memberInfoOf (get c)) := rfl

theorem memberInfo_null {data : Json} (h : data.isNull = true) : memberInfo (.answered data) = .ok noRecord := by
  rw [memberInfo_data, EchoCorrelation.Call.echoFunction, if_neg (by decide), if_pos h]
  rfl

/-- An exception of the decoding only shows as the default at the time-out. -/
theorem memberInfo_answered {data : Json} (h : data.isNull = false) :
    memberInfo (.answered data) = catching (fun _ => some noRecord) (desiredGroupMemberInfo data) := by
  rw [memberInfo_data, EchoCorrelation.Call.echoFunction, if_neg (by decide), if_neg (by simp [h])]
  simp only [pending, desiredValue, bind_pure_comp]
  rcases desiredGroupMemberInfo data with (e | _ | _) | info <;> rfl

theorem returns_memberInfo {reply : Reply} : Returns (memberInfo reply) ↔ Meaningful reply := by
  cases reply with
  | noAnswer => simp [memberInfo_noAnswer, Meaningful]
  | answered data =>
      rw [Meaningful]
      cases h : data.isNull with
      | true => simp [memberInfo_null h]
      | false =>
          rw [memberInfo_answered h, returns_catching (fun _ => rfl), ← catchable_desiredValue,
            desiredValue, bind_pure_comp, catchable_map]
          simp

theorem memberInfo_lastSentTime {reply : Reply} {info : GroupMemberInfo} (h : memberInfo reply = .ok info) :
    info.lastSentTime = lastSentTime reply := by
  cases reply with
  | noAnswer =>
      cases h
      rfl
  | answered data =>
      rw [lastSentTime, record]
      cases hn : data.isNull with
      | true =>
          rw [memberInfo_null hn] at h
          cases h
          rfl
      | false =>
          rw [memberInfo_answered hn] at h
          revert h
          rcases desiredGroupMemberInfo data with (e | _ | _) | info' <;> intro h <;> cases h <;> rfl

end Replies

section Cleaning

/-- Auto clean-up days, in seconds. -/
def span : Int := 3600 * 24 * settings.autoCleanAfter

def Bounded : Prop := -2 ^ 31 ≤ span settings ∧ span settings < 2 ^ 31

/-- The time stamp that the loop goes by is old enough. -/
def Stale (visit : Visit) : Prop := span settings ≤ visit.now - lastSentTime visit.reply

instance (visit : Visit) : Decidable (Stale settings visit) :=
  inferInstanceAs (Decidable (span settings ≤ visit.now - lastSentTime visit.reply))

/-- The answer has a time stamp, and that is old enough. -/
def Justified (visit : Visit) : Prop :=
  ∃ q, reported visit.reply = some q ∧ (span settings : ℚ) ≤ visit.now - q

/-- No record came and the span has not passed since the epoch, or the record has
the time that the answer has, or at least one that does not end the stay. -/
def Trusted (visit : Visit) : Prop :=
  match record visit.reply with
  | none => visit.now < span settings
  | some info => reported visit.reply = some (info.lastSentTime : ℚ) ∨
      visit.now - info.lastSentTime < span settings

def farewell (groupId : GId) : List Json :=
  sendGroupMsg groupId (goodbye settings) false :: setGroupLeave groupId false ::
    notify settings (bytes "已自动退出群" ++ (decimal groupId ++ (bytes "(超过" ++
      (decimalInt settings.autoCleanAfter ++ bytes "天未使用)"))))

variable {settings} {selfId : QId} {visit : Visit} {visits : List Visit}

theorem limit_eq (hb : Bounded settings) : limit settings = .ok (span settings) := if_pos hb

theorem returns_limit : Returns (limit settings) ↔ Bounded settings := by
  rw [limit]
  split
  next h => exact iff_of_true ⟨_, rfl⟩ h
  next h => exact iff_of_false (not_returns_error _) h

theorem returns_cleanGroup :
    Returns (cleanGroup settings selfId visit) ↔ Meaningful visit.reply ∧ Bounded settings := by
  rw [← returns_memberInfo, ← returns_limit]
  apply returns_bind_iff
  intro info _
  rw [← and_true (Returns (limit settings))]
  apply returns_bind_iff
  intro product _
  split <;> simp

theorem cleanGroup_eq_ok {turn : List Json × Bool} (h : cleanGroup settings selfId visit = .ok turn) :
    turn = (getGroupMemberInfo visit.group.groupId selfId false ::
      (if Stale settings visit then farewell settings visit.group.groupId else []),
      decide (Stale settings visit)) := by
  have hb := (returns_cleanGroup.mp ⟨_, h⟩).2
  obtain ⟨info, hi, h⟩ := bind_eq_ok.mp h
  rw [limit_eq hb, ok_bind, memberInfo_lastSentTime hi] at h
  by_cases hs : Stale settings visit
  · rw [if_pos (show visit.now - lastSentTime visit.reply ≥ span settings from hs)] at h
    cases h
    rw [if_pos hs, decide_eq_true hs]
    rfl
  · rw [if_neg (show ¬ visit.now - lastSentTime visit.reply ≥ span settings from hs)] at h
    cases h
    rw [if_neg hs, decide_eq_false hs]

theorem stale_of_not_trusted (h : ¬ Trusted settings visit) : Stale settings visit := by
  rw [Trusted] at h
  rw [Stale, lastSentTime]
  cases hr : record visit.reply with
  | none =>
      rw [hr] at h
      simpa using h
  | some info =>
      rw [hr] at h
      simpa using (not_or.mp h).2

theorem justified_of_trusted (h : Trusted settings visit) (hs : Stale settings visit) :
    Justified settings visit := by
  rw [Trusted] at h
  rw [Stale, lastSentTime] at hs
  cases hr : record visit.reply with
  | none =>
      rw [hr] at h hs
      simp at h hs
      omega
  | some info =>
      rw [hr] at h hs
      simp only [Option.map_some, Option.getD_some] at hs
      rcases h with h | h
      · exact ⟨_, h, by exact_mod_cast hs⟩
      · omega

theorem setGroupLeave_notMem_notify (gid : GId) (dismiss : Bool) (text : Bytes) :
    setGroupLeave gid dismiss ∉ notify settings text := by
  intro h
  obtain ⟨white, _, h⟩ := List.mem_map.mp h
  exact absurd (callApi_inj.mp h).1 (by decide)

theorem setGroupLeave_mem_farewell {gid groupId : GId} {dismiss : Bool} :
    setGroupLeave gid dismiss ∈ farewell settings groupId ↔ groupId = gid ∧ dismiss = false := by
  rw [farewell, List.mem_cons, List.mem_cons]
  constructor
  · intro h
    rcases h with h | h | h
    · exact absurd (callApi_inj.mp h).1 (by decide)
    · have := (callApi_inj.mp h).2
      simp only [List.cons.injEq, Prod.mk.injEq, Json.numberUnsigned.injEq, Json.boolean.injEq, true_and,
        and_true] at this
      exact ⟨this.1.symm, this.2⟩
    · exact absurd h (setGroupLeave_notMem_notify gid dismiss _)
  · intro h
    obtain ⟨rfl, rfl⟩ := h
    exact .inr (.inl rfl)

section Loop

variable {event : Object} (hs : (event.constIndex "self_id" >>= Json.getUInt64) = .ok selfId)

include hs

theorem doClean_eq : doClean settings event visits = (visits.mapM (cleanGroup settings selfId) >>= fun turns =>
    .ok (getGroupList false :: (notify settings (bytes "已开始自动清理") ++
      (turns.flatMap (fun turn => turn.1) ++ notify settings (bytes "清理结束，共清理" ++
        (decimal (UInt32.ofNat (turns.countP fun turn => turn.2)).toUInt64 ++ bytes "个群")))))) := by
  obtain ⟨v, hv, hself⟩ := bind_eq_ok.mp hs
  rw [doClean, hv, ok_bind, hself, ok_bind]
  rfl

theorem returns_doClean : Returns (doClean settings event visits) ↔
    ∀ visit ∈ visits, Meaningful visit.reply ∧ Bounded settings := by
  rw [doClean_eq hs, returns_bind_iff (fun _ _ => iff_true_intro (returns_ok _)), and_true, returns_mapM]
  exact forall₂_congr fun _ _ => returns_cleanGroup

theorem setGroupLeave_mem_doClean {calls : List Json} (h : doClean settings event visits = .ok calls)
    {gid : GId} {dismiss : Bool} : setGroupLeave gid dismiss ∈ calls ↔
      ∃ visit ∈ visits, visit.group.groupId = gid ∧ dismiss = false ∧ Stale settings visit := by
  rw [doClean_eq hs] at h
  obtain ⟨turns, hturns, h⟩ := bind_eq_ok.mp h
  cases h
  have hmap := mapM_eq_map (fun _ _ => cleanGroup_eq_ok) hturns
  have hasked (groupId : GId) : setGroupLeave gid dismiss ≠ getGroupMemberInfo groupId selfId false :=
    fun h => absurd (callApi_inj.mp h).1 (by decide)
  have hlist : setGroupLeave gid dismiss ≠ getGroupList false := fun h => absurd (callApi_inj.mp h).1 (by decide)
  simp only [hmap, List.mem_cons, hlist, List.mem_append, setGroupLeave_notMem_notify, List.mem_flatMap,
    List.mem_map, false_or, or_false, exists_exists_and_eq_and, hasked]
  refine exists_congr fun visit => and_congr_right fun _ => ?_
  by_cases hstale : Stale settings visit
  · simp [hstale, setGroupLeave_mem_farewell]
  · simp [hstale]

end Loop

/-- A group is left for cause exactly when every visit can be trusted, or another
visit of its group gives the cause, and the loop has a meaning at all. -/
theorem clean_safe_iff {event : Object}
    (hs : (event.constIndex "self_id" >>= Json.getUInt64) = .ok selfId) :
    (∃ calls, doClean settings event visits = .ok calls ∧ ∀ gid dismiss, setGroupLeave gid dismiss ∈ calls →
        ∃ visit ∈ visits, visit.group.groupId = gid ∧ Justified settings visit) ↔
      (∀ visit ∈ visits, Meaningful visit.reply ∧ Bounded settings) ∧
        ∀ visit ∈ visits, Trusted settings visit ∨
          ∃ other ∈ visits, other.group.groupId = visit.group.groupId ∧ Justified settings other := by
  constructor
  · intro h
    obtain ⟨calls, hcalls, hsafe⟩ := h
    refine ⟨(returns_doClean hs).mp ⟨calls, hcalls⟩, fun visit hvisit => ?_⟩
    by_cases ht : Trusted settings visit
    · exact .inl ht
    · exact .inr (hsafe visit.group.groupId false ((setGroupLeave_mem_doClean hs hcalls).mpr
        ⟨visit, hvisit, rfl, rfl, stale_of_not_trusted ht⟩))
  · intro h
    obtain ⟨hmeaning, htrusted⟩ := h
    obtain ⟨calls, hcalls⟩ := (returns_doClean hs).mpr hmeaning
    refine ⟨calls, hcalls, fun gid dismiss hleave => ?_⟩
    obtain ⟨visit, hvisit, rfl, _, hstale⟩ := (setGroupLeave_mem_doClean hs hcalls).mp hleave
    rcases htrusted visit hvisit with ht | hother
    · exact ⟨visit, hvisit, rfl, justified_of_trusted ht hstale⟩
    · exact hother

def fourWeeks : Settings := ⟨[10001], bytes "MigangBot", 28⟩

def cleaning : Object :=
  [("post_type", .string (bytes "message")), ("message", .string (bytes "自动清理")),
    ("self_id", .numberUnsigned 30003)]

/-- Nothing came back about group 40004. -/
def silent : Visit := ⟨⟨40004, bytes "friends", 12, 200⟩, .noAnswer, 1650633329⟩

def spoken : Visit where
  group := ⟨50005, bytes "others", 30, 200⟩
  reply := .answered (.object [("group_id", .numberUnsigned 50005), ("user_id", .numberUnsigned 30003),
    ("nickname", .string (bytes "bot")), ("card", .string []), ("sex", .string (bytes "unknown")),
    ("age", .numberUnsigned 0), ("area", .string []), ("join_time", .numberUnsigned 1600000000),
    ("last_sent_time", .numberUnsigned 1640000000), ("level", .string (bytes "1")),
    ("role", .string (bytes "member")), ("unfriendly", .boolean false), ("title", .string []),
    ("title_expire_time", .numberUnsigned 0), ("card_changeable", .boolean false)])
  now := 1650633329

theorem clean_safe_iff_spoken :
    (∃ calls, doClean fourWeeks cleaning [spoken] = .ok calls ∧
        ∀ gid dismiss, setGroupLeave gid dismiss ∈ calls →
          ∃ visit ∈ [spoken], visit.group.groupId = gid ∧ Justified fourWeeks visit) ↔
      (∀ visit ∈ [spoken], Meaningful visit.reply ∧ Bounded fourWeeks) ∧
        ∀ visit ∈ [spoken], Trusted fourWeeks visit ∨
          ∃ other ∈ [spoken], other.group.groupId = visit.group.groupId ∧ Justified fourWeeks other :=
  @clean_safe_iff fourWeeks 30003 [spoken] cleaning rfl

/-- Without an answer the group is left. -/
theorem silent_group_left :
    ¬ ∀ settings event visits (selfId : QId), (event.constIndex "self_id" >>= Json.getUInt64) = .ok selfId →
      ∃ calls, doClean settings event visits = .ok calls ∧ ∀ gid dismiss, setGroupLeave gid dismiss ∈ calls →
        ∃ visit ∈ visits, visit.group.groupId = gid ∧ Justified settings visit := by
  intro hall
  obtain ⟨calls, hcalls, hsafe⟩ := hall fourWeeks cleaning [silent] 30003 rfl
  have hstale : Stale fourWeeks silent := by decide
  obtain ⟨visit, hvisit, _, q, hq, _⟩ := hsafe 40004 false ((setGroupLeave_mem_doClean rfl hcalls).mpr
    ⟨silent, List.mem_singleton_self silent, rfl, rfl, hstale⟩)
  rw [List.mem_singleton.mp hvisit] at hq
  cases hq

end Cleaning

end MigangBot.GroupCleaning
