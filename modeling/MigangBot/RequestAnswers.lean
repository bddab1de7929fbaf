import MigangBot.BotManagement

namespace MigangBot.RequestAnswers

open Lib.Exceptions Text JsonValue ApiTypes ApiCalls Blacklists BotManagement

inductive Verdict
  | accepted
  | blacklisted
  | paused
  deriving DecidableEq

def Verdict.approves : Verdict → Bool
  | .accepted => true
  | .blacklisted | .paused => false

/-- The two kinds of request that handlers are registered for. -/
inductive Kind
  | friend
  | invite

structure Request where
  kind : Kind
  flag : Bytes
  userId : QId
  groupId : GId

/-- The event of a request: it names its kind, its flag and who asks. -/
structure Request.Shown (r : Request) (event : Object) : Prop where
  flag : event.find "flag" = some (.string r.flag)
  user : ∃ v, event.find "user_id" = some v ∧ v.getUInt64 = .ok r.userId
  requestType : event.find "request_type" = some (.string (match r.kind with
    | .friend => bytes "friend"
    | .invite => bytes "group"))
  invite : r.kind = .invite → event.find "sub_type" = some (.string (bytes "invite")) ∧
    ∃ v, event.find "group_id" = some v ∧ v.getUInt64 = .ok r.groupId

def handler (env : Surroundings) (s : BotManage) (userInfo : UserInfo) (event : Object) :
    Kind → Outcome (List Json)
  | .friend => handleFriendInvite env s userInfo event
  | .invite => handleGroupInvite env s userInfo event

/-- What is to be decided: automatic acceptance, and nobody on a blacklist. -/
def verdict (s : BotManage) (r : Request) : Verdict :=
  match r.kind with
  | .friend =>
      if !s.addFriendFlag then .paused
      else if isBlackUser s.lists r.userId then .blacklisted
      else .accepted
  | .invite =>
      if !s.addGroupFlag then .paused
      else if isBlackUser s.lists r.userId || isBlackGroup s.lists r.groupId then .blacklisted
      else .accepted

def IsAnswer (call : Json) : Prop :=
  ∃ params, call = callApi "set_friend_add_request" params ∨ call = callApi "set_group_add_request" params

def IsAnswerTo (r : Request) (approve : Bool) (call : Json) : Prop :=
  match r.kind with
  | .friend => call = setFriendAddRequest r.flag approve
  | .invite => ∃ reason, call = setGroupAddRequest r.flag (bytes "invite") reason approve

/-- The text of a notice for each outcome. -/
def noticeText (env : Surroundings) (nickname : Bytes) (r : Request) (v : Verdict) : Bytes :=
  match r.kind, v with
  | .friend, .accepted => friendNotice env nickname r.userId (bytes "已同意")
  | .friend, .blacklisted => friendNotice env nickname r.userId (bytes "已拒绝(黑名单)")
  | .friend, .paused => friendNotice env nickname r.userId (bytes "已拒绝(暂停自动加好友)")
  | .invite, .accepted => groupNotice env r.groupId nickname r.userId (bytes "新加入") []
  | .invite, .blacklisted => groupNotice env r.groupId nickname r.userId (bytes "已拒绝加入") (bytes "(黑名单)")
  | .invite, .paused => groupNotice env r.groupId nickname r.userId (bytes "已拒绝加入") (bytes "(暂停自动入群)")

/-- One answer frame, with the outcome, and the notices say that outcome. -/
structure Answered (env : Surroundings) (nickname : Bytes) (r : Request) (v : Verdict) (calls : List Json) :
    Prop where
  answer : ∃ before answer after, calls = before ++ answer :: after ∧ IsAnswerTo r v.approves answer ∧
    ∀ call ∈ before ++ after, ¬ IsAnswer call
  notices : notify env (noticeText env nickname r v) <:+ calls

theorem not_isAnswer {action : String} {params : Object}
    (hf : bytes action ≠ bytes "set_friend_add_request") (hg : bytes action ≠ bytes "set_group_add_request") :
    ¬ IsAnswer (callApi action params) := by
  intro h
  obtain ⟨params', h | h⟩ := h
  · exact hf (callApi_inj.mp h).1
  · exact hg (callApi_inj.mp h).1

theorem not_isAnswer_sendPrivateMsg (userId : QId) (message : Bytes) (autoEscape : Bool) :
    ¬ IsAnswer (sendPrivateMsg userId message autoEscape) :=
  not_isAnswer (by decide) (by decide)

theorem not_isAnswer_getStrangerInfo (userId : QId) : ¬ IsAnswer (getStrangerInfo userId) :=
  not_isAnswer (by decide) (by decide)

theorem not_isAnswer_notify (env : Surroundings) (text : Bytes) :
    ∀ call ∈ notify env text, ¬ IsAnswer call := by
  intro call hcall
  obtain ⟨white, _, rfl⟩ := List.mem_map.mp hcall
  exact not_isAnswer_sendPrivateMsg _ _ _

variable {env : Surroundings} {s : BotManage} {userInfo : UserInfo} {r : Request} {event : Object}

/-- The answer call that approve and reject make. -/
def answerCall (r : Request) (approve : Bool) (reason : Bytes) : Json :=
  match r.kind with
  | .friend => setFriendAddRequest r.flag approve
  | .invite => setGroupAddRequest r.flag (bytes "invite") reason approve

theorem handleAddRequestImpl_eq (h : r.Shown event) (approve : Bool) (reason : Bytes) :
    handleAddRequestImpl approve event reason = .ok [answerCall r approve reason] := by
  rw [handleAddRequestImpl, Object.constIndex_eq_ok.mpr h.flag, ok_bind, Json.getString, ok_bind,
    Object.constIndex_eq_ok.mpr h.requestType, ok_bind, Json.getString, ok_bind, answerCall]
  cases hk : r.kind with
  | friend => rfl
  | invite =>
      rw [Object.constIndex_eq_ok.mpr (h.invite hk).1]
      rfl

theorem isAnswerTo_answerCall (r : Request) (approve : Bool) (reason : Bytes) :
    IsAnswerTo r approve (answerCall r approve reason) := by
  rw [IsAnswerTo, answerCall]
  cases r.kind with
  | friend => rfl
  | invite => exact ⟨reason, rfl⟩

/-- What the handlers send before they ask who it is. -/
def opening (env : Surroundings) (r : Request) (v : Verdict) (reason : Bytes) : List Json :=
  match r.kind, v with
  | .friend, .accepted => [answerCall r true reason, sendPrivateMsg r.userId env.helpMsgFriend false]
  | .friend, .blacklisted => []
  | _, _ => [answerCall r v.approves reason]

theorem handler_eq (h : r.Shown event) : ∃ reason, handler env s userInfo event r.kind =
    .ok (opening env r (verdict s r) reason ++
      (getStrangerInfo r.userId :: notify env (noticeText env userInfo.nickname r (verdict s r)))) := by
  obtain ⟨v, hv, huser⟩ := h.user
  cases hk : r.kind with
  | friend =>
      rw [handler, handleFriendInvite, Object.constIndex_eq_ok.mpr hv, ok_bind, huser, ok_bind]
      simp only [approve, reject, handleAddRequestImpl_eq h, ok_bind, verdict, opening, noticeText, hk]
      cases s.addFriendFlag with
      | false => exact ⟨_, rfl⟩
      | true => 
          cases isBlackUser s.lists r.userId with
          | false => exact ⟨_, rfl⟩
          | true => exact ⟨[], rfl⟩
  | invite =>
      obtain ⟨g, hg, hgroup⟩ := (h.invite hk).2
      rw [handler, handleGroupInvite, Object.constIndex_eq_ok.mpr hv, ok_bind, huser, ok_bind,
        Object.constIndex_eq_ok.mpr hg, ok_bind, hgroup, ok_bind]
      simp only [approve, reject, handleAddRequestImpl_eq h, ok_bind, verdict, opening, noticeText, hk]
      cases s.addGroupFlag with
      | false => exact ⟨_, rfl⟩
      | true => 
          cases isBlackUser s.lists r.userId || isBlackGroup s.lists r.groupId with
          | false => exact ⟨_, rfl⟩
          | true => exact ⟨_, rfl⟩

theorem answered_of_opening {v : Verdict} {reason nickname : Bytes} {extra : List Json}
    (ho : opening env r v reason = answerCall r v.approves reason :: extra)
    (hextra : ∀ call ∈ extra, ¬ IsAnswer call) :
    Answered env nickname r v (opening env r v reason ++
      (getStrangerInfo r.userId :: notify env (noticeText env nickname r v))) := by
  constructor
  · refine ⟨[], answerCall r v.approves reason,
      extra ++ getStrangerInfo r.userId :: notify env (noticeText env nickname r v), ?_,
      isAnswerTo_answerCall r _ reason, ?_⟩
    · rw [ho]
      rfl
    · intro call hcall
      rw [List.nil_append, List.mem_append, List.mem_cons] at hcall
      rcases hcall with hcall | rfl | hcall
      · exact hextra call hcall
      · exact not_isAnswer_getStrangerInfo r.userId
      · exact not_isAnswer_notify env _ call hcall
  · exact ((List.suffix_cons _ _).trans (List.suffix_append _ _))

theorem isAnswer_of_isAnswerTo {approve : Bool} {call : Json} (h : IsAnswerTo r approve call) :
    IsAnswer call := by
  rw [IsAnswerTo] at h
  split at h
  · exact ⟨_, .inl h⟩
  · obtain ⟨reason, h⟩ := h
    exact ⟨_, .inr h⟩

theorem not_answered_of_silent {v : Verdict} {nickname text : Bytes} :
    ¬ Answered env nickname r v (getStrangerInfo r.userId :: notify env text) := by
  intro h
  obtain ⟨before, answer, after, hcalls, hanswer, _⟩ := h.answer
  have hmem : answer ∈ getStrangerInfo r.userId :: notify env text := by
    rw [hcalls]
    simp
  rcases List.mem_cons.mp hmem with rfl | hmem
  · exact not_isAnswer_getStrangerInfo _ (isAnswer_of_isAnswerTo hanswer)
  · exact not_isAnswer_notify env _ answer hmem (isAnswer_of_isAnswerTo hanswer)

theorem verdict_blacklisted_iff (hk : r.kind = .friend) :
    verdict s r = .blacklisted ↔ s.addFriendFlag = true ∧ isBlackUser s.lists r.userId = true := by
  rw [verdict, hk]
  cases s.addFriendFlag <;> cases isBlackUser s.lists r.userId <;> simp

/-- Every request gets its one answer but a friend request from a blacklisted
user while friends are accepted. -/
theorem request_answered_iff (h : r.Shown event) :
    (∃ calls, handler env s userInfo event r.kind = .ok calls ∧
        Answered env userInfo.nickname r (verdict s r) calls) ↔
      ¬ (r.kind = .friend ∧ s.addFriendFlag = true ∧ isBlackUser s.lists r.userId = true) := by
  obtain ⟨reason, heq⟩ := @handler_eq env s userInfo r event h
  simp only [heq, Except.ok.injEq, exists_eq_left']
  cases hk : r.kind with
  | friend =>
      rw [← verdict_blacklisted_iff hk]
      cases hv : verdict s r with
      | accepted =>
          have ho : opening env r .accepted reason =
              answerCall r true reason :: [sendPrivateMsg r.userId env.helpMsgFriend false] := by
            simp only [opening, hk]
          have hextra : ∀ call ∈ [sendPrivateMsg r.userId env.helpMsgFriend false], ¬ IsAnswer call := by
            intro call hcall
            rw [List.mem_singleton.mp hcall]
            exact not_isAnswer_sendPrivateMsg _ _ _
          simpa using answered_of_opening ho hextra
      | blacklisted =>
          have ho : opening env r .blacklisted reason = [] := by simp only [opening, hk]
          rw [ho]
          simpa using not_answered_of_silent
      | paused =>
          have ho : opening env r .paused reason = [answerCall r false reason] := by
            simp only [opening, hk, Verdict.approves]
          simpa using answered_of_opening ho (by simp)
  | invite =>
      have ho : opening env r (verdict s r) reason = [answerCall r (verdict s r).approves reason] := by
        simp only [opening, hk]
      simpa using answered_of_opening ho (by simp)

def settings : Surroundings where
  superusers := [10001]
  botName := bytes "MigangBot"
  helpMsgFriend := bytes "help"
  reason := bytes "sorry"
  currentTime := bytes "2022-05-01 12:00:00"

def newcomer : UserInfo := ⟨20002, bytes "new", bytes "unknown", 0⟩

def friendRequest : Object :=
  [("post_type", .string (bytes "request")), ("request_type", .string (bytes "friend")),
    ("flag", .string (bytes "f1")), ("user_id", .numberUnsigned 20002), ("self_id", .numberUnsigned 30003)]

theorem shown_friendRequest : Request.Shown ⟨.friend, bytes "f1", 20002, 0⟩ friendRequest where
  flag := rfl
  user := ⟨_, rfl, rfl⟩
  requestType := rfl
  invite h := by cases h

def accepting (lists : BlackLists) : BotManage := ⟨true, true, false, lists⟩

theorem request_answered_iff_newcomer :
    (∃ calls, handler settings (accepting (init emptyTable emptyTable)) newcomer friendRequest .friend =
        .ok calls ∧ Answered settings (bytes "new") ⟨.friend, bytes "f1", 20002, 0⟩
          (verdict (accepting (init emptyTable emptyTable)) ⟨.friend, bytes "f1", 20002, 0⟩) calls) ↔
      ¬ (Kind.friend = .friend ∧ true = true ∧
        isBlackUser (init emptyTable emptyTable) 20002 = true) :=
  request_answered_iff shown_friendRequest

/-- A friend request from the blacklist stays without an answer. -/
theorem blacklisted_friend_unanswered :
    ¬ ∀ env s userInfo (r : Request) event, r.Shown event →
      ∃ calls, handler env s userInfo event r.kind = .ok calls ∧
        Answered env userInfo.nickname r (verdict s r) calls := by
  intro hall
  let lists := addToQQBlackList (fun id => id.toNat) (init emptyTable emptyTable) 20002 (bytes "spam")
  obtain ⟨calls, hcalls, hanswered⟩ := hall settings (accepting lists) newcomer _ _ shown_friendRequest
  have hsilent : handler settings (accepting lists) newcomer friendRequest .friend =
      .ok (getStrangerInfo 20002 :: notify settings (friendNotice settings (bytes "new") 20002
        (bytes "已拒绝(黑名单)"))) := rfl
  rw [hsilent] at hcalls
  cases hcalls
  exact not_answered_of_silent (r := ⟨.friend, bytes "f1", 20002, 0⟩) hanswered

end MigangBot.RequestAnswers
