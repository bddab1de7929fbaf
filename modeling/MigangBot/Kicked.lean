import MigangBot.WhiteBlack

namespace MigangBot.Kicked

open Lib.Exceptions Lib.Maps Lib.Runs Text JsonValue ApiTypes ApiCalls Blacklists BotManagement RequestAnswers
  StrictMode

section Code

def kickReason : Bytes := bytes "直接踢出群而未使用.dismiss"

variable (sqlInteger : UInt64 → Int) (env : Surroundings)

/-- BandedOrKicked::Handlekicked up to where it waits for the data of the operator. -/
def askedAfter (event : Object) : Outcome (GId × QId × List Json) := do
  let groupId ← (← event.constIndex "group_id").getUInt64
  let operatorId ← (← event.constIndex "operator_id").getUInt64
  return (groupId, operatorId, [getStrangerInfo operatorId])

def kickedNotice (timeNow nickname : Bytes) (operatorId : QId) (groupId : GId) : Bytes :=
  timeNow ++ (bytes "|已被(Q)" ++ (nickname ++ (bytes "(" ++ (decimal operatorId ++ (bytes ")踢出(群)" ++
    decimal groupId)))))

def listedNotice (timeNow nickname : Bytes) (operatorId : QId) (groupId : GId) : Bytes :=
  timeNow ++ (bytes "|已将(Q)" ++ (nickname ++ (bytes "(" ++ (decimal operatorId ++ (bytes ")&(群)" ++
    (decimal groupId ++ bytes "加入黑名单"))))))

/-- The rest of it. -/
def handlekicked (lists : BlackLists) (userInfo : UserInfo) (groupId : GId) (operatorId : QId) :
    BlackLists × List Json :=
  let told := notify env (kickedNotice env.currentTime userInfo.nickname operatorId groupId)
  let lists := addToGroupBlackList sqlInteger lists groupId kickReason
  let lists := addToQQBlackList sqlInteger lists operatorId kickReason
  (lists, told ++ notify env (listedNotice env.currentTime userInfo.nickname operatorId groupId))

/-- GroupInvite::Handle_group_increase, with the two texts it sends to the group. -/
def handleGroupIncrease (autoLeaveReason helpMsgGroup : Bytes) (s : BotManage) (event : Object) :
    Outcome (List Json) := do
  let userId ← (← event.constIndex "user_id").getUInt64
  let groupId ← (← event.constIndex "group_id").getUInt64
  let selfId ← (← event.constIndex "self_id").getUInt64
  if userId = selfId then
    if s.rejectGroupForceFlag then
      return sendGroupMsg groupId autoLeaveReason false :: setGroupLeave groupId false ::
        notify env (env.currentTime ++ (bytes "|" ++ (env.botName ++ (bytes "已自动退出(群)" ++
          (decimal groupId ++ bytes "(严格模式)")))))
    else
      return sendGroupMsg groupId helpMsgGroup false ::
        notify env (env.currentTime ++ (bytes "|" ++ (env.botName ++ (bytes "新加入(群)" ++
          (decimal groupId ++ bytes "，邀请人未知")))))
  else return []

end Code

/-- The process with the handlers that wait for the data of who kicked the bot. -/
structure Process where
  bot : BotManage
  waiting : List (GId × QId)

inductive Happening
  | manage (event : Object)
  | white (event : Object) (calls : List Call)
  | black (event : Object) (calls : List Call)
  | kicked (event : Object)
  | informed (groupId : GId) (operatorId : QId)
  | request (kind : Kind) (event : Object)
  | restart (friend group force : Bool)

def BotManage.after (sqlInteger : UInt64 → Int) (s : BotManage) (calls : List Call) : BotManage :=
  { s with lists := calls.foldl (step sqlInteger) s.lists }

/-- The handlers run one at a time between the places where they wait; a restart
loses the ones that do, and reads the lists and the settings anew. -/
inductive Step (sqlInteger : UInt64 → Int) (env : Surroundings) : Process → Happening → Process → Prop
  | manage {s event bot calls} : handle s.bot event = .ok (bot, calls) →
      Step sqlInteger env s (.manage event) { s with bot }
  | white {s event calls sent} : WhiteBlack.handleWhite sqlInteger s.bot.lists event = .ok (calls, sent) →
      Step sqlInteger env s (.white event calls) { s with bot := BotManage.after sqlInteger s.bot calls }
  | black {s event calls sent} : WhiteBlack.handleBlack event = .ok (calls, sent) →
      Step sqlInteger env s (.black event calls) { s with bot := BotManage.after sqlInteger s.bot calls }
  | kicked {s event groupId operatorId sent} : askedAfter event = .ok (groupId, operatorId, sent) →
      Step sqlInteger env s (.kicked event) { s with waiting := s.waiting ++ [(groupId, operatorId)] }
  | informed {s groupId operatorId} (userInfo : UserInfo) : (groupId, operatorId) ∈ s.waiting →
      Step sqlInteger env s (.informed groupId operatorId)
        ⟨{ s.bot with lists := (handlekicked sqlInteger env s.bot.lists userInfo groupId operatorId).1 },
          s.waiting.erase (groupId, operatorId)⟩
  | request {s kind event userInfo calls} : handler env s.bot userInfo event kind = .ok calls →
      Step sqlInteger env s (.request kind event) s
  | restart (s friend group force) :
      Step sqlInteger env s (.restart friend group force) ⟨⟨friend, group, force, restart s.bot.lists⟩, []⟩

section Keeping

variable {sqlInteger : UInt64 → Int} {l : BlackList} {id : UInt64}

/-- An id on a list: in memory, and in the table if a column can hold it. -/
structure Kept (sqlInteger : UInt64 → Int) (l : BlackList) (id : UInt64) : Prop where
  memory : (l.ids.lookup id).isSome
  table : intColumn (sqlInteger id) = true → (l.table.rows.lookup (sqlInteger id)).isSome

theorem addToTable_long (t : Table) {reason : Bytes} (hr : ¬ varchar255 reason = true) :
    (addToTable sqlInteger t id reason).1 = t := by
  rw [addToTable]
  by_cases hrow : (t.rows.lookup (sqlInteger id)).isSome
  · rw [if_pos hrow, Table.update, dif_pos hrow, if_neg hr]
    rfl
  · rw [if_neg hrow, Table.insertInto]
    by_cases hint : intColumn (sqlInteger id) = true
    · rw [dif_pos hint, if_neg hr]
      rfl
    · rw [dif_neg hint]
      rfl

theorem lookup_addToTable {t : Table} {id' : UInt64} {reason : Bytes} {i : Int} (hi : (t.rows.lookup i).isSome) :
    ((addToTable sqlInteger t id' reason).1.rows.lookup i).isSome := by
  by_cases hr : varchar255 reason = true
  · exact (rows_addToTable hr i).mpr (.inl hi)
  · rw [addToTable_long t hr]
    exact hi

theorem kept_added {reason : Bytes} (hr : varchar255 reason = true) :
    Kept sqlInteger (l.add sqlInteger id reason) id where
  memory := by rw [BlackList.add, lookup_insert_eq, if_pos rfl]; rfl
  table hint := (rows_addToTable hr _).mpr (.inr ⟨rfl, hint⟩)

variable (hsql : ∀ id, UInt64.ofInt (sqlInteger id) = id)

include hsql in
theorem Kept.call (h : Kept sqlInteger l id) {c : ListCall} (hc : c ≠ .del id) :
    Kept sqlInteger (l.call sqlInteger c) id := by
  cases c with
  | add id' reason =>
      refine ⟨?_, fun hint => lookup_addToTable (h.table hint)⟩
      rw [BlackList.call, BlackList.add, lookup_insert_eq]
      split
      · rfl
      · exact h.memory
  | del id' =>
      have hne : id ≠ id' := fun heq => hc (heq ▸ rfl)
      rw [BlackList.call, BlackList.del]
      split
      · refine ⟨?_, fun hint => ?_⟩
        · rw [lookup_erase_eq, if_neg hne]
          exact h.memory
        · rw [Table.removeFrom, lookup_erase_eq, if_neg fun heq => hne ((sqlInteger_inj hsql).mp heq)]
          exact h.table hint
      · exact h

include hsql in
theorem Kept.load (h : Kept sqlInteger l id) (ht : OfIds sqlInteger l.table)
    (hint : intColumn (sqlInteger id) = true) : Kept sqlInteger (loadFromTable l.table) id :=
  ⟨(isSome_lookup_load hsql ht id).mpr (h.table hint), fun _ => h.table hint⟩

include hsql in
theorem ofIds_anyCall (ht : OfIds sqlInteger l.table) (c : ListCall) :
    OfIds sqlInteger (l.call sqlInteger c).table := by
  cases c with
  | add id reason =>
      by_cases hr : varchar255 reason = true
      · exact ofIds_call ht hsql (c := .add id reason) hr
      · rw [BlackList.call, BlackList.add, addToTable_long _ hr]
        exact ht
  | del id => exact ofIds_call ht hsql (c := .del id) trivial

end Keeping

section History

variable {sqlInteger : UInt64 → Int} {env : Surroundings} {kind : WhiteBlack.Kind} {id : UInt64}

def Happening.calls : Happening → List Call
  | .white _ calls | .black _ calls => calls
  | .informed groupId operatorId =>
      [.addToGroupBlackList groupId kickReason, .addToQQBlackList operatorId kickReason]
  | _ => []

def Happening.restarts : Happening → Bool
  | .restart .. => true
  | _ => false

theorem commanded_lists (s : BotManage) (option : Bytes) : (commanded s option).lists = s.lists := by
  rw [commanded]
  repeat' split
  all_goals rfl

theorem handle_commanded {s s' : BotManage} {event : Object} {calls : List Json}
    (h : handle s event = .ok (s', calls)) : ∃ option, optionOf event = .ok option ∧ s' = commanded s option := by
  rw [handle, bind_eq_ok] at h
  obtain ⟨option, hoption, h⟩ := h
  exact ⟨option, hoption, manage_state h⟩

/-- All that a step does to the lists. -/
theorem Step.lists {s t : Process} {a : Happening} (h : Step sqlInteger env s a t) :
    t.bot.lists = if a.restarts then Blacklists.restart s.bot.lists
      else a.calls.foldl (step sqlInteger) s.bot.lists := by
  cases h with
  | manage hh =>
      obtain ⟨option, _, rfl⟩ := handle_commanded hh
      exact commanded_lists _ option
  | white | black | kicked | informed | request | restart => rfl

def listCall : WhiteBlack.Kind → Call → Option ListCall
  | .qq => Call.onQid
  | .group => Call.onGid

theorem list_foldl (kind : WhiteBlack.Kind) (calls : List Call) (s : BlackLists) :
    kind.list (calls.foldl (step sqlInteger) s) =
      (calls.filterMap (listCall kind)).foldl (BlackList.call sqlInteger) (kind.list s) := by
  cases kind with
  | qq => exact qid_foldl sqlInteger calls s
  | group => exact gid_foldl sqlInteger calls s

theorem list_restart (kind : WhiteBlack.Kind) (s : BlackLists) :
    kind.list (restart s) = loadFromTable (kind.list s).table := by
  cases kind <;> rfl

theorem delFrom_of_listCall {c : Call} (h : listCall kind c = some (.del id)) : c = kind.delFrom id := by
  cases kind <;> cases c <;> cases h <;> rfl

/-- The rows of both tables are numbers of ids. -/
def Sound (sqlInteger : UInt64 → Int) (s : Process) : Prop :=
  ∀ kind : WhiteBlack.Kind, OfIds sqlInteger (kind.list s.bot.lists).table

variable (hsql : ∀ id, UInt64.ofInt (sqlInteger id) = id)

include hsql in
theorem Step.sound {s t : Process} {a : Happening} (hs : Sound sqlInteger s) (h : Step sqlInteger env s a t) :
    Sound sqlInteger t := by
  intro kind
  rw [h.lists]
  split
  · rw [list_restart]
    exact hs kind
  · rw [list_foldl]
    generalize a.calls.filterMap (listCall kind) = calls
    have hl := hs kind
    generalize kind.list s.bot.lists = l at hl
    induction calls generalizing l with
    | nil => exact hl
    | cons c calls ih => exact ih _ (ofIds_anyCall hsql hl c)

/-- Nothing takes the id off the list, and the process goes down only when the table
can hold it. -/
structure Stays (sqlInteger : UInt64 → Int) (kind : WhiteBlack.Kind) (id : UInt64) (a : Happening) : Prop where
  notDeleted : kind.delFrom id ∉ a.calls
  restart : a.restarts = true → intColumn (sqlInteger id) = true

include hsql in
theorem Step.kept {s t : Process} {a : Happening} (hs : Sound sqlInteger s) (h : Step sqlInteger env s a t)
    (ha : Stays sqlInteger kind id a) (hk : Kept sqlInteger (kind.list s.bot.lists) id) :
    Kept sqlInteger (kind.list t.bot.lists) id := by
  rw [h.lists]
  split
  next hrestart =>
    rw [list_restart]
    exact hk.load hsql (hs kind) (ha.restart hrestart)
  next =>
    rw [list_foldl]
    have hcalls : ∀ c ∈ a.calls.filterMap (listCall kind), c ≠ .del id := by
      rintro c hc rfl
      obtain ⟨call, hcall, hon⟩ := List.mem_filterMap.mp hc
      exact ha.notDeleted (delFrom_of_listCall hon ▸ hcall)
    generalize a.calls.filterMap (listCall kind) = calls at hcalls
    generalize kind.list s.bot.lists = l at hk
    induction calls generalizing l with
    | nil => exact hk
    | cons c calls ih =>
        rw [List.forall_mem_cons] at hcalls
        exact ih hcalls.2 _ (hk.call hsql hcalls.1)

include hsql in
theorem run_sound {s t : Process} {past : List Happening} (h : Run (Step sqlInteger env) s past t)
    (hs : Sound sqlInteger s) : Sound sqlInteger t :=
  h.invariant (Sound sqlInteger) (fun _ _ _ hs ha => ha.sound hsql hs) hs

include hsql in
theorem run_kept {s t : Process} {after : List Happening} (h : Run (Step sqlInteger env) s after t)
    (hs : Sound sqlInteger s) (hstays : ∀ a ∈ after, Stays sqlInteger kind id a)
    (hk : Kept sqlInteger (kind.list s.bot.lists) id) : Kept sqlInteger (kind.list t.bot.lists) id := by
  induction h with
  | nil => exact hk
  | cons hst _ ih =>
      rw [List.forall_mem_cons] at hstays
      exact ih (hst.sound hsql hs) hstays.2 (hst.kept hsql hs hstays.1 hk)

variable {s₀ s : Process} {past : List Happening} {r : Request} {event : Object} {userInfo : UserInfo}
  {sent : List Json}

theorem verdict_of_black {bot : BotManage} (h : (r.kind = .invite ∧ isBlackGroup bot.lists r.groupId = true) ∨
    isBlackUser bot.lists r.userId = true) : verdict bot r ≠ .accepted := by
  rw [verdict]
  cases hk : r.kind with
  | friend =>
      rcases h with ⟨hk', _⟩ | hu
      · rw [hk] at hk'
        cases hk'
      · cases bot.addFriendFlag <;> simp [hu]
  | invite => cases bot.addGroupFlag <;> rcases h with ⟨_, hg⟩ | hu <;> simp [*]

theorem not_isAnswerTo_answerCall (r : Request) (reason : Bytes) :
    ¬ IsAnswerTo r true (answerCall r false reason) := by
  rw [IsAnswerTo, answerCall]
  cases r.kind with
  | friend =>
      intro h
      cases (callApi_inj.mp h).2
  | invite =>
      rintro ⟨reason', h⟩
      cases (callApi_inj.mp h).2

/-- Who is on a list is not let in, and an invitation is told so. -/
theorem refused {bot : BotManage} (hr : r.Shown event) (hv : verdict bot r ≠ .accepted)
    (hc : handler env bot userInfo event r.kind = .ok sent) :
    (∀ call ∈ sent, ¬ IsAnswerTo r true call) ∧ (r.kind = .invite → ∃ call ∈ sent, IsAnswerTo r false call) := by
  obtain ⟨reason, heq⟩ := @handler_eq env bot userInfo r event hr
  rw [hc, Except.ok.injEq] at heq
  have hopening : opening env r (verdict bot r) reason = [answerCall r false reason] ∨
      (r.kind = .friend ∧ opening env r (verdict bot r) reason = []) := by
    have hanswer : (verdict bot r).approves = false := by
      cases hverdict : verdict bot r with
      | accepted => exact absurd hverdict hv
      | blacklisted | paused => rfl
    cases hk : r.kind with
    | friend =>
        cases hverdict : verdict bot r with
        | accepted => exact absurd hverdict hv
        | blacklisted => exact .inr ⟨rfl, by simp only [opening, hk]⟩
        | paused => exact .inl (by simp only [opening, hk, Verdict.approves])
    | invite => exact .inl (by simp only [opening, hk, hanswer])
  rw [heq]
  constructor
  · intro call hcall hanswer
    rcases List.mem_append.mp hcall with hcall | hcall
    · rcases hopening with ho | ⟨_, ho⟩
      · rw [ho, List.mem_singleton] at hcall
        exact not_isAnswerTo_answerCall r reason (hcall ▸ hanswer)
      · rw [ho] at hcall
        cases hcall
    · rcases List.mem_cons.mp hcall with rfl | hcall
      · exact not_isAnswer_getStrangerInfo _ (isAnswer_of_isAnswerTo hanswer)
      · exact not_isAnswer_notify env _ call hcall (isAnswer_of_isAnswerTo hanswer)
  · intro hk
    rcases hopening with ho | ⟨hk', _⟩
    · exact ⟨_, List.mem_append_left _ (ho ▸ List.mem_singleton_self _), isAnswerTo_answerCall r false reason⟩
    · rw [hk] at hk'
      cases hk'

theorem kept_informed (env : Surroundings) (lists : BlackLists) (info : UserInfo) (g : GId) (u : QId) :
    Kept sqlInteger (WhiteBlack.Kind.group.list (handlekicked sqlInteger env lists info g u).1) g ∧
      Kept sqlInteger (WhiteBlack.Kind.qq.list (handlekicked sqlInteger env lists info g u).1) u :=
  ⟨kept_added (by decide), kept_added (by decide)⟩

/-- Once the handler of a kick has come to its end the group and the one who kicked
are refused, whatever commands, kicks, requests and restarts follow, as long as
no command takes them off the lists again. -/
theorem kicked_stays_out (hsql : ∀ id, UInt64.ofInt (sqlInteger id) = id) (hsound : Sound sqlInteger s₀)
    {before after : List Happening} {g : GId} {u : QId}
    (hrun : Run (Step sqlInteger env) s₀ (before ++ .informed g u :: after) s) (hr : r.Shown event)
    (hwho : (r.kind = .invite ∧ r.groupId = g ∧ ∀ a ∈ after, Stays sqlInteger .group g a) ∨
      (r.userId = u ∧ ∀ a ∈ after, Stays sqlInteger .qq u a))
    (hc : handler env s.bot userInfo event r.kind = .ok sent) :
    (∀ call ∈ sent, ¬ IsAnswerTo r true call) ∧ (r.kind = .invite → ∃ call ∈ sent, IsAnswerTo r false call) := by
  obtain ⟨t, hbefore, hrest⟩ := hrun.split
  cases hrest with
  | @cons _ t' _ _ _ hst hafter =>
      have ht' : Sound sqlInteger t' := hst.sound hsql (run_sound hsql hbefore hsound)
      have hkept : Kept sqlInteger (WhiteBlack.Kind.group.list t'.bot.lists) g ∧
          Kept sqlInteger (WhiteBlack.Kind.qq.list t'.bot.lists) u := by
        cases hst with
        | informed info _ => exact kept_informed env t.bot.lists info g u
      refine refused hr (verdict_of_black ?_) hc
      rcases hwho with ⟨hk, rfl, hstays⟩ | ⟨rfl, hstays⟩
      · exact .inl ⟨hk, (run_kept hsql hafter ht' hstays hkept.1).memory⟩
      · exact .inr (run_kept hsql hafter ht' hstays hkept.2).memory

def kickEvent : Object :=
  [("post_type", .string (bytes "notice")), ("notice_type", .string (bytes "group_decrease")),
    ("sub_type", .string (bytes "kick_me")), ("group_id", .numberUnsigned 40004),
    ("operator_id", .numberUnsigned 10001), ("user_id", .numberUnsigned 30003),
    ("self_id", .numberUnsigned 30003)]

def started : Process := ⟨accepting (init emptyTable emptyTable), []⟩

/-- Somebody else invites the bot back after a restart. -/
theorem kicked_stays_out_restarted :
    ∃ s sent, Run (Step (fun id => id.toNat) settings) started
        ([.kicked kickEvent] ++ .informed 40004 10001 :: [.restart true true false]) s ∧
      s.bot.addGroupFlag = true ∧ handler settings s.bot newcomer inviteEvent .invite = .ok sent ∧
      (∀ call ∈ sent, ¬ IsAnswerTo invite true call) ∧
      (invite.kind = .invite → ∃ call ∈ sent, IsAnswerTo invite false call) := by
  have hsound : Sound (fun id => id.toNat) started := by
    intro kind
    cases kind <;> exact ofIds_emptyTable
  have hstays : ∀ a ∈ [Happening.restart true true false], Stays (fun id => id.toNat) .group 40004 a := by
    intro a ha
    cases List.mem_singleton.mp ha
    exact ⟨List.not_mem_nil, fun _ => by decide⟩
  have hrun : Run (Step (fun id => id.toNat) settings) started
      ([.kicked kickEvent] ++ .informed 40004 10001 :: [.restart true true false]) _ :=
    .cons (.kicked rfl) (.cons (.informed newcomer (List.mem_singleton_self _)) (.cons (.restart _ _ _ _) (.nil _)))
  obtain ⟨reason, hc⟩ := @handler_eq settings ⟨true, true, false, _⟩ newcomer invite inviteEvent shown_inviteEvent
  exact ⟨_, _, hrun, rfl, hc,
    kicked_stays_out ofInt_toNat hsound hrun shown_inviteEvent (.inl ⟨rfl, rfl, hstays⟩) hc⟩

end History

section Strictness

variable {sqlInteger : UInt64 → Int} {env : Surroundings} {s₀ s : Process} {past : List Happening} {event : Object}

def Happening.orders (word : String) : Happening → Bool
  | .manage event =>
      match optionOf event with
      | .ok option => startsWith option (bytes word)
      | .error _ => false
  | _ => false

/-- What was configured at the last start, switched by each -gf since. -/
def strictSince (configured : Bool) (past : List Happening) : Bool :=
  past.foldl (fun strict a => match a with
    | .restart _ _ force => force
    | a => strict != a.orders "-gf") configured

theorem Step.strict {s t : Process} {a : Happening} (h : Step sqlInteger env s a t) :
    t.bot.rejectGroupForceFlag = strictSince s.bot.rejectGroupForceFlag [a] := by
  cases h with
  | manage hh =>
      obtain ⟨option, hoption, rfl⟩ := handle_commanded hh
      simp only [strictSince, List.foldl_cons, List.foldl_nil, Happening.orders, hoption]
      exact commanded_strict _ option
  | white | black | kicked | informed | request => exact (Bool.xor_false _).symm
  | restart => rfl

theorem strict_run (h : Run (Step sqlInteger env) s₀ past s) :
    s.bot.rejectGroupForceFlag = strictSince s₀.bot.rejectGroupForceFlag past := by
  induction h with
  | nil => rfl
  | cons hst _ ih =>
      rw [ih, hst.strict]
      rfl

/-- The notice that somebody came into a group. -/
structure Increase (event : Object) (userId selfId : QId) (groupId : GId) : Prop where
  user : ∃ v, event.find "user_id" = some v ∧ v.getUInt64 = .ok userId
  group : ∃ v, event.find "group_id" = some v ∧ v.getUInt64 = .ok groupId
  self : ∃ v, event.find "self_id" = some v ∧ v.getUInt64 = .ok selfId

theorem setGroupLeave_notMem_notify (g : GId) (text : Bytes) : setGroupLeave g false ∉ notify env text := by
  intro h
  obtain ⟨white, _, h⟩ := List.mem_map.mp h
  exact absurd (callApi_inj.mp h).1 (by decide)

theorem setGroupLeave_ne_sendGroupMsg (g g' : GId) (message : Bytes) (escape : Bool) :
    setGroupLeave g false ≠ sendGroupMsg g' message escape :=
  fun h => absurd (callApi_inj.mp h).1 (by decide)

/-- The bot leaves a group right after it came in exactly in strict mode, and no
other group. -/
theorem forced_join_left_iff (hrun : Run (Step sqlInteger env) s₀ past s) (autoLeaveReason helpMsgGroup : Bytes)
    {userId selfId : QId} {groupId : GId} (hi : Increase event userId selfId groupId) :
    ∃ sent, handleGroupIncrease env autoLeaveReason helpMsgGroup s.bot event = .ok sent ∧
      ∀ g, setGroupLeave g false ∈ sent ↔
        g = groupId ∧ userId = selfId ∧ strictSince s₀.bot.rejectGroupForceFlag past = true := by
  obtain ⟨u, hu, huser⟩ := hi.user
  obtain ⟨v, hv, hgroup⟩ := hi.group
  obtain ⟨w, hw, hself⟩ := hi.self
  rw [← strict_run hrun]
  simp only [handleGroupIncrease, Object.constIndex_eq_ok.mpr hu, Object.constIndex_eq_ok.mpr hv,
    Object.constIndex_eq_ok.mpr hw, ok_bind, huser, hgroup, hself]
  by_cases hme : userId = selfId
  · rw [if_pos hme]
    cases hstrict : s.bot.rejectGroupForceFlag with
    | true =>
        refine ⟨_, rfl, fun g => ?_⟩
        simp [setGroupLeave_ne_sendGroupMsg, setGroupLeave_notMem_notify, WhiteBlack.setGroupLeave_inj, hme]
    | false =>
        refine ⟨_, rfl, fun g => ?_⟩
        simp [setGroupLeave_ne_sendGroupMsg, setGroupLeave_notMem_notify]
  · rw [if_neg hme]
    exact ⟨[], rfl, fun g => by simp [hme]⟩

def joinEvent : Object :=
  [("post_type", .string (bytes "notice")), ("notice_type", .string (bytes "group_increase")),
    ("group_id", .numberUnsigned 40004), ("user_id", .numberUnsigned 30003), ("self_id", .numberUnsigned 30003)]

theorem forced_join_left_iff_strict :
    ∃ s sent, Run (Step (fun id => id.toNat) settings) ⟨configured, []⟩ [.manage (commandEvent "-gf")] s ∧
      handleGroupIncrease settings (bytes "bye") (bytes "hi") s.bot joinEvent = .ok sent ∧
      setGroupLeave 40004 false ∈ sent := by
  obtain ⟨calls, hgf⟩ := handle_gf false false configured.lists
  have hrun : Run (Step (fun id => id.toNat) settings) ⟨configured, []⟩ [.manage (commandEvent "-gf")] _ :=
    .cons (.manage hgf) (.nil _)
  have hi : Increase joinEvent 30003 30003 40004 := ⟨⟨_, rfl, rfl⟩, ⟨_, rfl, rfl⟩, ⟨_, rfl, rfl⟩⟩
  obtain ⟨sent, hsent, hleaves⟩ := forced_join_left_iff hrun (bytes "bye") (bytes "hi") hi
  exact ⟨_, sent, hrun, hsent, (hleaves 40004).mpr ⟨rfl, rfl, by decide⟩⟩

end Strictness

end MigangBot.Kicked
