import MigangBot.BotManagement
import MigangBot.WellFormedEvents

namespace MigangBot.Feedback

open Lib.Exceptions Lib.Maps Text JsonValue JsonReads ApiTypes ApiCalls Blacklists BotManagement Digits
  MessageUtility EventHandling WellFormedEvents

section Recorder

structure Row where
  time : Bytes
  uid : QId
  gid : GId
  content : Bytes

/-- The table Feedbacks, with the number that AUTO_INCREMENT gives next. -/
structure Feedbacks where
  rows : FiniteMap Nat Row
  next : Nat

def Feedbacks.empty : Feedbacks := ⟨∅, 1⟩

/-- What a column declared TEXT can hold. -/
def textColumn (s : Bytes) : Bool := s.length < 2 ^ 16

/-- What the INT columns and the TEXT columns of a row can hold. -/
def Row.fits (r : Row) : Bool :=
  intColumn r.uid.toNat && intColumn r.gid.toNat && textColumn r.time && textColumn r.content

def recordFeedBack (t : Feedbacks) (r : Row) : Feedbacks × Bool :=
  if r.fits && intColumn t.next then (⟨t.rows.insert t.next r, t.next + 1⟩, true) else (t, false)

def getLastId (t : Feedbacks) : Nat := t.rows.keys.foldr max 0

/-- The first row of the result of the select. What front gives for an empty
result is up to the library. -/
def front (emptyFront : Outcome Row) (t : Feedbacks) (feedbackId : Nat) : Outcome Row :=
  match t.rows.lookup feedbackId with
  | some r => .ok r
  | none => emptyFront

/-- The row is taken as a value. -/
def getFeedback (emptyFront : Outcome Row) (t : Feedbacks) (feedbackId : Nat) : Outcome (List Bytes) := do
  let r ← front emptyFront t feedbackId
  return [r.time, r.content, decimal r.gid, decimal r.uid]

end Recorder

section Reply

/-- Where a text is found from a position on; npos is no position of a string. -/
def findFrom (s t : Bytes) (pos : Nat) : Option Nat :=
  (List.range (s.length + 1)).find? fun i => pos ≤ i && t.isPrefixOf (s.drop i)

/-- The loop of Split, which goes one place on after each find: the number bounds
its turns. -/
def splitFrom (view delimiter : Bytes) : Nat → Nat → List Bytes
  | 0, pos => [view.drop pos]
  | n + 1, pos =>
      match findFrom view delimiter pos with
      | none => [view.drop pos]
      | some newPos => (view.drop pos).take (newPos - pos) :: splitFrom view delimiter n (newPos + 1)

def split (view delimiter : Bytes) : List Bytes := splitFrom view delimiter (view.length + 1) 0

/-- std::stoll of a text of digits that is not empty. -/
def stoll (str : Bytes) : Outcome Nat :=
  if digitsValue str < 2 ^ 63 then .ok (digitsValue str) else throwing .outOfRange

def stoull (str : Bytes) : Outcome UInt64 :=
  if digitsValue str < 2 ^ 64 then .ok (UInt64.ofNat (digitsValue str)) else throwing .outOfRange

def replyMessage (feedbackId content replyText : Bytes) : Bytes :=
  bytes "关于留言ID[" ++ (feedbackId ++ (bytes "]的回复\n========原文========\n" ++ (content ++
    (bytes "\n========回复========\n" ++ replyText))))

def sentMessage (feedbackId : Bytes) : Bytes := bytes "留言ID[" ++ (feedbackId ++ bytes "]的回复已发送成功")

def missingMessage (t : Feedbacks) (feedbackId : Bytes) : Bytes :=
  bytes "不存在ID[" ++ (feedbackId ++ (bytes "]的留言,请输入1-" ++
    (decimal (UInt64.ofNat (getLastId t)) ++ bytes "之间的数字")))

/-- The call that Reply chooses by the fields of the vector. -/
def replyCall (searchRet : List Bytes) (msgRe : Bytes) : Outcome Json :=
  if searchRet.getD 3 [] ≠ bytes "0" then do
    let groupId ← stoull (searchRet.getD 3 [])
    return sendGroupMsg groupId msgRe false
  else do
    let userId ← stoull (searchRet.getD 2 [])
    return sendPrivateMsg userId msgRe false

variable (emptyFront : Outcome Row) (t : Feedbacks) (event : Object)

/-- FeedBack::Reply on the text behind the command. -/
def replyTo (msg : Bytes) : Outcome (List Json) := do
  let splitMsg := split msg (bytes " ")
  if splitMsg.length < 2 then
    return [← send event (bytes "参数有误，请按照[.reply id text]格式重新发送") true]
  else
    let feedbackId ← strip (splitMsg.getD 0 []) (char ' ')
    if !isDigitStr feedbackId then return [← send event (bytes "输入的留言ID有误,请输入数字") true]
    else
      let searchRet ← getFeedback emptyFront t (← stoll feedbackId)
      if searchRet.isEmpty then return [← send event (missingMessage t feedbackId) true]
      else
        let replyText ← strip (← substrFrom msg (splitMsg.getD 0 []).length) (char ' ')
        let call ← replyCall searchRet (replyMessage feedbackId (searchRet.getD 1 []) replyText)
        return [call, ← send event (sentMessage feedbackId) true]

def reply : Outcome (List Json) := do replyTo emptyFront t event (← optionOf event)

end Reply

section Texts

theorem space_notMem {s : Bytes} (h : isDigitStr s = true) : char ' ' ∉ s := by
  intro hs
  have := List.all_eq_true.mp h _ hs
  revert this
  decide

theorem isPrefixOf_singleton {c d : UInt8} {s : Bytes} : [c].isPrefixOf (d :: s) = (c == d) := by
  simp [List.isPrefixOf]

theorem findFrom_first {s u : Bytes} {c : UInt8} (hs : c ∉ s) :
    findFrom (s ++ c :: u) [c] 0 = some s.length := by
  rw [findFrom, List.find?_range_eq_some]
  have hlen : s.length < (s ++ c :: u).length + 1 := by
    rw [List.length_append, List.length_cons]
    omega
  refine ⟨by simp, List.mem_range.mpr hlen, ?_⟩
  intro j hj
  have hne : c ≠ s[j] := fun h => hs (h ▸ List.getElem_mem hj)
  rw [List.drop_append_of_le_length hj.le, List.drop_eq_getElem_cons hj, List.cons_append,
    isPrefixOf_singleton, beq_false_of_ne hne, Bool.and_false]
  rfl

theorem splitFrom_ne_nil (view delimiter : Bytes) (n pos : Nat) : splitFrom view delimiter n pos ≠ [] := by
  cases n with
  | zero => exact List.cons_ne_nil _ _
  | succ n =>
      rw [splitFrom]
      split <;> exact List.cons_ne_nil _ _

theorem split_first {s u : Bytes} {c : UInt8} (hs : c ∉ s) : ∃ first rest,
    split (s ++ c :: u) [c] = s :: first :: rest := by
  obtain ⟨first, rest, h⟩ := List.exists_cons_of_ne_nil
    (splitFrom_ne_nil (s ++ c :: u) [c] (s ++ c :: u).length (s.length + 1))
  refine ⟨first, rest, ?_⟩
  rw [split, splitFrom, findFrom_first hs]
  simp only [h, Nat.sub_zero, List.drop_zero, List.take_left]

theorem substrFrom_append (s u : Bytes) : substrFrom (s ++ u) s.length = .ok u := by
  rw [substrFrom, if_pos (by simp), List.drop_left]

theorem stoull_decimal (n : UInt64) : stoull (decimal n) = .ok n := by
  rw [stoull, digitsValue_decimal, if_pos n.toNat_lt, UInt64.ofNat_toNat]

end Texts

/-- The events that send knows where to answer. -/
structure Answerable (event : Object) : Prop where
  chat : Has .string event "message_type"
  user : Has .uint64 event "user_id"
  group : textOf event "message_type" = bytes "group" → Has .uint64 event "group_id"

/-- No other event comes through the dispatch. -/
theorem answerable_of_messageOk {env : Environment} {event : Object} (h : MessageOk env event) :
    Answerable event where
  chat := h.chat
  user := h.permission.1
  group := fun hg => (h.log.2 (by rw [hg]; rfl)).2.1

/-- In a private chat it is enough to know who speaks. -/
theorem answerable_private {event : Object} (hchat : event.find "message_type" = some (.string (bytes "private")))
    (huser : Has .uint64 event "user_id") : Answerable event where
  chat := ⟨_, hchat, ⟨_, rfl⟩, by rintro _ ⟨⟩⟩
  user := huser
  group := by
    intro hgroup
    rw [textOf, member_eq, hchat] at hgroup
    exact absurd hgroup (by decide)

/-- Where an event is answered, and with which text. -/
def answerOf (event : Object) (message : Bytes) (atSender : Bool) : Json :=
  if textOf event "message_type" = bytes "group" then
    sendGroupMsg (groupOf event)
      (if atSender then bytes "[CQ:at,qq=" ++ (decimal (userOf event) ++ (bytes "] " ++ message)) else message) false
  else sendPrivateMsg (userOf event) message false

theorem send_eq {event : Object} (h : Answerable event) (message : Bytes) (atSender : Bool) :
    send event message atSender = .ok (answerOf event message atSender) := by
  rw [send, value_of_has getter_getString h.chat, ok_bind, ← textOf, answerOf]
  split
  next hg =>
    rw [constIndex_of_has getter_getUInt64 (h.group hg)]
    cases atSender with
    | true =>
        rw [if_pos rfl, constIndex_of_has getter_getUInt64 h.user]
        rfl
    | false => rfl
  next hg =>
    rw [constIndex_of_has getter_getUInt64 h.user]
    rfl

theorem returns_send {event : Object} (h : Answerable event) (message : Bytes) (atSender : Bool) :
    Returns (send event message atSender) :=
  ⟨_, send_eq h message atSender⟩

theorem answerOf_inj {event : Object} {m m' : Bytes} {atSender : Bool} :
    answerOf event m atSender = answerOf event m' atSender ↔ m = m' := by
  rw [answerOf, answerOf]
  split
  next =>
    rw [sendGroupMsg_inj]
    cases atSender <;> simp
  next => simp [sendPrivateMsg_inj]

/-- What the table takes of a history, in order: each gets the next number. -/
def recorded (recs : List Row) : List Row := (recs.filter Row.fits).take (2 ^ 31 - 1)

def feedbackOf (recs : List Row) : Nat → Option Row
  | 0 => none
  | n + 1 => (recorded recs)[n]?

def table (recs : List Row) : Feedbacks := recs.foldl (fun t r => (recordFeedBack t r).1) Feedbacks.empty

structure Holds (t : Feedbacks) (rows : List Row) : Prop where
  next : t.next = rows.length + 1
  lookup_zero : t.rows.lookup 0 = none
  lookup_succ : ∀ n, t.rows.lookup (n + 1) = rows[n]?

theorem Holds.empty : Holds Feedbacks.empty [] := ⟨rfl, rfl, fun _ => rfl⟩

theorem Holds.insert {t : Feedbacks} {rows : List Row} (h : Holds t rows) (r : Row) :
    Holds ⟨t.rows.insert t.next r, t.next + 1⟩ (rows ++ [r]) where
  next := by simp [h.next]
  lookup_zero := by rw [lookup_insert_eq, h.next, if_neg (Nat.succ_ne_zero _).symm, h.lookup_zero]
  lookup_succ := by
    intro n
    rw [lookup_insert_eq, h.next, h.lookup_succ]
    by_cases hn : n = rows.length
    · simp [hn]
    · rw [if_neg (by omega)]
      by_cases hlt : n < rows.length
      · rw [List.getElem?_append_left hlt]
      · rw [List.getElem?_eq_none (by omega), List.getElem?_eq_none (by simp; omega)]

theorem recorded_snoc (recs : List Row) (r : Row) : recorded (recs ++ [r]) =
    if r.fits ∧ (recorded recs).length + 1 < 2 ^ 31 then recorded recs ++ [r] else recorded recs := by
  rw [recorded, recorded, List.filter_append, List.take_append]
  by_cases hr : r.fits = true
  · rw [List.filter_cons_of_pos hr, List.filter_nil, List.length_take]
    by_cases hn : (recs.filter Row.fits).length < 2 ^ 31 - 1
    · rw [if_pos ⟨hr, by omega⟩, List.take_of_length_le (l := [r])]
      rw [List.length_singleton]
      omega
    · have hfull : 2 ^ 31 - 1 - (recs.filter Row.fits).length = 0 := by omega
      rw [if_neg (by omega), hfull, List.take_zero, List.append_nil]
  · rw [List.filter_cons_of_neg hr, List.filter_nil, if_neg (fun h => hr h.1), List.take_nil, List.append_nil]

theorem holds_table (recs : List Row) : Holds (table recs) (recorded recs) := by
  induction recs using List.reverseRecOn with
  | nil => exact Holds.empty
  | append_singleton recs r ih =>
      rw [table, List.foldl_append, List.foldl_cons, List.foldl_nil, ← table, recordFeedBack, recorded_snoc]
      have hroom : intColumn (table recs).next = true ↔ (recorded recs).length + 1 < 2 ^ 31 := by
        rw [ih.next, intColumn, decide_eq_true_eq]
        omega
      by_cases hr : r.fits = true ∧ (recorded recs).length + 1 < 2 ^ 31
      · rw [if_pos hr, if_pos (by rw [hr.1, hroom.mpr hr.2]; rfl)]
        exact ih.insert r
      · rw [if_neg hr, if_neg (by rw [Bool.and_eq_true, hroom]; exact hr)]
        exact ih

theorem lookup_table (recs : List Row) (id : Nat) : (table recs).rows.lookup id = feedbackOf recs id := by
  cases id with
  | zero => exact (holds_table recs).lookup_zero
  | succ n => exact (holds_table recs).lookup_succ n

/-- The answer that the sender of the command and the author of the feedback are
promised. -/
def Routed (recs : List Row) (event : Object) (idText rest : Bytes) (calls : List Json) : Prop :=
  match feedbackOf recs (digitsValue idText) with
  | some row => ∃ message text confirm, strip (char ' ' :: rest) (char ' ') = .ok text ∧ row.content <:+: message ∧
      text <:+: message ∧ send event (sentMessage idText) true = .ok confirm ∧
      calls = [if row.gid ≠ 0 then sendGroupMsg row.gid message false
        else sendPrivateMsg row.uid message false, confirm]
  | none => ∃ notice, send event (missingMessage (table recs) idText) true = .ok notice ∧ calls = [notice]

/-- The call really made: the user and the group have changed places. -/
def called (row : Row) (message : Bytes) : Json :=
  if row.uid ≠ 0 then sendGroupMsg row.uid message false else sendPrivateMsg row.gid message false

theorem replyCall_row (row : Row) (message : Bytes) :
    replyCall [row.time, row.content, decimal row.gid, decimal row.uid] message = .ok (called row message) := by
  have hzero (n : UInt64) : decimal n = bytes "0" ↔ n = 0 := decimal_inj (m := 0)
  rw [replyCall, called]
  by_cases hu : row.uid = 0
  · rw [if_neg (by simpa [hzero] using hu), if_neg (by simpa using hu)]
    exact congrArg (· >>= fun userId => .ok (sendPrivateMsg userId message false)) (stoull_decimal row.gid)
  · rw [if_pos (by simpa [hzero] using hu), if_pos hu]
    exact congrArg (· >>= fun groupId => .ok (sendGroupMsg groupId message false)) (stoull_decimal row.uid)

theorem called_eq_iff (row : Row) (message message' : Bytes) : called row message =
    (if row.gid ≠ 0 then sendGroupMsg row.gid message' false else sendPrivateMsg row.uid message' false) ↔
      row.uid = row.gid ∧ message = message' := by
  rw [called]
  by_cases hu : row.uid = 0 <;> by_cases hg : row.gid = 0
  · rw [if_neg (not_not.mpr hu), if_neg (not_not.mpr hg), sendPrivateMsg_inj, hu, hg]
  · rw [if_neg (not_not.mpr hu), if_pos hg, hu]
    simp [(sendGroupMsg_ne_sendPrivateMsg _ _ _ _ _).symm, Ne.symm hg]
  · rw [if_pos hu, if_neg (not_not.mpr hg), hg]
    simp [sendGroupMsg_ne_sendPrivateMsg, hu]
  · rw [if_pos hu, if_pos hg, sendGroupMsg_inj]

theorem content_infix (id content text : Bytes) : content <:+: replyMessage id content text := by
  refine ⟨bytes "关于留言ID[" ++ (id ++ bytes "]的回复\n========原文========\n"),
    bytes "\n========回复========\n" ++ text, ?_⟩
  rw [replyMessage]
  simp only [List.append_assoc]

theorem text_infix (id content text : Bytes) : text <:+: replyMessage id content text := by
  apply List.IsSuffix.isInfix
  rw [replyMessage]
  exact ((((List.suffix_append _ _).trans (List.suffix_append _ _)).trans (List.suffix_append _ _)).trans
    (List.suffix_append _ _)).trans (List.suffix_append _ _)

section

variable {emptyFront : Outcome Row} {recs : List Row} {event : Object} {idText rest : Bytes}
  (hid : idText ≠ []) (hdigits : isDigitStr idText = true)

include hid hdigits

theorem replyTo_eq (t : Feedbacks) : replyTo emptyFront t event (idText ++ char ' ' :: rest) =
    (stoll idText >>= front emptyFront t) >>= fun row => strip (char ' ' :: rest) (char ' ') >>= fun text =>
      send event (sentMessage idText) true >>= fun confirm =>
        .ok [called row (replyMessage idText row.content text), confirm] := by
  obtain ⟨first, others, hsplit⟩ := split_first (u := rest) (space_notMem hdigits)
  have hspace : bytes " " = [char ' '] := rfl
  have hlen : ¬ (idText :: first :: others).length < 2 := by simp
  rw [replyTo, hspace, hsplit]
  simp only [if_neg hlen, List.getD_cons_zero, strip_solid (space_notMem hdigits) hid, ok_bind, hdigits,
    Bool.not_true, Bool.false_eq_true, if_false, substrFrom_append]
  cases stoll idText with
  | error e => rfl
  | ok n =>
      rw [ok_bind, ok_bind, getFeedback]
      cases front emptyFront t n with
      | error e => rfl
      | ok row =>
          have hrow (text : Bytes) : replyCall [row.time, row.content, decimal row.gid, decimal row.uid]
              (replyMessage idText row.content text) = .ok (called row (replyMessage idText row.content text)) :=
            replyCall_row row _
          simp only [ok_bind, List.isEmpty_cons, Bool.false_eq_true, if_false, pure_bind,
            List.getD_cons_succ, List.getD_cons_zero, hrow]
          rfl

theorem replyTo_found {row : Row} (hrow : feedbackOf recs (digitsValue idText) = some row)
    (hsmall : digitsValue idText < 2 ^ 63) :
    replyTo emptyFront (table recs) event (idText ++ char ' ' :: rest) =
    strip (char ' ' :: rest) (char ' ') >>= fun text => send event (sentMessage idText) true >>= fun confirm =>
      .ok [called row (replyMessage idText row.content text), confirm] := by
  rw [replyTo_eq hid hdigits, stoll, if_pos hsmall, ok_bind, front, lookup_table, hrow, ok_bind]

/-- There are two calls whenever there are any. -/
theorem length_replyTo {t : Feedbacks} {calls : List Json}
    (h : replyTo emptyFront t event (idText ++ char ' ' :: rest) = .ok calls) : calls.length = 2 := by
  rw [replyTo_eq hid hdigits] at h
  obtain ⟨row, _, h⟩ := bind_eq_ok.mp h
  obtain ⟨text, _, h⟩ := bind_eq_ok.mp h
  obtain ⟨confirm, _, h⟩ := bind_eq_ok.mp h
  cases h
  rfl

end

theorem feedbackOf_small {recs : List Row} {id : Nat} {row : Row} (h : feedbackOf recs id = some row) :
    id < 2 ^ 63 := by
  cases id with
  | zero => omega
  | succ n =>
      have hn := (List.getElem?_eq_some_iff.mp h).1
      rw [recorded, List.length_take] at hn
      omega

/-- A reply goes where it should exactly when the feedback was given in a group
whose number is that of the user. -/
theorem reply_routed_iff {emptyFront : Outcome Row} {recs : List Row} {event : Object} {idText rest : Bytes}
    (ha : Answerable event) (hoption : optionOf event = .ok (idText ++ char ' ' :: rest)) (hid : idText ≠ [])
    (hdigits : isDigitStr idText = true) :
    (∃ calls, reply emptyFront (table recs) event = .ok calls ∧ Routed recs event idText rest calls) ↔
      ∃ row, feedbackOf recs (digitsValue idText) = some row ∧ row.uid = row.gid := by
  have hreply : reply emptyFront (table recs) event =
      replyTo emptyFront (table recs) event (idText ++ char ' ' :: rest) := by rw [reply, hoption, ok_bind]
  rw [hreply]
  cases hrow : feedbackOf recs (digitsValue idText) with
  | none =>
      simp only [Routed, hrow, reduceCtorEq, false_and, exists_false, iff_false]
      intro h
      obtain ⟨calls, hcalls, notice, _, rfl⟩ := h
      exact absurd (length_replyTo hid hdigits hcalls) (by simp)
  | some row =>
      simp only [Routed, hrow, Option.some.injEq, exists_eq_left']
      rw [replyTo_found hid hdigits hrow (feedbackOf_small hrow)]
      obtain ⟨text, htext⟩ := returns_strip (char ' ' :: rest) (char ' ')
      obtain ⟨confirm, hconfirm⟩ := returns_send ha (sentMessage idText) true
      simp only [htext, hconfirm, ok_bind]
      constructor
      · intro h
        obtain ⟨calls, hcalls, message, _, _, _, _, _, _, rfl⟩ := h
        exact ((called_eq_iff row _ message).mp (List.cons.inj (Except.ok.inj hcalls)).1).1
      · intro h
        refine ⟨_, rfl, replyMessage idText row.content text, text, confirm, rfl, content_infix _ _ _,
          text_infix _ _ _, rfl, ?_⟩
        rw [(called_eq_iff row _ _).mpr ⟨h, rfl⟩]

def answering (text : String) : Object :=
  [("post_type", .string (bytes "message")), ("message_type", .string (bytes "private")),
    ("user_id", .numberUnsigned 30003), ("message", .string (bytes ".reply " ++ bytes text)),
    ("__command_size__", .numberUnsigned 6)]

theorem answerable_answering (text : String) : Answerable (answering text) :=
  answerable_private rfl ⟨_, rfl, rfl, by rintro _ ⟨⟩⟩

def complaint (uid : QId) : Row := ⟨bytes "2022-04-22 13:15:29", uid, 20002, bytes "too slow"⟩

theorem reply_routed_iff_same :
    (∃ calls, reply (.error .undefined) (table [complaint 20002]) (answering "1 thanks") = .ok calls ∧
        Routed [complaint 20002] (answering "1 thanks") (bytes "1") (bytes "thanks") calls) ↔
      ∃ row, feedbackOf [complaint 20002] (digitsValue (bytes "1")) = some row ∧ row.uid = row.gid :=
  reply_routed_iff (answerable_answering _) (by decide) (by decide) (by decide)

/-- The reply to a feedback from a group is sent to the group that has the number
of its author. -/
theorem reply_misrouted : feedbackOf [complaint 10001] 1 = some (complaint 10001) ∧
    ∃ calls, reply (.error .undefined) (table [complaint 10001]) (answering "1 thanks") = .ok calls ∧
      calls.head? = some (sendGroupMsg 10001 (replyMessage (bytes "1") (bytes "too slow") (bytes "thanks")) false) ∧
      ¬ Routed [complaint 10001] (answering "1 thanks") (bytes "1") (bytes "thanks") calls := by
  have ho : optionOf (answering "1 thanks") = .ok (bytes "1" ++ char ' ' :: bytes "thanks") := by decide
  have htext : strip (char ' ' :: bytes "thanks") (char ' ') = .ok (bytes "thanks") := by decide
  have hrow : feedbackOf [complaint 10001] (digitsValue (bytes "1")) = some (complaint 10001) := rfl
  have hreply : reply (.error .undefined) (table [complaint 10001]) (answering "1 thanks") =
      replyTo (.error .undefined) (table [complaint 10001]) (answering "1 thanks")
        (bytes "1" ++ char ' ' :: bytes "thanks") := by rw [reply, ho, ok_bind]
  have hcalls := hreply.trans (replyTo_found (by decide) (by decide) hrow (by decide))
  rw [htext, ok_bind] at hcalls
  refine ⟨rfl, _, hcalls, rfl, ?_⟩
  rintro ⟨message, text, confirm, _, _, _, _, h⟩
  have := ((called_eq_iff (complaint 10001) _ message).mp (List.cons.inj h).1).1
  revert this
  decide

end MigangBot.Feedback

