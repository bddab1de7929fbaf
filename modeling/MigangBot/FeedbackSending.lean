import MigangBot.Feedback
import MigangBot.Lib.Runs
import Mathlib.Data.List.MinMax
import Mathlib.Logic.Function.Basic
import Mathlib.Order.Nat

namespace MigangBot.FeedbackSending

open Lib.Exceptions Lib.Maps Lib.Runs Text JsonValue JsonReads ApiTypes ApiCalls Blacklists BotManagement Digits
  WellFormedEvents Feedback

/-- What a run of Send keeps from one statement to the next. -/
structure Note where
  event : Object
  nickname : Bytes
  userId : QId
  text : Bytes
  timeNow : Bytes
  group : Option (GId × Bytes)

def Note.row (note : Note) : Row := ⟨note.timeNow, note.userId, (note.group.map Prod.fst).getD 0, note.text⟩

def nicknameOf (event : Object) : Outcome Bytes := do
  if (event.find "sender").any (·.contains "nickname") then
    (← (← event.constIndex "sender").constIndex "nickname").getString
  else return bytes "#未知昵称#"

/-- FeedBack::Send up to the insert, with the calls it makes and what it then
goes on with. The call for the group's data is always answered, by a default in
the worst case. -/
def prepare (event : Object) (timeNow : Bytes) (groupInfo : GroupInfo) : Outcome (List Json × Option Note) := do
  let nickname ← nicknameOf event
  let userId ← (← event.constIndex "user_id").getUInt64
  let text ← optionOf event
  if text.isEmpty then return ([← send event (bytes "格式错误，请发送[.send + 您的留言]") true], none)
  else if event.contains "group_id" then
    let groupId ← (← event.constIndex "group_id").getUInt64
    let groupName := if groupInfo.groupId = 0 then bytes "#未知群名#" else groupInfo.groupName
    return ([getGroupInfo groupId false], some ⟨event, nickname, userId, text, timeNow, some (groupId, groupName)⟩)
  else return ([], some ⟨event, nickname, userId, text, timeNow, none⟩)

section Messages

variable (note : Note) (feedbackId : Bytes)

def inGroup : Bytes :=
  match note.group with
  | some (groupId, groupName) => bytes "@(群)" ++ (groupName ++ (bytes "(" ++ (decimal groupId ++ bytes ")")))
  | none => []

def noticeMessage : Bytes :=
  bytes "留言ID[" ++ (feedbackId ++ (bytes "]|" ++ (note.timeNow ++ (bytes "|@(Q)" ++ (note.nickname ++ (bytes "(" ++
    (decimal note.userId ++ (bytes ")" ++ (inGroup note ++ (bytes "\n====================\n" ++ note.text))))))))))

def ackMessage : Bytes :=
  bytes "您ID为[" ++ (feedbackId ++ (bytes "]的留言已发送至维护者\n====================\n" ++ note.text))

/-- The sender is only addressed by name in a group. -/
def ack : Outcome Json := send note.event (ackMessage note feedbackId) note.group.isSome

/-- FeedBack::Send from the select on. -/
def tell (superusers : List QId) : List Json :=
  (superusers.map fun white => sendPrivateMsg white (noticeMessage note feedbackId) false) ++
    (ack note feedbackId).toOption.toList

end Messages

def idText (id : Nat) : Bytes := decimal (UInt64.ofNat id)

/-- How far a run has come. The number is that of the row its own insert made,
which the program does not learn. -/
inductive Progress
  | idle
  | stored (note : Note) (own : Option Nat)
  | done (note : Note) (own : Option Nat) (told : List Json)
  | left (calls : List Json)

inductive Statement (ι : Type)
  | leave (i : ι)
  | insert (i : ι) (accepted : Bool)
  | select (i : ι)

variable {ι : Type} [DecidableEq ι]

structure State (ι : Type) where
  feedbacks : Feedbacks
  runs : ι → Progress

namespace State

def store (s : State ι) (t : Feedbacks) (i : ι) (p : Progress) : State ι := ⟨t, Function.update s.runs i p⟩

def setRun (s : State ι) (i : ι) (p : Progress) : State ι := s.store s.feedbacks i p

/-- The result of RecordFeedBack is not looked at. -/
def insert (s : State ι) (i : ι) (note : Note) (accepted : Bool) : State ι :=
  if accepted then s.store (recordFeedBack s.feedbacks note.row).1 i (.stored note (some s.feedbacks.next))
  else s.setRun i (.stored note none)

def select (s : State ι) (superusers : List QId) (i : ι) (note : Note) (own : Option Nat) : State ι :=
  s.setRun i (.done note own (tell note (idText (getLastId s.feedbacks)) superusers))

end State

/-- The runs of Send, cut at their statements. The server may refuse any insert,
and accepts none that the table cannot take. -/
inductive Step (superusers : List QId) : State ι → Statement ι → State ι → Prop
  | leave {s : State ι} {i : ι} {event : Object} {timeNow : Bytes} {groupInfo : GroupInfo} {calls : List Json} :
      s.runs i = .idle → Answerable event → prepare event timeNow groupInfo = .ok (calls, none) →
      Step superusers s (.leave i) (s.setRun i (.left calls))
  | fail {s : State ι} {i : ι} {event : Object} {timeNow : Bytes} {groupInfo : GroupInfo} {e : Exception} :
      s.runs i = .idle → Answerable event → prepare event timeNow groupInfo = throwing e →
      Step superusers s (.leave i) (s.setRun i (.left []))
  | insert {s : State ι} {i : ι} {event : Object} {timeNow : Bytes} {groupInfo : GroupInfo} {calls : List Json}
      {note : Note} {accepted : Bool} :
      s.runs i = .idle → Answerable event → prepare event timeNow groupInfo = .ok (calls, some note) →
      (accepted = true → (recordFeedBack s.feedbacks note.row).2 = true) →
      Step superusers s (.insert i accepted) (s.insert i note accepted)
  | select {s : State ι} {i : ι} {note : Note} {own : Option Nat} : s.runs i = .stored note own →
      Step superusers s (.select i) (s.select superusers i note own)

/-- The sender whose insert the server accepted last. -/
def latest (as : List (Statement ι)) : Option ι :=
  as.foldl (fun last a => match a with | .insert i true => some i | _ => last) none

/-- A sender selects while its own insert is the last that was accepted. -/
def Timely (past : List (Statement ι)) (a : Statement ι) : Prop := ∀ i, a = .select i → latest past = some i

omit [DecidableEq ι] in
theorem latest_snoc (past : List (Statement ι)) (a : Statement ι) :
    latest (past ++ [a]) = match a with | .insert i true => some i | _ => latest past := by
  rw [latest, List.foldl_append, List.foldl_cons, List.foldl_nil]
  rfl

omit [DecidableEq ι] in
theorem timely_insert {past : List (Statement ι)} {i : ι} {accepted : Bool} : Timely past (.insert i accepted) := by
  intro j hj
  cases hj

omit [DecidableEq ι] in
theorem timely_select {past : List (Statement ι)} {i : ι} : Timely past (.select i) ↔ latest past = some i := by
  constructor
  · exact fun h => h i rfl
  · rintro h j ⟨⟩
    exact h

/-- Whoever was told an id was told the one of its own row. -/
def Acknowledged (superusers : List QId) (s : State ι) (i : ι) : Prop :=
  ∀ note own told, s.runs i = .done note own told → ∃ id, own = some id ∧
    s.feedbacks.rows.lookup id = some note.row ∧ told = tell note (idText id) superusers

section Table

/-- What the key of the table keeps. -/
structure Sound (t : Feedbacks) : Prop where
  below : ∀ id row, t.rows.lookup id = some row → id < t.next
  pos : 0 < t.next
  bound : t.next ≤ 2 ^ 31

theorem Sound.empty : Sound Feedbacks.empty where
  below := by
    intro id row h
    cases h
  pos := Nat.one_pos
  bound := Nat.one_le_two_pow

theorem Sound.getLastId_lt {t : Feedbacks} (h : Sound t) : getLastId t < t.next := by
  have hle : getLastId t ≤ t.next - 1 := by
    apply List.max_le_of_forall_le
    intro id hid
    obtain ⟨row, hrow⟩ := Option.isSome_iff_exists.mp (AList.lookup_isSome.mpr (AList.mem_keys.mp hid))
    have := h.below id row hrow
    omega
  have := h.pos
  omega

theorem recordFeedBack_accepted {t : Feedbacks} {r : Row} (h : (recordFeedBack t r).2 = true) :
    (recordFeedBack t r).1 = ⟨t.rows.insert t.next r, t.next + 1⟩ ∧ intColumn t.next = true := by
  rw [recordFeedBack] at h ⊢
  split at h
  next hr =>
    rw [if_pos hr]
    exact ⟨rfl, (Bool.and_eq_true_iff.mp hr).2⟩
  next => cases h

theorem recordFeedBack_fits {t : Feedbacks} {r : Row} (h : r.fits = true) (hroom : intColumn t.next = true) :
    (recordFeedBack t r).2 = true := by
  rw [recordFeedBack, if_pos (by rw [h, hroom]; rfl)]

variable {t : Feedbacks} {r : Row}

theorem lookup_recordFeedBack (h : (recordFeedBack t r).2 = true) (id : Nat) :
    (recordFeedBack t r).1.rows.lookup id = if id = t.next then some r else t.rows.lookup id := by
  rw [(recordFeedBack_accepted h).1, lookup_insert_eq]

theorem Sound.recordFeedBack (hs : Sound t) (h : (recordFeedBack t r).2 = true) :
    Sound (recordFeedBack t r).1 := by
  obtain ⟨heq, hroom⟩ := recordFeedBack_accepted h
  have hnext : (Feedback.recordFeedBack t r).1.next = t.next + 1 := by rw [heq]
  rw [intColumn, decide_eq_true_eq] at hroom
  refine ⟨?_, ?_, ?_⟩
  · intro id row hid
    rw [lookup_recordFeedBack h] at hid
    rw [hnext]
    split at hid
    next hid' => omega
    next => exact (hs.below id row hid).trans (Nat.lt_succ_self _)
  · rw [hnext]
    exact Nat.succ_pos _
  · rw [hnext]
    omega

/-- The number of an accepted row is the largest. -/
theorem getLastId_recordFeedBack (hs : Sound t) (h : (recordFeedBack t r).2 = true) :
    getLastId (recordFeedBack t r).1 = t.next := by
  apply le_antisymm
  · have := (hs.recordFeedBack h).getLastId_lt
    rw [(recordFeedBack_accepted h).1] at this ⊢
    exact Nat.lt_succ_iff.mp this
  · apply List.le_max_of_le (x := t.next) _ le_rfl
    rw [← AList.mem_keys, ← AList.lookup_isSome, lookup_recordFeedBack h, if_pos rfl]
    rfl

end Table

section Invariant

variable {superusers : List QId}

theorem idText_inj {id id' : Nat} (h : id < 2 ^ 64) (h' : id' < 2 ^ 64) : idText id = idText id' ↔ id = id' := by
  rw [idText, idText, decimal_inj, ← UInt64.toNat_inj, UInt64.toNat_ofNat', UInt64.toNat_ofNat',
    Nat.mod_eq_of_lt h, Nat.mod_eq_of_lt h']

theorem tell_eq {note : Note} (ha : Answerable note.event) (feedbackId : Bytes) : tell note feedbackId superusers =
    (superusers.map fun white => sendPrivateMsg white (noticeMessage note feedbackId) false) ++
      [answerOf note.event (ackMessage note feedbackId) note.group.isSome] := by
  rw [tell, ack, send_eq ha]
  rfl

/-- The text to the sender shows the id. -/
theorem tell_inj {note : Note} (ha : Answerable note.event) {id id' : Nat} (h : id < 2 ^ 64) (h' : id' < 2 ^ 64) :
    tell note (idText id) superusers = tell note (idText id') superusers ↔ id = id' := by
  constructor
  · intro heq
    rw [tell_eq ha, tell_eq ha] at heq
    have hmessage := answerOf_inj.mp (List.cons.inj (List.append_inj' heq rfl).2).1
    rw [ackMessage, ackMessage, List.append_cancel_left_eq, List.append_cancel_right_eq] at hmessage
    exact (idText_inj h h').mp hmessage
  · rintro rfl
    rfl

/-- What is known of a run that has inserted its text: whether the number of the
row is the one a select would find now is the schedule's matter. -/
structure Stored (past : List (Statement ι)) (t : Feedbacks) (i : ι) (note : Note) (own : Option Nat) : Prop where
  answerable : Answerable note.event
  row : ∀ id, own = some id → t.rows.lookup id = some note.row
  last : own = some (getLastId t) ↔ latest past = some i

structure Inv (superusers : List QId) (past : List (Statement ι)) (s : State ι) : Prop where
  table : Sound s.feedbacks
  idle : ∀ i, s.runs i = .idle → latest past ≠ some i
  stored : ∀ i note own, s.runs i = .stored note own → Stored past s.feedbacks i note own
  done : ∀ i note own told, s.runs i = .done note own told →
    ∀ id, own = some id → s.feedbacks.rows.lookup id = some note.row
  verdict : (∀ i, Acknowledged superusers s i) ↔ Along Timely past

omit [DecidableEq ι] in
theorem inv_nil {s : State ι} (ht : Sound s.feedbacks) (hidle : ∀ i, s.runs i = .idle) :
    Inv superusers [] s := by
  refine ⟨ht, fun i _ => (Option.some_ne_none i).symm, ?_, ?_, ?_⟩
  · intro i note own h
    cases (hidle i).symm.trans h
  · intro i note own told h
    cases (hidle i).symm.trans h
  · refine iff_of_true ?_ along_nil
    intro i note own told h
    cases (hidle i).symm.trans h

variable {past : List (Statement ι)} {s t : State ι} {i : ι} {a : Statement ι}

@[simp] theorem State.store_feedbacks (s : State ι) (t : Feedbacks) (i : ι) (p : Progress) :
    (s.store t i p).feedbacks = t := rfl

@[simp] theorem store_self (s : State ι) (t : Feedbacks) (i : ι) (p : Progress) : (s.store t i p).runs i = p := by
  simp [State.store]

theorem store_of_ne (s : State ι) (t : Feedbacks) {i j : ι} (p : Progress) (h : j ≠ i) :
    (s.store t i p).runs j = s.runs j := by
  simp [State.store, h]

omit [DecidableEq ι] in
/-- Only the run that moves can be told something new. -/
theorem Inv.acknowledged_iff (h : Inv superusers past s) (hothers : ∀ j, j ≠ i → t.runs j = s.runs j)
    (hnew : ∀ note own told, s.runs i ≠ .done note own told)
    (hkeep : ∀ id row, s.feedbacks.rows.lookup id = some row → t.feedbacks.rows.lookup id = some row) :
    (∀ j, Acknowledged superusers t j) ↔ (∀ j, Acknowledged superusers s j) ∧ Acknowledged superusers t i := by
  constructor
  · intro hall
    refine ⟨?_, hall i⟩
    intro j note own told hj
    have hne : j ≠ i := by
      rintro rfl
      exact hnew note own told hj
    obtain ⟨id, hown, _, htold⟩ := hall j note own told ((hothers j hne).trans hj)
    exact ⟨id, hown, h.done j note own told hj id hown, htold⟩
  · intro hall j
    by_cases hne : j = i
    · exact hne ▸ hall.2
    · intro note own told hj
      obtain ⟨id, hown, hrow, htold⟩ := hall.1 j note own told ((hothers j hne).symm.trans hj)
      exact ⟨id, hown, hkeep id _ hrow, htold⟩

/-- A step that does not reach the table. -/
theorem Inv.setRun (h : Inv superusers past s) (hlatest : latest (past ++ [a]) = latest past) {p : Progress}
    (hnew : ∀ note own told, s.runs i ≠ .done note own told) (hidle : p ≠ .idle)
    (hstored : ∀ note own, p = .stored note own → Stored past s.feedbacks i note own)
    (hdone : ∀ note own told, p = .done note own told →
      ∀ id, own = some id → s.feedbacks.rows.lookup id = some note.row)
    (hverdict : Acknowledged superusers (s.setRun i p) i ↔ Timely past a) :
    Inv superusers (past ++ [a]) (s.setRun i p) := by
  have hself : (s.setRun i p).runs i = p := store_self s s.feedbacks i p
  have hothers : ∀ j, j ≠ i → (s.setRun i p).runs j = s.runs j := fun j hj => store_of_ne s s.feedbacks p hj
  refine ⟨h.table, ?_, ?_, ?_, ?_⟩
  · intro j hj
    by_cases hne : j = i
    · subst hne
      exact absurd (hself.symm.trans hj) hidle
    · rw [hlatest]
      exact h.idle j ((hothers j hne).symm.trans hj)
  · intro j note own hj
    have hs : Stored past s.feedbacks j note own := by
      by_cases hne : j = i
      · subst hne
        exact hstored note own (hself.symm.trans hj)
      · exact h.stored j note own ((hothers j hne).symm.trans hj)
    exact ⟨hs.answerable, hs.row, by rw [hlatest]; exact hs.last⟩
  · intro j note own told hj
    by_cases hne : j = i
    · subst hne
      exact hdone note own told (hself.symm.trans hj)
    · exact h.done j note own told ((hothers j hne).symm.trans hj)
  · rw [along_snoc, h.acknowledged_iff hothers hnew (fun _ _ hrow => hrow), h.verdict, hverdict]

theorem acknowledged_setRun {p : Progress} (hp : ∀ note own told, p ≠ .done note own told) :
    Acknowledged superusers (s.setRun i p) i := by
  intro note own told h
  exact absurd ((store_self s s.feedbacks i p).symm.trans h) (hp note own told)

theorem Inv.leave (h : Inv superusers past s) (hi : s.runs i = .idle) (calls : List Json) :
    Inv superusers (past ++ [.leave i]) (s.setRun i (.left calls)) := by
  refine h.setRun (latest_snoc past _) (by simp [hi]) (by simp) (by simp) (by simp) ?_
  exact iff_of_true (acknowledged_setRun (by simp)) (by simp [Timely])

theorem Inv.refused (h : Inv superusers past s) (hi : s.runs i = .idle) {note : Note}
    (ha : Answerable note.event) :
    Inv superusers (past ++ [.insert i false]) (s.setRun i (.stored note none)) := by
  refine h.setRun (latest_snoc past _) (by simp [hi]) (by simp) ?_ (by simp) ?_
  · rintro _ _ ⟨⟩
    exact ⟨ha, by simp, iff_of_false (by simp) (h.idle i hi)⟩
  · exact iff_of_true (acknowledged_setRun (by simp)) timely_insert

theorem Inv.select (h : Inv superusers past s) {note : Note} {own : Option Nat} (hi : s.runs i = .stored note own) :
    Inv superusers (past ++ [.select i]) (s.select superusers i note own) := by
  have hs := h.stored i note own hi
  refine h.setRun (latest_snoc past _) (by simp [hi]) (by simp) (by simp) ?_ ?_
  · rintro _ _ _ ⟨⟩
    exact hs.row
  · have htold : Acknowledged superusers (s.select superusers i note own) i ↔ own = some (getLastId s.feedbacks) := by
      have hlast : getLastId s.feedbacks < 2 ^ 64 :=
        lt_of_lt_of_le h.table.getLastId_lt (h.table.bound.trans (by decide))
      constructor
      · intro hack
        obtain ⟨id, rfl, hrow, htell⟩ := hack note own _ (store_self s s.feedbacks i _)
        have hid : id < 2 ^ 64 := lt_of_lt_of_le (h.table.below id _ hrow) (h.table.bound.trans (by decide))
        rw [(tell_inj hs.answerable hlast hid).mp htell]
      · rintro rfl note' own' told' hdone
        cases (store_self s s.feedbacks i _).symm.trans hdone
        exact ⟨_, rfl, hs.row _ rfl, rfl⟩
    rw [← State.select, htold, hs.last, timely_select]

theorem Inv.accepted (h : Inv superusers past s) (hi : s.runs i = .idle) {note : Note}
    (ha : Answerable note.event) (hrec : (recordFeedBack s.feedbacks note.row).2 = true) :
    Inv superusers (past ++ [.insert i true]) (s.insert i note true) := by
  rw [State.insert, if_pos rfl]
  generalize ht : s.store (recordFeedBack s.feedbacks note.row).1 i (.stored note (some s.feedbacks.next)) = t
  have hafter : t.feedbacks = (recordFeedBack s.feedbacks note.row).1 := by rw [← ht, State.store_feedbacks]
  have hself : t.runs i = .stored note (some s.feedbacks.next) := by rw [← ht, store_self]
  have hothers : ∀ j, j ≠ i → t.runs j = s.runs j := by
    intro j hj
    rw [← ht, store_of_ne s _ _ hj]
  have hlatest : latest (past ++ [.insert i true]) = some i := latest_snoc past _
  have hlookup : ∀ id, t.feedbacks.rows.lookup id =
      if id = s.feedbacks.next then some note.row else s.feedbacks.rows.lookup id := by
    intro id
    rw [hafter, lookup_recordFeedBack hrec]
  have hkeep : ∀ id row, s.feedbacks.rows.lookup id = some row → t.feedbacks.rows.lookup id = some row := by
    intro id row hrow
    rw [hlookup, if_neg (h.table.below id row hrow).ne, hrow]
  have hlast : getLastId t.feedbacks = s.feedbacks.next := by
    rw [hafter, getLastId_recordFeedBack h.table hrec]
  have htable : Sound t.feedbacks := by
    rw [hafter]
    exact h.table.recordFeedBack hrec
  refine ⟨htable, ?_, ?_, ?_, ?_⟩
  · intro j hj
    rw [hlatest]
    rintro ⟨⟩
    cases hself.symm.trans hj
  · intro j note' own hj
    by_cases hne : j = i
    · subst hne
      cases hself.symm.trans hj
      refine ⟨ha, ?_, iff_of_true (congrArg some hlast.symm) hlatest⟩
      rintro _ ⟨⟩
      rw [hlookup, if_pos rfl]
    · have hs := h.stored j note' own ((hothers j hne).symm.trans hj)
      refine ⟨hs.answerable, fun id hid => hkeep id _ (hs.row id hid), iff_of_false ?_ ?_⟩
      · -- an older row has a smaller number
        intro hown
        have hold := h.table.below _ _ (hs.row _ hown)
        rw [hlast] at hold
        exact lt_irrefl _ hold
      · rw [hlatest]
        rintro ⟨⟩
        exact hne rfl
  · intro j note' own told hj id hid
    have hne : j ≠ i := by
      rintro rfl
      cases hself.symm.trans hj
    exact hkeep id _ (h.done j note' own told ((hothers j hne).symm.trans hj) id hid)
  · rw [along_snoc, h.acknowledged_iff hothers (by simp [hi]) hkeep, h.verdict]
    refine and_congr_right fun _ => iff_of_true ?_ timely_insert
    intro note' own told hj
    cases hself.symm.trans hj

theorem event_of_prepare {event : Object} {timeNow : Bytes} {groupInfo : GroupInfo} {calls : List Json}
    {note : Note} (h : prepare event timeNow groupInfo = .ok (calls, some note)) : note.event = event := by
  rw [prepare] at h
  obtain ⟨nickname, _, h⟩ := bind_eq_ok.mp h
  obtain ⟨v, _, h⟩ := bind_eq_ok.mp h
  obtain ⟨userId, _, h⟩ := bind_eq_ok.mp h
  obtain ⟨text, _, h⟩ := bind_eq_ok.mp h
  split at h
  next =>
    obtain ⟨call, _, h⟩ := bind_eq_ok.mp h
    cases h
  next =>
    split at h
    next =>
      obtain ⟨v, _, h⟩ := bind_eq_ok.mp h
      obtain ⟨groupId, _, h⟩ := bind_eq_ok.mp h
      cases h
      rfl
    next =>
      cases h
      rfl

theorem Inv.step (h : Inv superusers past s) (hst : Step superusers s a t) : Inv superusers (past ++ [a]) t := by
  cases hst with
  | leave hi _ _ => exact h.leave hi _
  | fail hi _ _ => exact h.leave hi _
  | @insert i event timeNow groupInfo calls note accepted hi ha hp hrec =>
      have hnote : Answerable note.event := event_of_prepare hp ▸ ha
      cases accepted with
      | true => exact h.accepted hi hnote (hrec rfl)
      | false => exact h.refused hi hnote
  | select hi => exact h.select hi

theorem inv_run {as : List (Statement ι)} (h : Run (Step superusers) s as t) (ht : Sound s.feedbacks)
    (hidle : ∀ i, s.runs i = .idle) : Inv superusers as t :=
  h.history_invariant (Inv superusers) (fun _ _ _ _ hi hst => hi.step hst) [] (inv_nil ht hidle)

end Invariant

/-- Every sender is told its own id exactly when, at each select, the insert that
was accepted last is the one of the sender that selects. -/
theorem acknowledged_iff_timely {superusers : List QId} {s t : State ι} {as : List (Statement ι)}
    (h : Run (Step superusers) s as t) (ht : Sound s.feedbacks) (hidle : ∀ i, s.runs i = .idle) :
    (∀ i, Acknowledged superusers t i) ↔ Along Timely as :=
  (inv_run h ht hidle).verdict

def telling (uid : QId) (text : String) : Object :=
  [("post_type", .string (bytes "message")), ("message_type", .string (bytes "private")),
    ("user_id", .numberUnsigned uid), ("message", .string (bytes ".send " ++ bytes text)),
    ("__command_size__", .numberUnsigned 5)]

def noted (uid : QId) (text : String) : Note :=
  ⟨telling uid text, bytes "#未知昵称#", uid, bytes text, bytes "2022-04-22 13:15:29", none⟩

theorem answerable_telling (uid : QId) (text : String) : Answerable (telling uid text) :=
  answerable_private rfl ⟨_, rfl, rfl, by rintro _ ⟨⟩⟩

theorem prepare_telling {uid : QId} {text : String} (ho : optionOf (telling uid text) = .ok (bytes text))
    (hne : (bytes text).isEmpty = false) (groupInfo : GroupInfo) :
    prepare (telling uid text) (bytes "2022-04-22 13:15:29") groupInfo = .ok ([], some (noted uid text)) := by
  have hname : nicknameOf (telling uid text) = .ok (bytes "#未知昵称#") := rfl
  have huser : asUInt64 (EventHandling.member (telling uid text) "user_id") = uid := rfl
  have hgroup : Object.contains (telling uid text) "group_id" = false := rfl
  rw [prepare, hname, ok_bind, constIndex_of_has getter_getUInt64 (answerable_telling uid text).user, ho, ok_bind,
    huser, hne, hgroup, if_neg Bool.false_ne_true, if_neg Bool.false_ne_true, noted]
  rfl

def resting : State Nat := ⟨Feedbacks.empty, fun _ => .idle⟩

def tooSlow : Note := noted 10001 "too slow"

def thanks : Note := noted 10002 "thanks"

theorem step_insert {superusers : List QId} {s : State Nat} {i : Nat} (uid : QId) (text : String)
    (hi : s.runs i = .idle) (ho : optionOf (telling uid text) = .ok (bytes text))
    (hne : (bytes text).isEmpty = false) (hrow : (noted uid text).row.fits = true)
    (hroom : intColumn s.feedbacks.next = true) :
    Step superusers s (.insert i true) (s.insert i (noted uid text) true) :=
  .insert hi (answerable_telling uid text) (prepare_telling ho hne ⟨0, [], 0, 0⟩) fun _ =>
    recordFeedBack_fits hrow hroom

theorem step_tooSlow : Step [30003] resting (.insert 0 true) (resting.insert 0 tooSlow true) :=
  step_insert 10001 "too slow" rfl (by decide) (by decide) (by decide +kernel)
    (by simp [intColumn, resting, Feedbacks.empty])

section Crossing

def entered : State Nat := resting.insert 0 tooSlow true

def crossed : State Nat := entered.insert 1 thanks true

theorem accepted_tooSlow : (recordFeedBack resting.feedbacks tooSlow.row).2 = true :=
  recordFeedBack_fits (by decide) (by simp [intColumn, resting, Feedbacks.empty])

theorem next_entered : entered.feedbacks.next = 2 := by
  rw [entered, State.insert, if_pos rfl, State.store_feedbacks, (recordFeedBack_accepted accepted_tooSlow).1]
  rfl

def served : State Nat := entered.select [30003] 0 tooSlow (some 1)

/-- Two senders, one after the other. -/
theorem acknowledged_iff_timely_two : ∃ t, Run (Step [30003]) resting
      [.insert 0 true, .select 0, .insert 1 true, .select 1] t ∧
    (∀ i, Acknowledged [30003] t i) ∧ t.runs 1 = .done thanks (some 2) (tell thanks (idText 2) [30003]) := by
  have h0 : entered.runs 0 = .stored tooSlow (some 1) := store_self _ _ _ _
  have hstep : Step [30003] served (.insert 1 true) (served.insert 1 thanks true) :=
    step_insert 10002 "thanks" rfl (by decide) (by decide) (by decide +kernel)
      (by simp [intColumn, served, State.select, State.setRun, next_entered])
  have h1 : (served.insert 1 thanks true).runs 1 = .stored thanks (some entered.feedbacks.next) := rfl
  have hrun : Run (Step [30003]) resting [.insert 0 true, .select 0, .insert 1 true, .select 1] _ :=
    .cons step_tooSlow (.cons (.select h0) (.cons hstep (.cons (.select h1) (.nil _))))
  have htimely : Along Timely ([] ++ [Statement.insert 0 true] ++ [.select 0] ++ [.insert 1 true] ++ [.select 1]) := by
    simp only [along_snoc]
    exact ⟨⟨⟨⟨along_nil, timely_insert⟩, timely_select.mpr rfl⟩, timely_insert⟩, timely_select.mpr rfl⟩
  have hall := (acknowledged_iff_timely hrun .empty fun _ => rfl).mpr htimely
  refine ⟨_, hrun, hall, ?_⟩
  obtain ⟨id, hid, _, htold⟩ := hall 1 _ _ _ (store_self _ _ _ _)
  rw [next_entered] at hid
  cases hid
  rw [← htold, ← next_entered]
  exact store_self _ _ _ _

theorem sound_entered : Sound entered.feedbacks := by
  rw [entered, State.insert, if_pos rfl, State.store_feedbacks]
  exact Sound.empty.recordFeedBack accepted_tooSlow

theorem accepted_thanks : (recordFeedBack entered.feedbacks thanks.row).2 = true :=
  recordFeedBack_fits (by decide) (by simp [intColumn, next_entered])

theorem getLastId_crossed : getLastId crossed.feedbacks = 2 := by
  rw [crossed, State.insert, if_pos rfl, State.store_feedbacks, getLastId_recordFeedBack sound_entered accepted_thanks,
    next_entered]

/-- Two senders whose statements cross: the first is told the id of the second. -/
theorem crossed_ids : ∃ t, Run (Step [30003]) resting
      [.insert 0 true, .insert 1 true, .select 0, .select 1] t ∧
    t.runs 0 = .done tooSlow (some 1) (tell tooSlow (idText 2) [30003]) ∧ ¬ ∀ i, Acknowledged [30003] t i := by
  have h0 : crossed.runs 0 = .stored tooSlow (some 1) := rfl
  have h1 : (crossed.select [30003] 0 tooSlow (some 1)).runs 1 = .stored thanks (some 2) := by
    rw [← next_entered]
    rfl
  have hstep : Step [30003] entered (.insert 1 true) crossed :=
    step_insert 10002 "thanks" rfl (by decide) (by decide) (by decide +kernel)
      (by simp [intColumn, next_entered])
  have hrun : Run (Step [30003]) resting [.insert 0 true, .insert 1 true, .select 0, .select 1] _ :=
    .cons step_tooSlow (.cons hstep (.cons (.select h0) (.cons (.select h1) (.nil _))))
  have htold : ((crossed.select [30003] 0 tooSlow (some 1)).select [30003] 1 thanks (some 2)).runs 0 =
      .done tooSlow (some 1) (tell tooSlow (idText 2) [30003]) := by
    rw [← getLastId_crossed]
    rfl
  refine ⟨_, hrun, htold, ?_⟩
  intro hall
  obtain ⟨id, hid, _, htell⟩ := hall 0 _ _ _ htold
  cases hid
  exact absurd ((tell_inj (answerable_telling _ _) (by decide) (by decide)).mp htell) (by decide)

end Crossing

end MigangBot.FeedbackSending
