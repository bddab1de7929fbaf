import MigangBot.ApiCalls
import MigangBot.Services
import Mathlib.Data.List.Forall2

namespace MigangBot.Broadcast

open Lib.Exceptions Text JsonValue ApiTypes Services

section Code

/-- How the caller passes a text to a forwarding reference. -/
inductive Passing
  | lvalue
  | temporary
  deriving DecidableEq

/-- std::forward into a Json value: what the value holds, and what is left of the text. -/
def forward (passing : Passing) (message : Bytes) : Bytes × Bytes :=
  match passing with
  | .lvalue => (message, message)
  | .temporary => (message, [])

/-- ApiBot::send_group_msg, with the text as the call leaves it. -/
def sendGroupMsg (passing : Passing) (groupId : GId) (message : Bytes) : Json × Bytes :=
  let (text, left) := forward passing message
  (ApiCalls.sendGroupMsg groupId text false, left)

/-- The loop of BroadCast over the groups. -/
def sendEach (passing : Passing) (message : Bytes) : List GId → List Json
  | [] => []
  | group :: groups =>
      let (call, left) := sendGroupMsg passing group message
      call :: sendEach passing left groups

def broadCast (s : ScheduleService) (groupList : Outcome (List GroupInfo)) (passing : Passing) (message : Bytes) :
    Outcome (List Json) := do
  let groupToSend ← s.getEnableGroup groupList
  return sendEach passing message groupToSend

/-- Morning::SayMorning: the same text through every bot. -/
def sayMorning (s : ScheduleService) (bots : List (Outcome (List GroupInfo))) (message : Bytes) :
    Outcome (List (List Json)) := bots.mapM fun groupList => broadCast s groupList .lvalue message

end Code

section Content

variable {passing : Passing} {message : Bytes} {targets : List GId}

/-- Every group is sent all of the text. -/
def complete (message : Bytes) (targets : List GId) : List Json :=
  targets.map fun group => ApiCalls.sendGroupMsg group message false

theorem sendEach_kept (h : forward passing message = (message, message)) :
    sendEach passing message targets = complete message targets := by
  induction targets with
  | nil => rfl
  | cons group targets ih =>
      rw [sendEach, sendGroupMsg, h]
      exact congrArg (_ :: ·) ih

/-- What is left of a temporary is sent to the second group already. -/
theorem sendEach_temporary (group group' : GId) (groups : List GId) :
    sendEach .temporary message (group :: group' :: groups) =
      complete message [group] ++ complete [] (group' :: groups) := by
  have hempty : sendEach .temporary [] (group' :: groups) = complete [] (group' :: groups) := sendEach_kept rfl
  exact congrArg (_ :: ·) hempty

theorem sendEach_eq_iff : sendEach passing message targets = complete message targets ↔
    passing = .lvalue ∨ message = [] ∨ targets.length ≤ 1 := by
  cases passing with
  | lvalue => exact iff_of_true (sendEach_kept rfl) (.inl rfl)
  | temporary =>
      match targets with
      | [] => exact iff_of_true rfl (.inr (.inr (Nat.zero_le 1)))
      | [group] => exact iff_of_true rfl (.inr (.inr (Nat.le_refl 1)))
      | group :: group' :: groups =>
          rw [sendEach_temporary]
          constructor
          · intro h
            have hsecond := (List.cons.inj (List.cons.inj h).2).1
            exact .inr (.inl (ApiCalls.sendGroupMsg_inj.mp hsecond).2.symm)
          · intro h
            rcases h with h | rfl | h
            · cases h
            · rfl
            · simp at h

theorem broadcast_complete_iff (s : ScheduleService) (groupList : Outcome (List GroupInfo)) (passing : Passing)
    (message : Bytes) (targets : List GId) (h : s.getEnableGroup groupList = .ok targets) :
    broadCast s groupList passing message = .ok (complete message targets) ↔
      passing = .lvalue ∨ message = [] ∨ targets.length ≤ 1 := by
  rw [broadCast, h, ok_bind, ← sendEach_eq_iff]
  exact ⟨Except.ok.inj, congrArg Except.ok⟩

/-- A service that is on in two groups only. -/
def picked : ScheduleService := ⟨⟨2, false, [10001, 10002], bytes "morning", .null⟩⟩

theorem lvalue_complete : broadCast picked (.ok []) .lvalue (bytes "good morning") =
    .ok (complete (bytes "good morning") [10001, 10002]) :=
  (broadcast_complete_iff picked (.ok []) .lvalue (bytes "good morning") [10001, 10002] rfl).mpr (.inl rfl)

theorem temporary_emptied : broadCast picked (.ok []) .temporary (bytes "good morning") =
      .ok [ApiCalls.sendGroupMsg 10001 (bytes "good morning") false, ApiCalls.sendGroupMsg 10002 [] false] ∧
    broadCast picked (.ok []) .temporary (bytes "good morning") ≠
      .ok (complete (bytes "good morning") [10001, 10002]) := by
  refine ⟨rfl, fun h => ?_⟩
  have hsecond := (List.cons.inj (List.cons.inj (Except.ok.inj h)).2).1
  exact absurd (ApiCalls.sendGroupMsg_inj.mp hsecond).2 (by decide)

end Content

section Targets

def Member (groups : List GroupInfo) (g : GId) : Prop := ∃ info ∈ groups, info.groupId = g

/-- GetEnableGroup gives the groups of the bot in which the service is on. -/
def Exact (s : ScheduleService) (groups : List GroupInfo) : Prop :=
  ∃ targets, s.getEnableGroup (.ok groups) = .ok targets ∧
    ∀ g, g ∈ targets ↔ Member groups g ∧ s.groupStatus g = true

variable {s : ScheduleService} {groups : List GroupInfo}

def targetsOf (s : ScheduleService) (groups : List GroupInfo) : List GId :=
  if s.enableOnDefault then (groups.filter fun info => !decide (info.groupId ∈ s.groups)).map (·.groupId) else s.groups

theorem getEnableGroup_ok (s : ScheduleService) (groups : List GroupInfo) :
    s.getEnableGroup (.ok groups) = .ok (targetsOf s groups) := by
  rw [ScheduleService.getEnableGroup, targetsOf]
  cases s.enableOnDefault <;> rfl

theorem mem_targetsOf_default (h : s.enableOnDefault = true) (g : GId) :
    g ∈ targetsOf s groups ↔ Member groups g ∧ s.groupStatus g = true := by
  rw [targetsOf, if_pos h, Service.groupStatus, if_pos h, Bool.not_eq_true', decide_eq_false_iff_not, Member]
  simp only [List.mem_map, List.mem_filter, Bool.not_eq_true', decide_eq_false_iff_not]
  constructor
  · intro hg
    obtain ⟨info, ⟨hinfo, hoff⟩, rfl⟩ := hg
    exact ⟨⟨info, hinfo, rfl⟩, hoff⟩
  · intro hg
    obtain ⟨⟨info, hinfo, rfl⟩, hoff⟩ := hg
    exact ⟨info, ⟨hinfo, hoff⟩, rfl⟩

theorem exact_iff : Exact s groups ↔ s.enableOnDefault = true ∨ ∀ g ∈ s.groups, Member groups g := by
  have htargets : Exact s groups ↔ ∀ g, g ∈ targetsOf s groups ↔ Member groups g ∧ s.groupStatus g = true := by
    simp only [Exact, getEnableGroup_ok, Except.ok.injEq, exists_eq_left']
  rw [htargets]
  cases hdefault : s.enableOnDefault with
  | true => exact iff_of_true (mem_targetsOf_default hdefault) (.inl rfl)
  | false =>
      have hstored : targetsOf s groups = s.groups := if_neg (by rw [hdefault]; decide)
      have hstatus (g : GId) : s.groupStatus g = true ↔ g ∈ s.groups := by
        rw [Service.groupStatus, hdefault]
        exact decide_eq_true_iff
      simp only [hstored, hstatus]
      constructor
      · exact fun h => .inr fun g hg => ((h g).mp hg).1
      · intro h g
        rcases h with h | h
        · cases h
        · exact ⟨fun hg => ⟨h g hg, hg⟩, fun hg => hg.2⟩

/-- No call goes to a group that the bot is not in. -/
def Inside (groups : List GroupInfo) (calls : List Json) : Prop :=
  ∀ call ∈ calls, ∃ g message, call = ApiCalls.sendGroupMsg g message false ∧ Member groups g

/-- Each bot is given the groups in which the service is on and it is a member, and what is
said through all of them stays inside. -/
structure Targeted (s : ScheduleService) (bots : List (List GroupInfo)) : Prop where
  exact : ∀ groups ∈ bots, Exact s groups
  inside : ∀ message, ∃ sent, sayMorning s (bots.map .ok) message = .ok sent ∧ List.Forall₂ Inside bots sent

theorem sayMorning_ok (s : ScheduleService) (bots : List (List GroupInfo)) (message : Bytes) :
    sayMorning s (bots.map .ok) message = .ok (bots.map fun groups => complete message (targetsOf s groups)) := by
  induction bots with
  | nil => rfl
  | cons groups bots ih =>
      have hbroadCast : broadCast s (.ok groups) .lvalue message = .ok (complete message (targetsOf s groups)) := by
        rw [broadCast, getEnableGroup_ok, ok_bind, sendEach_kept rfl]
        rfl
      rw [sayMorning] at ih ⊢
      rw [List.map_cons, List.mapM_cons, hbroadCast, ih]
      rfl

theorem inside_complete {targets : List GId} (h : ∀ g ∈ targets, Member groups g) (message : Bytes) :
    Inside groups (complete message targets) := by
  intro call hcall
  obtain ⟨g, hg, rfl⟩ := List.mem_map.mp hcall
  exact ⟨g, message, rfl, h g hg⟩

theorem targeted_iff (s : ScheduleService) (bots : List (List GroupInfo)) :
    Targeted s bots ↔ s.enableOnDefault = true ∨ ∀ groups ∈ bots, ∀ g ∈ s.groups, Member groups g := by
  have hexact : s.enableOnDefault = true ∨ (∀ groups ∈ bots, ∀ g ∈ s.groups, Member groups g) ↔
      ∀ groups ∈ bots, Exact s groups := by
    constructor
    · exact fun h groups hgroups => exact_iff.mpr (h.imp_right fun h => h groups hgroups)
    · intro h
      by_cases hdefault : s.enableOnDefault = true
      · exact .inl hdefault
      · exact .inr fun groups hgroups => (exact_iff.mp (h groups hgroups)).resolve_left hdefault
  rw [hexact]
  constructor
  · exact fun h => h.exact
  · intro h
    refine ⟨h, fun message => ⟨_, sayMorning_ok s bots message, ?_⟩⟩
    rw [List.forall₂_map_right_iff, List.forall₂_same]
    intro groups hgroups
    obtain ⟨targets, htargets, hmem⟩ := h groups hgroups
    cases (getEnableGroup_ok s groups).symm.trans htargets
    exact inside_complete (fun g hg => ((hmem g).mp hg).1) message

/-- Two bots, the second in a group of its own: it is told to speak in the groups of the
first. -/
theorem targeted_outside : picked.getEnableGroup (.ok [⟨10003, [], 2, 200⟩]) = .ok [10001, 10002] ∧
    ¬ Targeted picked [[⟨10001, [], 2, 200⟩, ⟨10002, [], 2, 200⟩], [⟨10003, [], 2, 200⟩]] := by
  refine ⟨rfl, fun h => ?_⟩
  obtain ⟨targets, htargets, hmem⟩ := h.exact [⟨10003, [], 2, 200⟩] (by simp)
  cases htargets
  obtain ⟨⟨info, hinfo, hid⟩, _⟩ := (hmem 10001).mp List.mem_cons_self
  cases List.mem_singleton.mp hinfo
  exact absurd hid (by decide)

end Targets

end MigangBot.Broadcast
