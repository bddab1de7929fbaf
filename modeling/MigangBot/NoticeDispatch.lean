import MigangBot.WellFormedEvents

namespace MigangBot.NoticeDispatch

open Lib.Exceptions Lib.Maps Text JsonValue ApiTypes Permission Services EventHandling MessageHandling JsonReads
  WellFormedEvents

variable {env : Environment} {event : Object} {n s : Bytes}

theorem find₂_pushBack (m : FiniteMap Bytes (FiniteMap Bytes (List ServicePtr))) (n n' s s' : Bytes)
    (p : ServicePtr) : (find₂ (pushBack m n s p) n' s').getD [] =
      (find₂ m n' s').getD [] ++ if n = n' ∧ s = s' then [p] else [] := by
  rw [pushBack, find₂_insert₂]
  by_cases hk : n = n' ∧ s = s'
  · obtain ⟨rfl, rfl⟩ := hk
    simp
  · have hk' : ¬ (n' = n ∧ s' = s) := fun h => hk ⟨h.1.symm, h.2.symm⟩
    rw [if_neg hk, if_neg hk', List.append_nil]

/-- The services that a registration puts under a notice type and a sub-type. -/
def puts (n s : Bytes) : Registration → List ServicePtr
  | .notice noticeType subType service => if noticeType = n ∧ subType = s then [service] else []
  | _ => []

def under (regs : List Registration) (n s : Bytes) : List ServicePtr :=
  regs.flatMap (puts n s)

theorem emplaceFullmatch_notices (h : EventHandler) (command : Bytes) (service : ServicePtr) :
    (emplaceFullmatch h command service).1.noticeHandler = h.noticeHandler := by
  rw [emplaceFullmatch]
  cases h.commandFullmatch.lookup command <;> rfl

/-- One registration adds at the end of what was there. -/
theorem register_notices (h : EventHandler) (r : Registration) :
    (find₂ (register h r).1.noticeHandler n s).getD [] =
      (find₂ h.noticeHandler n s).getD [] ++ puts n s r := by
  cases r with
  | command type command service =>
      refine Eq.trans ?_ (List.append_nil _).symm
      cases type with
      | fullmatch | keyword => rw [register, registerCommand, emplaceFullmatch_notices]
      | prefixMatch | suffixMatch | allMsg => rfl
  | regex patterns service => exact (List.append_nil _).symm
  | notice noticeType subType service => exact find₂_pushBack h.noticeHandler noticeType n subType s service
  | request requestType subType service => exact (List.append_nil _).symm

theorem registered_notices_from (regs : List Registration) (h : EventHandler) :
    (find₂ (regs.foldl (fun h r => (register h r).1) h).noticeHandler n s).getD [] =
      (find₂ h.noticeHandler n s).getD [] ++ under regs n s := by
  induction regs generalizing h with
  | nil => exact (List.append_nil _).symm
  | cons r regs ih =>
      rw [List.foldl_cons, ih, register_notices, List.append_assoc]
      rfl

theorem registered_notices (regs : List Registration) (n s : Bytes) :
    (find₂ (registered regs).noticeHandler n s).getD [] = under regs n s :=
  registered_notices_from regs .empty

/-- The guard of every notice: an event of no group, or a service that is on in
the group of the event. -/
def openTo (env : Environment) (event : Object) (p : ServicePtr) : Bool :=
  !event.contains "group_id" || (env.services p).checkIsEnable (groupOf event)

theorem enabledFor_eq (hgroup : HasIfAny .uint64 event "group_id") (p : ServicePtr) :
    enabledFor env event p = .ok (openTo env event p) := by
  rw [enabledFor, openTo]
  cases hc : event.contains "group_id" with
  | false => rfl
  | true =>
      have hread := getter_getUInt64.reads _ (has_iff.mp ((hasIfAny_iff _ _ _).mp hgroup hc))
      rw [if_pos rfl, hread]
      rfl

theorem launchEach_eq (hgroup : HasIfAny .uint64 event "group_id") (path : Path) (ps : List ServicePtr) :
    launchEach env path event ps = .ok ((ps.filter (openTo env event)).map (⟨path, ·, event⟩)) := by
  induction ps with
  | nil => rfl
  | cons p ps ih =>
      rw [launchEach, enabledFor_eq hgroup, ok_bind, ih, ok_bind]
      cases ho : openTo env event p <;> simp [ho, pure, Except.pure]

theorem launchUnder_eq (hgroup : HasIfAny .uint64 event "group_id")
    (m : FiniteMap Bytes (FiniteMap Bytes (List ServicePtr))) (path : Path) (n s : Bytes) :
    launchUnder env m path event n s =
      .ok ((((find₂ m n s).getD []).filter (openTo env event)).map (⟨path, ·, event⟩)) := by
  rw [launchUnder]
  cases find₂ m n s with
  | none => rfl
  | some services => exact launchEach_eq hgroup path services

def IsNotice (event : Object) : Prop :=
  ∃ postType, event.find "post_type" = some (.string postType) ∧ charAt postType 3 = .ok (char 'i')

/-- A notice that Handle does not filter out, with its fields as the protocol
has them. A type it lacks is read as empty. -/
structure Notice (event : Object) (n s : Bytes) : Prop where
  post : IsNotice event
  passes : filter event = .ok true
  type : HasIfAny .string event "notice_type"
  type_eq : textOf event "notice_type" = n
  subType : HasIfAny .string event "sub_type"
  subType_eq : textOf event "sub_type" = s
  self : Has .uint64 event "self_id"
  group : HasIfAny .uint64 event "group_id"

/-- What both loops together go through: the second one only runs for a sub-type
of its own. -/
def addressed (regs : List Registration) (n s : Bytes) : List ServicePtr :=
  if s = [] then under regs n [] else under regs n s ++ under regs n []

theorem handleNotice_eq (regs : List Registration) (hn : Notice event n s) :
    handleNotice (registered regs) env event =
      .ok (((addressed regs n s).filter (openTo env event)).map (⟨.notice, ·, event⟩)) := by
  have hself := getter_getUInt64.reads _ (has_iff.mp hn.self)
  rw [handleNotice, value_eq_ok getter_getString (d := []) rfl hn.type, ok_bind,
    value_eq_ok getter_getString (d := []) rfl hn.subType, ok_bind, hself, ok_bind, ← textOf, ← textOf,
    hn.type_eq, hn.subType_eq, launchUnder_eq hn.group, launchUnder_eq hn.group, registered_notices,
    registered_notices, ok_bind, addressed]
  cases s with
  | nil => rfl
  | cons c s => simp [pure, Except.pure]

theorem handle_notice (h : EventHandler) (hn : IsNotice event) (hf : filter event = .ok true)
    {launches : List Launch} (hh : handleNotice h env event = .ok launches) :
    handle h env event = .ok (true, launches) := by
  obtain ⟨postType, hpost, hchar⟩ := hn
  have hnotice : handlePostType h env (char 'i') event = .ok launches := by
    rw [handlePostType, if_neg (by decide), if_pos rfl, hh]
  rw [handle_passed hpost hchar hf, hnotice]
  rfl

/-- A registration that a notice reaches: under its own sub-type, or under the
wildcard. -/
def reaches (n s : Bytes) (p : ServicePtr) : Registration → Bool
  | .notice noticeType subType service =>
      decide (noticeType = n ∧ (subType = s ∨ subType = []) ∧ service = p)
  | _ => false

/-- A registration under an empty sub-type is one of the two kinds only once. -/
theorem count_addressed_one (r : Registration) (n s : Bytes) (p : ServicePtr) :
    (addressed [r] n s).count p = if reaches n s p r then 1 else 0 := by
  cases r with
  | notice n' s' p' =>
      by_cases hn : n' = n
      · by_cases hs : s = []
        · by_cases hs' : s' = [] <;> simp [addressed, under, puts, reaches, hn, hs, hs', List.count_singleton]
        · by_cases hs' : s' = s
          · simp [addressed, under, puts, reaches, hn, hs, hs', List.count_singleton]
          · by_cases hw : s' = [] <;>
              simp [addressed, under, puts, reaches, hn, hs, hs', hw, List.count_singleton]
      · simp [addressed, under, puts, reaches, hn]
  | _ => simp [addressed, under, puts, reaches]

theorem count_addressed (regs : List Registration) (n s : Bytes) (p : ServicePtr) :
    (addressed regs n s).count p = regs.countP (reaches n s p) := by
  induction regs with
  | nil => simp [addressed, under]
  | cons r regs ih =>
      rw [List.countP_cons, ← ih, ← count_addressed_one r n s p, addressed, addressed, addressed]
      by_cases hs : s = []
      · simp [under, hs, Nat.add_comm]
      · simp [under, hs]
        omega

/-- Every registration under the sub-type of the notice or under the wildcard
makes one launch, in a group only of a service that is on there, and nothing
else is launched. -/
theorem launched_once_per_registration (regs : List Registration) (env : Environment) (event : Object)
    (n s : Bytes) (hn : Notice event n s) :
    ∃ launches, handle (registered regs) env event = .ok (true, launches) ∧
      (∀ l ∈ launches, l.path = .notice ∧ l.event = event) ∧
      ∀ p, (launches.map (fun l => l.service)).count p =
        if openTo env event p then regs.countP (reaches n s p) else 0 := by
  refine ⟨_, handle_notice _ hn.post hn.passes (handleNotice_eq regs hn), ?_, ?_⟩
  · intro l hl
    obtain ⟨p, _, rfl⟩ := List.mem_map.mp hl
    exact ⟨rfl, rfl⟩
  · intro p
    have hmap : ∀ ps : List ServicePtr, (ps.map (Launch.mk .notice · event)).map (fun l => l.service) = ps := by
      intro ps
      rw [List.map_map]
      exact List.map_id ps
    rw [hmap, ← count_addressed]
    split
    next ho => exact List.count_filter ho
    next ho =>
      refine List.count_eq_zero_of_not_mem fun hp => ho ?_
      exact (List.mem_filter.mp hp).2

def kicked : Object :=
  [("post_type", .string (bytes "notice")), ("notice_type", .string (bytes "group_decrease")),
    ("sub_type", .string (bytes "kick_me")), ("group_id", .numberUnsigned 5), ("self_id", .numberUnsigned 1)]

theorem notice_kicked : Notice kicked (bytes "group_decrease") (bytes "kick_me") where
  post := ⟨bytes "notice", rfl, rfl⟩
  passes := rfl
  type := by
    rintro _ ⟨⟩
    exact ⟨⟨_, rfl⟩, by rintro _ ⟨⟩⟩
  type_eq := rfl
  subType := by
    rintro _ ⟨⟩
    exact ⟨⟨_, rfl⟩, by rintro _ ⟨⟩⟩
  subType_eq := rfl
  self := ⟨_, rfl, rfl, by rintro _ ⟨⟩⟩
  group := by
    rintro _ ⟨⟩
    exact ⟨rfl, by rintro _ ⟨⟩⟩

def leaving : List Registration :=
  [.notice (bytes "group_decrease") (bytes "kick_me") 0, .notice (bytes "group_decrease") [] 1,
    .notice (bytes "group_increase") [] 2, .notice (bytes "group_decrease") [] 1]

/-- The first service is off in the group of the event. -/
def firstIsOff : Environment where
  services p := ⟨⟨groupAdmin, true, if p = 0 then [5] else [], [], .null⟩, normal, false⟩
  config := ⟨[], [], bytes "MigangBot"⟩
  reMatch pattern message := pattern == message

theorem launched_once_kicked :
    ∃ launches, handle (registered leaving) firstIsOff kicked = .ok (true, launches) ∧
      (launches.map (fun l => l.service)).count 0 = 0 ∧ (launches.map (fun l => l.service)).count 1 = 2 := by
  obtain ⟨launches, hh, _, hcount⟩ := launched_once_per_registration leaving firstIsOff kicked _ _ notice_kicked
  exact ⟨launches, hh, hcount 0, hcount 1⟩

end MigangBot.NoticeDispatch
