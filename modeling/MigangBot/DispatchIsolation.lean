import MigangBot.MessageHandling
import MigangBot.MessageUtility

namespace MigangBot.DispatchIsolation

open Lib.Exceptions Lib.Maps Lib.Tries Text JsonValue ApiTypes Permission Services CommandTrie
  EventHandling MessageHandling MessageUtility

variable {env : Environment} {regs : List Registration}

/-- A launch of a command has the size of the command that selected it; any
other has no size, and its plain text is the whole message. -/
def SeesOwn (regs : List Registration) (message : Bytes) (l : Launch) : Prop :=
  match l.path with
  | .prefixMatch => ∃ key, Node.Wins (· <+: lower message) (firstUnder (prefixCommands regs)) (· ≥ ·)
      key l.service ∧
      l.event.find "__command_size__" = some (.numberUnsigned (commandSize false key.length))
  | .suffixMatch => ∃ key, Node.Wins (· <:+ lower message) (firstUnder (suffixCommands regs)) (· ≥ ·)
      key l.service ∧
      l.event.find "__command_size__" = some (.numberUnsigned (commandSize true key.length))
  | _ => l.event.contains "__command_size__" = false ∧ extraPlainText l.event = .ok (unescape message)

def CommandMatches (regs : List Registration) (message : Bytes) : Prop :=
  (∃ c ∈ prefixCommands regs, c.1 ≠ [] ∧ lower c.1 <+: lower message) ∨
    ∃ c ∈ suffixCommands regs, c.1 ≠ [] ∧ lower c.1 <:+ lower message

theorem commandMatches_iff {message : Bytes} : CommandMatches regs message ↔
    ¬ (Node.Missing (· <+: lower message) (firstUnder (prefixCommands regs)) ∧
      Node.Missing (· <:+ lower message) (firstUnder (suffixCommands regs))) := by
  simp only [CommandMatches, missing_iff, not_and_or, not_forall, not_not, exists_prop]

theorem afterSuffix_size (regs : List Registration) (message : Bytes) (event : Object) :
    (CommandMatches regs message ∧
      (afterSuffix (registered regs) message event).contains "__command_size__" = true) ∨
    (¬ CommandMatches regs message ∧ afterPrefix (registered regs) message event = event ∧
      afterSuffix (registered regs) message event = event) := by
  rw [commandMatches_iff, not_not, afterSuffix]
  rcases answers_longestSuffix regs message (afterPrefix (registered regs) message event) with
    ⟨key, p, hw, ha⟩ | ⟨hm, ha⟩
  · left
    exact ⟨fun h => hw.not_missing h.2, by simp [ha, Object.contains_set]⟩
  · rw [ha]
    rw [afterPrefix]
    rcases answers_longestPrefix regs message event with ⟨key, p, hw, ha⟩ | ⟨hm', ha⟩
    · left
      exact ⟨fun h => hw.not_missing h.1, by simp [ha, Object.contains_set]⟩
    · right
      exact ⟨⟨hm', hm⟩, by rw [ha], by rw [ha]⟩

theorem seesOwn_prefix {message : Bytes} {event : Object} {p : ServicePtr}
    (hp : ((registered regs).commandPrefix.longestPrefix message event).2 = some p) :
    SeesOwn regs message ⟨.prefixMatch, p, afterPrefix (registered regs) message event⟩ := by
  rcases answers_longestPrefix regs message event with ⟨key, p', hw, ha⟩ | ⟨_, ha⟩
  · rw [ha] at hp
    cases hp
    exact ⟨key, hw, by simp [afterPrefix, ha]⟩
  · rw [ha] at hp
    cases hp

theorem seesOwn_suffix {message : Bytes} {event : Object} {p : ServicePtr}
    (hp : ((registered regs).commandSuffix.longestSuffix message
      (afterPrefix (registered regs) message event)).2 = some p) :
    SeesOwn regs message ⟨.suffixMatch, p, afterSuffix (registered regs) message event⟩ := by
  rcases answers_longestSuffix regs message (afterPrefix (registered regs) message event) with
    ⟨key, p', hw, ha⟩ | ⟨_, ha⟩
  · rw [ha] at hp
    cases hp
    exact ⟨key, hw, by simp [afterSuffix, ha]⟩
  · rw [ha] at hp
    cases hp

theorem seesOwn_dispatch_iff {commandGuard : Object → TriggeredService → Bool}
    {guard : TriggeredService → Bool} {message : Bytes} {event : Object}
    (hm : event.find "message" = some (.string message))
    (hs : event.contains "__command_size__" = false) :
    (∀ l ∈ dispatch (registered regs) env commandGuard guard message event, SeesOwn regs message l) ↔
      ¬ (CommandMatches regs message ∧
        ∃ p, Listening (registered regs) env message p ∧ guard (env.services p) = true) := by
  rcases afterSuffix_size regs message event with ⟨hc, hsize⟩ | ⟨hc, hfront, hback⟩
  · constructor
    · rintro hall ⟨_, p, hp, hg⟩
      rcases hp with ⟨m, hmem, hcheck, rfl⟩ | hp
      · have hown := hall ⟨.regex, m.service, afterSuffix (registered regs) message event⟩
          (mem_dispatch.mpr (.inr (.inr (.inr (.inl ⟨m, hmem, hcheck, hg, rfl⟩)))))
        simp [SeesOwn, hsize] at hown
      · have hown := hall ⟨.allMsg, p, afterSuffix (registered regs) message event⟩
          (mem_dispatch.mpr (.inr (.inr (.inr (.inr ⟨p, hp, hg, rfl⟩)))))
        simp [SeesOwn, hsize] at hown
    · intro hn l hl
      rcases mem_dispatch.mp hl with ⟨p, _, _, rfl⟩ | ⟨p, hp, _, rfl⟩ | ⟨p, hp, _, rfl⟩ |
          ⟨m, hmem, hcheck, hg, rfl⟩ | ⟨p, hp, hg, rfl⟩
      · exact ⟨hs, extraPlainText_whole hm hs⟩
      · exact seesOwn_prefix hp
      · exact seesOwn_suffix hp
      · exact absurd ⟨hc, m.service, .inl ⟨m, hmem, hcheck, rfl⟩, hg⟩ hn
      · exact absurd ⟨hc, p, .inr hp, hg⟩ hn
  · refine ⟨fun _ hex => hc hex.1, fun _ l hl => ?_⟩
    rcases mem_dispatch.mp hl with ⟨p, _, _, rfl⟩ | ⟨p, hp, _, rfl⟩ | ⟨p, hp, _, rfl⟩ |
        ⟨m, _, _, _, rfl⟩ | ⟨p, _, _, rfl⟩
    · exact ⟨hs, extraPlainText_whole hm hs⟩
    · exact seesOwn_prefix hp
    · exact seesOwn_suffix hp
    · rw [hback]
      exact ⟨hs, extraPlainText_whole hm hs⟩
    · rw [hback]
      exact ⟨hs, extraPlainText_whole hm hs⟩

def Admitted (env : Environment) (event : Object) (p : ServicePtr) : Prop :=
  ∃ perm, getUserPermission env.config event = .ok perm ∧ (env.services p).checkPerm perm = true ∧
    (IsPrivate event ∨ IsGroup event ∧ ∃ groupId, (member event "group_id").getUInt64 = .ok groupId ∧
      (env.services p).checkIsEnable groupId = true)

def Mixed (regs : List Registration) (env : Environment) (event : Object) : Prop :=
  filter event = .ok true ∧ ∃ message, MatchedText env event message ∧ CommandMatches regs message ∧
    ∃ p, Listening (registered regs) env message p ∧ Admitted env event p

section

variable {h : EventHandler} {event logged marked : Object} {launches : List Launch}
  {msg messageType message : Bytes} {perm : Int}

theorem admitted_group
    (hd : Dispatched h env event launches msg messageType perm logged marked message)
    (hg : first messageType = char 'g') {groupId : GId}
    (hgroup : (member event "group_id").getUInt64 = .ok groupId) (p : ServicePtr) :
    Admitted env event p ↔ groupGuard groupId perm (env.services p) = true := by
  have hp : ¬ IsPrivate event := by
    rw [hd.isPrivate_iff, hg]
    decide
  simp only [Admitted, hd.rank, hgroup, hp, hd.isGroup_iff, hg, groupGuard, Except.ok.injEq,
    exists_eq_left', false_or, true_and, Bool.and_eq_true, and_comm]

theorem admitted_private
    (hd : Dispatched h env event launches msg messageType perm logged marked message)
    (hp : first messageType = char 'p') (p : ServicePtr) :
    Admitted env event p ↔ (env.services p).checkPerm perm = true := by
  simp only [Admitted, hd.rank, hd.isPrivate_iff, hp, Except.ok.injEq, exists_eq_left', true_or,
    and_true]

theorem not_admitted
    (hd : Dispatched h env event launches msg messageType perm logged marked message)
    (hg : first messageType ≠ char 'g') (hp : first messageType ≠ char 'p') (p : ServicePtr) :
    ¬ Admitted env event p := by
  rintro ⟨_, _, _, hprivate | ⟨hgroup, _⟩⟩
  · exact hp (hd.isPrivate_iff.mp hprivate)
  · exact hg (hd.isGroup_iff.mp hgroup)

end

/-- Each launch sees the size of its own command, and only that, exactly when
no command matches a text that an admitted service listens to. -/
theorem isolated_iff {event : Object} {b : Bool} {launches : List Launch} (hm : IsMessage event)
    (hs : event.contains "__command_size__" = false)
    (hh : handle (registered regs) env event = .ok (b, launches)) :
    (∀ l ∈ launches, ∃ message, MatchedText env event message ∧ SeesOwn regs message l) ↔
      ¬ Mixed regs env event := by
  rcases handle_message hm hh with ⟨hf, rfl⟩ | ⟨hf, hh⟩
  · simp [Mixed, hf]
  obtain ⟨msg, messageType, perm, logged, marked, message, hd⟩ := handleMessage_eq_ok hh
  have hsize : marked.contains "__command_size__" = false :=
    (contains_congr (hd.find_marked (by decide))).trans hs
  have hleft : (∀ l ∈ launches, ∃ m, MatchedText env event m ∧ SeesOwn regs m l) ↔
      ∀ l ∈ launches, SeesOwn regs message l := by
    refine forall₂_congr fun l _ => ⟨?_, fun hl => ⟨message, hd.matchedText, hl⟩⟩
    rintro ⟨m, hmatched, hl⟩
    rwa [matchedText_unique hmatched hd.matchedText] at hl
  have hright : Mixed regs env event ↔ CommandMatches regs message ∧
      ∃ p, Listening (registered regs) env message p ∧ Admitted env event p := by
    constructor
    · rintro ⟨_, m, hmatched, hc, p, hp, ha⟩
      rw [matchedText_unique hmatched hd.matchedText] at hc hp
      exact ⟨hc, p, hp, ha⟩
    · rintro ⟨hc, p, hp, ha⟩
      exact ⟨hf, message, hd.matchedText, hc, p, hp, ha⟩
  rw [hleft, hright]
  rcases hd.cases_type with ⟨hg, groupId, hgroup, rfl⟩ | ⟨hp, rfl⟩ | ⟨hg, hp, rfl⟩
  · simp only [admitted_group hd hg hgroup]
    exact seesOwn_dispatch_iff hd.message_marked hsize
  · simp only [admitted_private hd hp]
    exact seesOwn_dispatch_iff hd.message_marked hsize
  · simp [not_admitted hd hg hp]

def privateMessage : Object :=
  [("post_type", .string (bytes "message")), ("message_type", .string (bytes "private")),
    ("sub_type", .string (bytes "friend")), ("user_id", .numberUnsigned 7),
    ("self_id", .numberUnsigned 1), ("message", .string (bytes "echo hi")), ("sender", .object [])]

theorem isMessage_privateMessage : IsMessage privateMessage := ⟨bytes "message", rfl, rfl⟩

def anyone : Environment where
  services _ := ⟨⟨groupAdmin, true, [], [], .null⟩, normal, false⟩
  config := ⟨[], [], bytes "MigangBot"⟩
  reMatch pattern message := pattern == message

def commandAndPattern : List Registration :=
  [.command .prefixMatch (bytes "echo") 0, .regex [bytes "echo hi"] 1]

theorem isolated_iff_privateMessage :
    ∃ launches, handle (registered commandAndPattern) anyone privateMessage = .ok (true, launches) ∧
      ((∀ l ∈ launches, ∃ message, MatchedText anyone privateMessage message ∧
        SeesOwn commandAndPattern message l) ↔ ¬ Mixed commandAndPattern anyone privateMessage) :=
  ⟨_, rfl, isolated_iff isMessage_privateMessage rfl rfl⟩

theorem pattern_sees_command_size :
    ¬ ∀ regs env event b launches, IsMessage event → event.contains "__command_size__" = false →
      handle (registered regs) env event = .ok (b, launches) →
        ∀ l ∈ launches, ∃ message, MatchedText env event message ∧ SeesOwn regs message l := by
  intro hall
  have hh : handle (registered commandAndPattern) anyone privateMessage =
      .ok (true, [⟨.prefixMatch, 0, _⟩, ⟨.regex, 1, _⟩]) := rfl
  obtain ⟨_, _, hsize, _⟩ := hall _ _ _ _ _ isMessage_privateMessage rfl hh _
    (List.mem_cons_of_mem _ (List.mem_singleton.mpr rfl))
  exact absurd hsize (by decide)

end MigangBot.DispatchIsolation
