import MigangBot.RequestAnswers
import MigangBot.Lib.Runs

namespace MigangBot.StrictMode

open Lib.Exceptions Lib.Runs Text JsonValue ApiTypes ApiCalls Blacklists BotManagement RequestAnswers

/-- What happens to the flags and lists: a message to ManageBot, a change of a
blacklist, or a request, which changes nothing. -/
inductive Happening
  | command (event : Object)
  | blacklist (call : Call)
  | request (kind : Kind) (event : Object)

inductive Step (sqlInteger : UInt64 → Int) (env : Surroundings) : BotManage → Happening → BotManage → Prop
  | command {s event s' calls} : handle s event = .ok (s', calls) → Step sqlInteger env s (.command event) s'
  | blacklist (s call) :
      Step sqlInteger env s (.blacklist call) { s with lists := step sqlInteger s.lists call }
  | request {s kind event userInfo calls} : handler env s userInfo event kind = .ok calls →
      Step sqlInteger env s (.request kind event) s

def Happening.orders (word : String) : Happening → Bool
  | .command event =>
      match optionOf event with
      | .ok option => startsWith option (bytes word)
      | .error _ => false
  | _ => false

/-- Strict mode after a history: each -gf switches it. -/
def strictAfter (s : BotManage) (past : List Happening) : Bool :=
  s.rejectGroupForceFlag != (past.countP (Happening.orders "-gf") % 2 == 1)

/-- The -cag commands since the last -gf; without one, an acceptance that was
configured counts as well. -/
def acceptances (s : BotManage) (past : List Happening) : Nat :=
  (past.reverse.takeWhile fun h => !h.orders "-gf").countP (Happening.orders "-cag") +
    if past.any (Happening.orders "-gf") then 0 else s.addGroupFlag.toNat

/-- The flags are what the commands so far have made of them. -/
structure Tracked (s₀ : BotManage) (past : List Happening) (s : BotManage) : Prop where
  strict : s.rejectGroupForceFlag = strictAfter s₀ past
  accepting : s.rejectGroupForceFlag = true → s.addGroupFlag = (acceptances s₀ past % 2 == 1)

theorem strictAfter_snoc (s : BotManage) (past : List Happening) (h : Happening) :
    strictAfter s (past ++ [h]) = (strictAfter s past != h.orders "-gf") := by
  rw [strictAfter, strictAfter, List.countP_append, List.countP_singleton]
  cases h.orders "-gf" with
  | false => simp
  | true =>
      rcases Nat.mod_two_eq_zero_or_one (past.countP (Happening.orders "-gf")) with h0 | h0
      · simp [Nat.add_mod, h0]
      · simp [Nat.add_mod, h0]

theorem acceptances_switch (s : BotManage) (past : List Happening) {h : Happening}
    (hg : h.orders "-gf" = true) : acceptances s (past ++ [h]) = 0 := by
  simp [acceptances, hg]

theorem acceptances_snoc (s : BotManage) (past : List Happening) {h : Happening}
    (hg : h.orders "-gf" = false) :
    acceptances s (past ++ [h]) = acceptances s past + (h.orders "-cag").toNat := by
  simp only [acceptances, List.reverse_append, List.reverse_singleton, List.singleton_append,
    List.takeWhile_cons, hg, Bool.not_false, if_true, List.countP_cons, List.any_append, List.any_cons,
    List.any_nil, Bool.or_false]
  cases h.orders "-cag" with
  | false => simp
  | true =>
      simp
      omega

theorem startsWith_exclusive {option a b : Bytes} (hab : ¬ a <+: b) (hba : ¬ b <+: a)
    (h : startsWith option a = true) : startsWith option b = false := by
  rw [Bool.eq_false_iff]
  intro hb
  rcases List.prefix_or_prefix_of_prefix (List.isPrefixOf_iff_prefix.mp h)
    (List.isPrefixOf_iff_prefix.mp hb) with hp | hp
  · exact hab hp
  · exact hba hp

theorem eq_of_sent {α : Type} {s' t : BotManage} {x : Outcome α} {f : α → List Json} {calls : List Json}
    (h : (x >>= fun a => pure (t, f a)) = .ok (s', calls)) : s' = t := by
  obtain ⟨call, _, h⟩ := bind_eq_ok.mp h
  cases h
  rfl

/-- The state after a command: only the word it begins with decides. -/
def commanded (s : BotManage) (option : Bytes) : BotManage :=
  if startsWith option (bytes "-caf") then { s with addFriendFlag := !s.addFriendFlag }
  else if startsWith option (bytes "-cag") then { s with addGroupFlag := !s.addGroupFlag }
  else if startsWith option (bytes "-gf") then
    if s.rejectGroupForceFlag then { s with rejectGroupForceFlag := false }
    else { s with rejectGroupForceFlag := true, addGroupFlag := false }
  else s

theorem commanded_other {s : BotManage} {option word : Bytes} (h : startsWith option word = true)
    (hw : ∀ toggle ∈ [bytes "-caf", bytes "-cag", bytes "-gf"], ¬ word <+: toggle ∧ ¬ toggle <+: word) :
    commanded s option = s := by
  have hnot (toggle : Bytes) (ht : toggle ∈ [bytes "-caf", bytes "-cag", bytes "-gf"]) :
      ¬ startsWith option toggle = true := by
    rw [startsWith_exclusive (hw toggle ht).1 (hw toggle ht).2 h]
    exact Bool.false_ne_true
  rw [commanded, if_neg (hnot _ (by simp)), if_neg (hnot _ (by simp)), if_neg (hnot _ (by simp))]

theorem manage_state {s s' : BotManage} {event : Object} {option : Bytes} {calls : List Json}
    (h : manage s event option = .ok (s', calls)) : s' = commanded s option := by
  rw [manage] at h
  split at h
  next hempty => rw [eq_of_sent h, hempty, commanded]; rfl
  next =>
  split at h
  next hl => rw [eq_of_sent h, commanded_other hl (by decide)]
  next =>
  split at h
  next hq => rw [eq_of_sent h, commanded_other hq (by decide)]
  next =>
  split at h
  next hg => rw [eq_of_sent h, commanded_other hg (by decide)]
  next =>
  rw [commanded]
  split at h
  next hcaf => rw [eq_of_sent h, if_pos hcaf]
  next hcaf =>
  rw [if_neg hcaf]
  split at h
  next hcag => rw [eq_of_sent h, if_pos hcag]
  next hcag =>
  rw [if_neg hcag]
  split at h
  next hgf =>
    rw [if_pos hgf]
    split at h
    next hs => rw [eq_of_sent h, if_pos hs]
    next hs => rw [eq_of_sent h, if_neg hs]
  next hgf => rw [eq_of_sent h, if_neg hgf]

theorem commanded_strict (s : BotManage) (option : Bytes) : (commanded s option).rejectGroupForceFlag =
    (s.rejectGroupForceFlag != startsWith option (bytes "-gf")) := by
  rw [commanded]
  split
  next hcaf =>
    rw [startsWith_exclusive (by decide) (by decide) hcaf]
    simp
  next =>
  split
  next hcag =>
    rw [startsWith_exclusive (by decide) (by decide) hcag]
    simp
  next =>
  split
  next hgf =>
    split
    next hs => simp [hs, hgf]
    next hs => simp [hs, hgf]
  next hgf => simp [hgf]

theorem commanded_accepting (s : BotManage) {option : Bytes} (hg : startsWith option (bytes "-gf") = false) :
    (commanded s option).addGroupFlag = (s.addGroupFlag != startsWith option (bytes "-cag")) := by
  rw [commanded]
  split
  next hcaf =>
    rw [startsWith_exclusive (by decide) (by decide) hcaf]
    simp
  next =>
  split
  next hcag => simp [hcag]
  next hcag => simp [hcag, hg]

theorem commanded_switch {s : BotManage} {option : Bytes} (hg : startsWith option (bytes "-gf") = true)
    (hs : s.rejectGroupForceFlag = false) : (commanded s option).addGroupFlag = false := by
  rw [commanded, if_neg (by rw [startsWith_exclusive (by decide) (by decide) hg]; exact Bool.false_ne_true),
    if_neg (by rw [startsWith_exclusive (by decide) (by decide) hg]; exact Bool.false_ne_true), if_pos hg,
    if_neg (by simp [hs])]

variable {sqlInteger : UInt64 → Int} {env : Surroundings}

theorem Tracked.start (s : BotManage) : Tracked s [] s := by
  constructor
  · simp [strictAfter]
  · intro _
    cases h : s.addGroupFlag <;> simp [acceptances, h]

theorem Tracked.silent {s₀ s s' : BotManage} {past : List Happening} {h : Happening} (ht : Tracked s₀ past s)
    (hg : h.orders "-gf" = false) (hc : h.orders "-cag" = false)
    (hstrict : s'.rejectGroupForceFlag = s.rejectGroupForceFlag) (hadd : s'.addGroupFlag = s.addGroupFlag) :
    Tracked s₀ (past ++ [h]) s' := by
  constructor
  · rw [strictAfter_snoc, hg, hstrict, ht.strict]
    simp
  · intro hs
    rw [hstrict] at hs
    rw [hadd, ht.accepting hs, acceptances_snoc s₀ past hg, hc]
    rfl

theorem Tracked.step {s₀ s s' : BotManage} {past : List Happening} {h : Happening}
    (ht : Tracked s₀ past s) (hs : Step sqlInteger env s h s') : Tracked s₀ (past ++ [h]) s' := by
  cases hs with
  | blacklist call => exact ht.silent rfl rfl rfl rfl
  | request _ => exact ht.silent rfl rfl rfl rfl
  | @command event _ calls hh =>
      obtain ⟨option, ho, hm⟩ := bind_eq_ok.mp hh
      rw [manage_state hm]
      have horders (word : String) :
          (Happening.command event).orders word = startsWith option (bytes word) := by
        simp only [Happening.orders, ho]
      constructor
      · rw [strictAfter_snoc, horders, commanded_strict, ht.strict]
      · intro hstrict
        cases hg : startsWith option (bytes "-gf") with
        | true =>
            have hoff : s.rejectGroupForceFlag = false := by
              simpa [commanded_strict, hg] using hstrict
            rw [commanded_switch hg hoff, acceptances_switch s₀ past ((horders "-gf").trans hg)]
            rfl
        | false =>
            have hon : s.rejectGroupForceFlag = true := by
              simpa [commanded_strict, hg] using hstrict
            rw [commanded_accepting s hg, acceptances_snoc s₀ past ((horders "-gf").trans hg), horders,
              ht.accepting hon]
            cases startsWith option (bytes "-cag") with
            | false => simp
            | true =>
                rcases Nat.mod_two_eq_zero_or_one (acceptances s₀ past) with h0 | h0
                · simp [Nat.add_mod, h0]
                · simp [Nat.add_mod, h0]

theorem tracked_run {s₀ s : BotManage} {past : List Happening} (h : Run (Step sqlInteger env) s₀ past s) :
    Tracked s₀ past s := by
  have := h.history_invariant (Tracked s₀) (fun past s a t ht hs => ht.step hs) [] (.start s₀)
  simpa using this

/-- The call that lets the bot into a group. -/
def Approves (r : Request) (calls : List Json) : Prop :=
  ∃ reason, setGroupAddRequest r.flag (bytes "invite") reason true ∈ calls

structure Allowed (s : BotManage) (r : Request) : Prop where
  lenient : s.rejectGroupForceFlag = false
  accepting : s.addGroupFlag = true
  user : isBlackUser s.lists r.userId = false
  group : isBlackGroup s.lists r.groupId = false

theorem approves_iff {s : BotManage} {r : Request} (hk : r.kind = .invite) {event : Object} (h : r.Shown event)
    {userInfo : UserInfo} {calls : List Json} (hc : handleGroupInvite env s userInfo event = .ok calls) :
    Approves r calls ↔ verdict s r = .accepted := by
  obtain ⟨reason, heq⟩ := @handler_eq env s userInfo r event h
  rw [hk, handler, hc, Except.ok.injEq] at heq
  have ho : opening env r (verdict s r) reason =
      [setGroupAddRequest r.flag (bytes "invite") reason (verdict s r).approves] := by
    simp only [opening, answerCall, hk]
  rw [heq, ho, Approves]
  constructor
  · intro ha
    obtain ⟨reason', ha⟩ := ha
    rw [List.singleton_append, List.mem_cons, List.mem_cons] at ha
    rcases ha with ha | ha | ha
    · simp only [setGroupAddRequest, callApi, Json.object.injEq, List.cons.injEq, Prod.mk.injEq,
        Json.boolean.injEq, true_and, and_true] at ha
      cases hv : verdict s r with
      | accepted => rfl
      | blacklisted | paused =>
          rw [hv] at ha
          cases ha.2
    · exact absurd ⟨_, .inr ha.symm⟩ (not_isAnswer_getStrangerInfo r.userId)
    · exact absurd ⟨_, .inr rfl⟩ (not_isAnswer_notify env _ _ ha)
  · intro ha
    rw [ha]
    exact ⟨reason, List.mem_cons_self⟩

theorem verdict_accepted_iff {s : BotManage} {r : Request} (hk : r.kind = .invite) :
    verdict s r = .accepted ↔ s.addGroupFlag = true ∧ isBlackUser s.lists r.userId = false ∧
      isBlackGroup s.lists r.groupId = false := by
  rw [verdict, hk]
  cases s.addGroupFlag <;> cases isBlackUser s.lists r.userId <;>
    cases isBlackGroup s.lists r.groupId <;> simp

/-- An invite is approved without leave exactly when it comes in strict mode after
an odd number of acceptances, from nobody on a blacklist. -/
theorem strict_mode_iff {s₀ s : BotManage} {past : List Happening} (h : Run (Step sqlInteger env) s₀ past s)
    {r : Request} (hk : r.kind = .invite) {event : Object} (hr : r.Shown event) {userInfo : UserInfo}
    {calls : List Json} (hc : handleGroupInvite env s userInfo event = .ok calls) :
    (Approves r calls → Allowed s r) ↔
      ¬ (strictAfter s₀ past = true ∧ acceptances s₀ past % 2 = 1 ∧ isBlackUser s.lists r.userId = false ∧
        isBlackGroup s.lists r.groupId = false) := by
  have ht := tracked_run h
  rw [approves_iff hk hr hc, verdict_accepted_iff hk, ← ht.strict]
  constructor
  · intro hallowed hbad
    obtain ⟨hstrict, hodd, huser, hgroup⟩ := hbad
    have hadd : s.addGroupFlag = true := by rw [ht.accepting hstrict, hodd]; rfl
    have := (hallowed ⟨hadd, huser, hgroup⟩).lenient
    rw [hstrict] at this
    cases this
  · intro hgood ha
    obtain ⟨hadd, huser, hgroup⟩ := ha
    refine ⟨?_, hadd, huser, hgroup⟩
    rw [Bool.eq_false_iff]
    intro hstrict
    have hodd := ht.accepting hstrict
    rw [hadd] at hodd
    exact hgood ⟨hstrict, by simpa using hodd.symm, huser, hgroup⟩

def inviteEvent : Object :=
  [("post_type", .string (bytes "request")), ("request_type", .string (bytes "group")),
    ("sub_type", .string (bytes "invite")), ("flag", .string (bytes "g1")), ("user_id", .numberUnsigned 20002),
    ("group_id", .numberUnsigned 40004), ("self_id", .numberUnsigned 30003)]

def invite : Request := ⟨.invite, bytes "g1", 20002, 40004⟩

theorem shown_inviteEvent : invite.Shown inviteEvent where
  flag := rfl
  user := ⟨_, rfl, rfl⟩
  requestType := rfl
  invite _ := ⟨rfl, _, rfl, rfl⟩

def commandEvent (option : String) : Object :=
  [("post_type", .string (bytes "message")), ("message_type", .string (bytes "private")),
    ("user_id", .numberUnsigned 10001), ("message", .string (bytes "migangbot " ++ bytes option)),
    ("__command_size__", .numberUnsigned 9)]

theorem handle_of_option {s : BotManage} {event : Object} {option : Bytes} (h : optionOf event = .ok option) :
    handle s event = manage s event option := by
  rw [handle, h]
  rfl

theorem handle_gf (friend group : Bool) (lists : BlackLists) : ∃ calls,
    handle ⟨friend, group, false, lists⟩ (commandEvent "-gf") = .ok (⟨friend, false, true, lists⟩, calls) := by
  have ho : optionOf (commandEvent "-gf") = .ok (bytes "-gf") := by decide
  rw [handle_of_option ho]
  exact ⟨_, rfl⟩

theorem handle_cag (friend group strict : Bool) (lists : BlackLists) : ∃ calls,
    handle ⟨friend, group, strict, lists⟩ (commandEvent "-cag") = .ok (⟨friend, !group, strict, lists⟩, calls) := by
  have ho : optionOf (commandEvent "-cag") = .ok (bytes "-cag") := by decide
  rw [handle_of_option ho]
  exact ⟨_, rfl⟩

def configured : BotManage := ⟨false, false, false, init emptyTable emptyTable⟩

theorem run_strict : Run (Step (fun id => id.toNat) settings) configured [.command (commandEvent "-gf")]
    { configured with rejectGroupForceFlag := true } := by
  obtain ⟨calls, h⟩ := handle_gf false false configured.lists
  exact .cons (.command h) (.nil _)

/-- Strict mode is switched on, then acceptance. -/
theorem run_strict_accepting : Run (Step (fun id => id.toNat) settings) configured
    [.command (commandEvent "-gf"), .command (commandEvent "-cag")]
    { configured with rejectGroupForceFlag := true, addGroupFlag := true } := by
  obtain ⟨calls, h⟩ := handle_cag false false true configured.lists
  exact run_strict.snoc (.command h)

theorem strict_mode_iff_switched : ∃ calls,
    (Approves invite calls → Allowed { configured with rejectGroupForceFlag := true } invite) ↔
      ¬ (strictAfter configured [.command (commandEvent "-gf")] = true ∧
        acceptances configured [.command (commandEvent "-gf")] % 2 = 1 ∧
        isBlackUser configured.lists 20002 = false ∧ isBlackGroup configured.lists 40004 = false) := by
  obtain ⟨reason, h⟩ := @handler_eq settings { configured with rejectGroupForceFlag := true } newcomer
    invite inviteEvent shown_inviteEvent
  exact ⟨_, strict_mode_iff run_strict rfl shown_inviteEvent h⟩

/-- In strict mode an invite is approved after all. -/
theorem strict_mode_approves :
    ¬ ∀ (s₀ s : BotManage) (past : List Happening) (r : Request) (event : Object) userInfo calls,
      Run (Step (fun id => id.toNat) settings) s₀ past s → r.kind = .invite → r.Shown event →
        handleGroupInvite settings s userInfo event = .ok calls → Approves r calls → Allowed s r := by
  intro hall
  obtain ⟨reason, h⟩ := @handler_eq settings { configured with rejectGroupForceFlag := true, addGroupFlag := true }
    newcomer invite inviteEvent shown_inviteEvent
  have hallowed := hall _ _ _ _ _ _ _ run_strict_accepting rfl shown_inviteEvent h
    ((approves_iff rfl shown_inviteEvent h).mpr rfl)
  cases hallowed.lenient

end MigangBot.StrictMode
