import MigangBot.MessageHandling

namespace MigangBot.DispatchAuthorisation

open Lib.Exceptions Lib.Maps Text JsonValue ApiTypes Permission Services CommandTrie EventHandling
  MessageHandling

variable {h : EventHandler} {env : Environment}

structure Authorised (env : Environment) (event : Object) (l : Launch) : Prop where
  permitted : ∃ perm, getUserPermission env.config event = .ok perm ∧
    (env.services l.service).usePermission ≤ perm
  enabled : IsGroup event → ∃ groupId, (member event "group_id").getUInt64 = .ok groupId ∧
    (env.services l.service).groupStatus groupId = true
  toMe : IsGroup event → (env.services l.service).onlyToMe = true →
    l.event.contains "__to_me__" = true

def Addressed (env : Environment) (event : Object) : Prop :=
  event.contains "__to_me__" = true ∨
    ∃ msg, event.find "message" = some (.string msg) ∧ SpeaksTo env event msg

/-- A group message that is not for the bot, and a service only for such
messages among those that listen to the text. -/
def Exposed (h : EventHandler) (env : Environment) (event : Object) : Prop :=
  IsGroup event ∧ filter event = .ok true ∧ ¬ Addressed env event ∧
    ∃ msg perm groupId p, event.find "message" = some (.string msg) ∧
      getUserPermission env.config event = .ok perm ∧
      (member event "group_id").getUInt64 = .ok groupId ∧
      Listening h env msg p ∧ groupGuard groupId perm (env.services p) = true ∧
      (env.services p).onlyToMe = true

theorem groupGuard_iff {groupId : GId} {perm : Int} {service : TriggeredService} :
    groupGuard groupId perm service = true ↔
      service.groupStatus groupId = true ∧ service.usePermission ≤ perm := by
  simp [groupGuard, TriggeredService.checkIsEnable, TriggeredService.checkPerm, Service.groupStatus]

theorem contains_marked {event logged marked : Object} {launches : List Launch}
    {msg messageType message : Bytes} {perm : Int}
    (hd : Dispatched h env event launches msg messageType perm logged marked message) :
    marked.contains "__to_me__" = true ↔ Addressed env event := by
  have hself : logged.find "self_id" = event.find "self_id" := find_logMessage hd.log (by decide)
  have hlogged : logged.contains "__to_me__" = event.contains "__to_me__" :=
    contains_congr (find_logMessage hd.log (by decide))
  have hunique : ∀ m, event.find "message" = some (.string m) → m = msg := by
    intro m hm
    rw [hd.text, Option.some.injEq, Json.string.injEq] at hm
    exact hm.symm
  rcases prePropose_eq_ok hd.propose with ⟨hs, rfl⟩ | ⟨hs, rfl, rfl⟩
  · rw [speaksTo_congr hself] at hs
    simp only [contains_markToMe, true_iff]
    exact .inr ⟨msg, hd.text, hs⟩
  · rw [hlogged]
    constructor
    · exact .inl
    · rintro (hm | ⟨m, hm, hspeaks⟩)
      · exact hm
      · rw [hunique m hm, ← speaksTo_congr hself] at hspeaks
        exact absurd hspeaks hs

theorem message_of_not_addressed {event logged marked : Object} {launches : List Launch}
    {msg messageType message : Bytes} {perm : Int}
    (hd : Dispatched h env event launches msg messageType perm logged marked message)
    (hn : ¬ Addressed env event) : message = msg := by
  have hself : logged.find "self_id" = event.find "self_id" := find_logMessage hd.log (by decide)
  rcases prePropose_eq_ok hd.propose with ⟨hs, _⟩ | ⟨_, _, hm⟩
  · rw [speaksTo_congr hself] at hs
    exact absurd (.inr ⟨msg, hd.text, hs⟩) hn
  · exact hm

theorem mem_dispatchGroup {groupId : GId} {perm : Int} {message : Bytes} {event : Object} {l : Launch}
    (hl : l ∈ dispatchGroup h env groupId perm message event) :
    groupGuard groupId perm (env.services l.service) = true ∧
      (l.event.contains "__to_me__" = event.contains "__to_me__") ∧
      ((env.services l.service).checkToMe (l.event.contains "__to_me__") = true ∨
        Listening h env message l.service) := by
  have hfront : (afterPrefix h message event).contains "__to_me__" = event.contains "__to_me__" :=
    contains_congr (find_afterPrefix message event (by decide))
  have hback : (afterSuffix h message event).contains "__to_me__" = event.contains "__to_me__" :=
    contains_congr (find_afterSuffix message event (by decide))
  rw [dispatchGroup, mem_dispatch] at hl
  simp only [Bool.and_eq_true] at hl
  rcases hl with ⟨p, _, hg, rfl⟩ | ⟨p, _, hg, rfl⟩ | ⟨p, _, hg, rfl⟩ | ⟨m, hm, hc, hg, rfl⟩ |
      ⟨p, hp, hg, rfl⟩
  · exact ⟨hg.1, rfl, .inl hg.2⟩
  · exact ⟨hg.1, hfront, .inl hg.2⟩
  · exact ⟨hg.1, hback, .inl hg.2⟩
  · exact ⟨hg, hback, .inr (.inl ⟨m, hm, hc, rfl⟩)⟩
  · exact ⟨hg, hback, .inr (.inr hp)⟩

theorem launch_of_listening {groupId : GId} {perm : Int} {message : Bytes} (event : Object)
    {p : ServicePtr} (hp : Listening h env message p)
    (hg : groupGuard groupId perm (env.services p) = true) :
    ∃ l ∈ dispatchGroup h env groupId perm message event, l.service = p ∧
      l.event.contains "__to_me__" = event.contains "__to_me__" := by
  have hback : (afterSuffix h message event).contains "__to_me__" = event.contains "__to_me__" :=
    contains_congr (find_afterSuffix message event (by decide))
  rcases hp with ⟨m, hm, hc, rfl⟩ | hp
  · refine ⟨⟨.regex, m.service, afterSuffix h message event⟩, ?_, rfl, hback⟩
    rw [dispatchGroup, mem_dispatch]
    exact .inr (.inr (.inr (.inl ⟨m, hm, hc, hg, rfl⟩)))
  · refine ⟨⟨.allMsg, p, afterSuffix h message event⟩, ?_, rfl, hback⟩
    rw [dispatchGroup, mem_dispatch]
    exact .inr (.inr (.inr (.inr ⟨p, hp, hg, rfl⟩)))

theorem mem_dispatchPrivate {perm : Int} {message : Bytes} {event : Object} {l : Launch}
    (hl : l ∈ dispatchPrivate h env perm message event) :
    (env.services l.service).usePermission ≤ perm := by
  rw [dispatchPrivate, mem_dispatch] at hl
  simp only [TriggeredService.checkPerm, decide_eq_true_eq] at hl
  rcases hl with ⟨p, _, hg, rfl⟩ | ⟨p, _, hg, rfl⟩ | ⟨p, _, hg, rfl⟩ | ⟨m, _, _, hg, rfl⟩ |
      ⟨p, _, hg, rfl⟩ <;>
    exact hg

/-- The guards hold for every launch, unless a service that is only for
messages to the bot listens to one that is not. -/
theorem authorised_iff {event : Object} {b : Bool} {launches : List Launch} (hm : IsMessage event)
    (hh : handle h env event = .ok (b, launches)) :
    (∀ l ∈ launches, Authorised env event l) ↔ ¬ Exposed h env event := by
  rcases handle_message hm hh with ⟨hf, rfl⟩ | ⟨hf, hh⟩
  · simp [Exposed, hf]
  obtain ⟨msg, messageType, perm, logged, marked, message, hd⟩ := handleMessage_eq_ok hh
  rcases hd.cases_type with ⟨hg, groupId, hgroup, hl⟩ | ⟨hp, hl⟩ | ⟨hg, hp, hl⟩
  · constructor
    · rintro hall ⟨_, _, hn, m, perm', groupId', p, hmsg, hperm, hgroup', hlisten, hguard, honly⟩
      rw [hd.text, Option.some.injEq, Json.string.injEq] at hmsg
      rw [hd.rank] at hperm
      rw [hgroup] at hgroup'
      cases hperm
      cases hgroup'
      rw [← hmsg, ← message_of_not_addressed hd hn] at hlisten
      obtain ⟨l, hmem, rfl, hc⟩ := launch_of_listening marked hlisten hguard
      have htoMe := (hall l (hl ▸ hmem)).toMe ⟨messageType, hd.chat, hg⟩ honly
      rw [hc, contains_marked hd] at htoMe
      exact hn htoMe
    · intro hn l hmem
      rw [hl] at hmem
      obtain ⟨hguard, hc, hcase⟩ := mem_dispatchGroup hmem
      have hg' := groupGuard_iff.mp hguard
      refine ⟨⟨perm, hd.rank, hg'.2⟩, fun _ => ⟨groupId, hgroup, hg'.1⟩, fun hgr honly => ?_⟩
      rcases hcase with htoMe | hlisten
      · simpa [TriggeredService.checkToMe, honly] using htoMe
      · rw [hc, contains_marked hd]
        by_contra hna
        rw [message_of_not_addressed hd hna] at hlisten
        exact hn ⟨hgr, hf, hna, msg, perm, groupId, l.service, hd.text, hd.rank, hgroup, hlisten,
          hguard, honly⟩
  · have hng : ¬ IsGroup event := by
      intro hgr
      rw [hd.isGroup_iff.mp hgr] at hp
      exact absurd hp (by decide)
    refine ⟨fun _ hex => hng hex.1, fun _ l hmem => ?_⟩
    rw [hl] at hmem
    exact ⟨⟨perm, hd.rank, mem_dispatchPrivate hmem⟩, fun hgr => absurd hgr hng,
      fun hgr => absurd hgr hng⟩
  · refine ⟨fun _ hex => hg (hd.isGroup_iff.mp hex.1), fun _ l hmem => ?_⟩
    rw [hl] at hmem
    cases hmem

def groupMessage : Object :=
  [("post_type", .string (bytes "message")), ("message_type", .string (bytes "group")),
    ("group_id", .numberUnsigned 5), ("user_id", .numberUnsigned 7), ("self_id", .numberUnsigned 1),
    ("message", .string (bytes "echo")), ("sender", .object [])]

theorem isMessage_groupMessage : IsMessage groupMessage := ⟨bytes "message", rfl, rfl⟩

def onlyToMe : Environment where
  services _ := ⟨⟨groupAdmin, true, [], [], .null⟩, normal, true⟩
  config := ⟨[], [], bytes "MigangBot"⟩
  reMatch pattern message := pattern == message

theorem authorised_iff_groupMessage :
    ∃ launches, handle (registered [.regex [bytes "echo"] 0]) onlyToMe groupMessage = .ok (true, launches) ∧
      ((∀ l ∈ launches, Authorised onlyToMe groupMessage l) ↔
        ¬ Exposed (registered [.regex [bytes "echo"] 0]) onlyToMe groupMessage) :=
  ⟨_, rfl, authorised_iff isMessage_groupMessage rfl⟩

theorem listener_not_authorised :
    ¬ ∀ regs env event b launches, IsMessage event →
      handle (registered regs) env event = .ok (b, launches) →
        ∀ l ∈ launches, Authorised env event l := by
  intro hall
  have hh : handle (registered [.regex [bytes "echo"] 0]) onlyToMe groupMessage =
      .ok (true, [⟨.regex, 0, _⟩]) := rfl
  have ha := hall _ _ _ _ _ isMessage_groupMessage hh _ (List.mem_singleton.mpr rfl)
  have htoMe := ha.toMe ⟨bytes "group", rfl, rfl⟩ rfl
  exact absurd htoMe (by decide)

end MigangBot.DispatchAuthorisation
