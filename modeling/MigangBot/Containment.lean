import MigangBot.BotProcess
import MigangBot.WellFormedEvents

namespace MigangBot.Containment

open Lib.Exceptions Lib.Runs Text JsonValue ApiTypes EventHandling MessageViews WaiterDelivery JsonReads
  WellFormedEvents BotProcess

/-- A pending call makes something of the data, if only an exception. -/
def CallbackOk (c : EchoCorrelation.Call) (data : Json) : Prop :=
  c.alive = true → data.isNull = false → DecodableAs data c.type

def echoOf (event : Object) : Int64 := asInt64 (member event "echo")

@[mk_iff] structure ResponseOk (s : EchoCorrelation.Registry) (event : Object) : Prop where
  echo : HasIfAny .int64 event "echo"
  data : ∀ i, s.callbacks.lookup (echoOf event) = some i → ∃ data, event.find "data" = some data ∧
    ∀ c, s.calls[i]? = some c → CallbackOk c data

def Needed (s : Waiters.Registry) (event : Object) : Prop :=
  s.isNeedMessage (groupOf event) (userOf event) = true ∨ s.isSomeOneNeedMessage (userOf event) = true

@[mk_iff] structure FeedOk (s : Waiters.Registry) (event : Object) : Prop where
  user : Has .uint64 event "user_id"
  group : HasIfAny .uint64 event "group_id"
  text : Needed s event → Has .string event "message"

variable (h : EventHandler) (env : Environment) (parse : Bytes → Except Nat Json)

/-- The objects that the bot comes through: every field that is read on their
way is there and of its type. -/
def WellFormed (s : Bot) (event : Object) : Prop :=
  if event.contains "retcode" then ResponseOk s.echo event
  else (event.contains "message" = true → FeedOk s.waiters event) ∧ HandleOk h env event

/-- Process returns, and where something was thrown on the way the registries
are what they were. -/
def Contained (s : Bot) (message : Bytes) : Prop :=
  ∃ t, s.process h env parse message = .ok t ∧
    ∀ e, s.attempt h env parse message = throwing e → t = s

def Step (s : Bot) (a : BotProcess.Action) (t : Bot) : Prop :=
  BotProcess.step h env parse s a = .ok t

variable {h env parse}

theorem returns_echoFunction {c : EchoCorrelation.Call} {data : Json} :
    Returns (c.echoFunction data) ↔ CallbackOk c data := by
  rw [EchoCorrelation.Call.echoFunction, CallbackOk]
  cases c.alive with
  | false => simp
  | true =>
      cases data.isNull with
      | true => simp
      | false => simp [returns_catching, catchable_desiredValue]

theorem returns_echoCode {event : Object} {α : Type} {f : Int64 → Outcome α} :
    Returns (echoCode event >>= f) ↔ HasIfAny .int64 event "echo" ∧ Returns (f (echoOf event)) := by
  rw [echoCode, hasIfAny_iff, echoOf]
  by_cases hc : event.contains "echo" = true
  · simp [hc, returns_constIndex getter_getInt64]
  · have hf : event.find "echo" = none := by simpa [Object.contains] using hc
    simp [hc, member_eq, hf, asInt64]

def groupIdOf (event : Object) : Option GId := (event.find "group_id").map asUInt64

theorem getD_groupIdOf (event : Object) : (groupIdOf event).getD 0 = groupOf event := by
  rw [groupIdOf, groupOf, member_eq]
  cases event.find "group_id" <;> rfl

theorem returns_optionalGroup {event : Object} {α : Type} {f : Option GId → Outcome α} :
    Returns (optionalGroup event >>= f) ↔
      HasIfAny .uint64 event "group_id" ∧ Returns (f (groupIdOf event)) := by
  rw [optionalGroup, hasIfAny_iff, groupIdOf]
  cases hf : event.find "group_id" with
  | none => simp [Object.contains, hf]
  | some v =>
      have hc : event.contains "group_id" = true := (Object.contains_iff _ _).mpr ⟨v, hf⟩
      simp only [hc, if_true, bind_assoc, pure_bind, returns_constIndex getter_getUInt64, true_implies,
        member_eq, hf, Option.getD_some, Option.map_some]

theorem returns_response {s : EchoCorrelation.Registry} {event : Object} :
    Returns (do
      let code ← echoCode event
      s.eventProcess code (event.constIndex "data")) ↔ ResponseOk s event := by
  have hprocess : Returns (s.eventProcess (echoOf event) (event.constIndex "data")) ↔
      ∀ i, s.callbacks.lookup (echoOf event) = some i → ∃ data, event.find "data" = some data ∧
        ∀ c, s.calls[i]? = some c → CallbackOk c data := by
    rw [EchoCorrelation.Registry.eventProcess, Object.constIndex]
    cases s.callbacks.lookup (echoOf event) with
    | none => simp
    | some i =>
        cases event.find "data" with
        | none => simp
        | some data =>
            cases hc : s.calls[i]? with
            | none => simp [hc]
            | some c => simp [hc, returns_echoFunction]
  rw [returns_echoCode, hprocess, responseOk_iff]

theorem returns_feed {s : Waiters.Registry} (hs : Consistent s) (hn : NoEmptyGroup s) {u : QId}
    {g : Option GId} {message : Outcome Bytes} : Returns (s.feed u g message) ↔
      (s.isNeedMessage (g.getD 0) u = true ∨ s.isSomeOneNeedMessage u = true → Returns message) := by
  cases message with
  | ok m =>
      obtain ⟨t, ht, _⟩ := eventProcess_serves hs hn ⟨u, g, m⟩
      have hr : Returns (s.feed u g (.ok m)) := ⟨t, ht⟩
      simp [hr]
  | error e =>
      rw [Waiters.Registry.feed, Waiters.Registry.feedChat]
      cases s.isNeedMessage (g.getD 0) u with
      | true => simp
      | false =>
          cases hp : s.isSomeOneNeedMessage u <;> simp [Waiters.Registry.feedPerson, hp]

theorem ready_feed {s t : Waiters.Registry} (hs : Consistent s) (hn : NoEmptyGroup s) {u : QId}
    {g : Option GId} {message : Outcome Bytes} (ht : s.feed u g message = .ok t) :
    Consistent t ∧ NoEmptyGroup t := by
  cases message with
  | ok m =>
      obtain ⟨t', ht', _, hc, hg⟩ := eventProcess_serves hs hn ⟨u, g, m⟩
      rw [show s.feed u g (.ok m) = .ok t' from ht'] at ht
      cases ht
      exact ⟨hc, hg⟩
  | error e =>
      have hst : s = t := by
        rw [Waiters.Registry.feed, Waiters.Registry.feedChat] at ht
        cases hc : s.isNeedMessage (g.getD 0) u with
        | true => simp [hc] at ht
        | false =>
            cases hp : s.isSomeOneNeedMessage u with
            | true => simp [hc, hp, Waiters.Registry.feedPerson] at ht
            | false => simpa [hc, hp, Waiters.Registry.feedPerson] using ht
      exact hst ▸ ⟨hs, hn⟩

structure Ready (s : Bot) : Prop where
  consistent : Consistent s.waiters
  groups : NoEmptyGroup s.waiters

theorem ready_init : Ready .init := ⟨good_empty.consistent, good_empty.groups⟩

theorem eventProcess_eq_ok {s t : Bot} {event : Object} {needHandle : Bool}
    (hp : s.eventProcess event = .ok (t, needHandle)) : needHandle = !event.contains "retcode" := by
  rw [Bot.eventProcess, noexcept_eq_ok] at hp
  split at hp
  next hr =>
    simp only [bind_eq_ok] at hp
    obtain ⟨_, _, _, _, hp⟩ := hp
    cases hp
    simp [hr]
  next hr =>
    split at hp
    · simp only [bind_eq_ok] at hp
      obtain ⟨_, _, _, _, _, _, _, _, hp⟩ := hp
      cases hp
      simp [hr]
    · cases hp
      simp [hr]

theorem Ready.eventProcess {s t : Bot} (hs : Ready s) {event : Object} {needHandle : Bool}
    (hp : s.eventProcess event = .ok (t, needHandle)) : Ready t := by
  rw [Bot.eventProcess, noexcept_eq_ok] at hp
  split at hp
  · simp only [bind_eq_ok] at hp
    obtain ⟨_, _, _, _, hp⟩ := hp
    cases hp
    exact ⟨hs.consistent, hs.groups⟩
  · split at hp
    · simp only [bind_eq_ok] at hp
      obtain ⟨_, _, _, _, _, _, waiters, hw, hp⟩ := hp
      cases hp
      obtain ⟨hc, hg⟩ := ready_feed hs.consistent hs.groups hw
      exact ⟨hc, hg⟩
    · cases hp
      exact hs

theorem Ready.returns_eventProcess {s : Bot} (hs : Ready s) {event : Object} :
    Returns (s.eventProcess event) ↔ if event.contains "retcode" then ResponseOk s.echo event
      else (event.contains "message" = true → FeedOk s.waiters event) := by
  rw [Bot.eventProcess, returns_noexcept]
  split
  next hr =>
    rw [← returns_response]
    simp only [bind_pure_comp, ← map_bind, returns_map]
  next hr =>
    split
    next hm =>
      have hmessage : Returns (do (← event.constIndex "message").getString) ↔
          Has .string event "message" := returns_get getter_getString
      rw [returns_constIndex getter_getUInt64, returns_optionalGroup]
      simp only [bind_pure_comp, returns_map, returns_feed hs.consistent hs.groups, getD_groupIdOf,
        hmessage, hm, true_implies, feedOk_iff]
      rfl
    next hm => simp [hm]

theorem Ready.returns_dispatch {s : Bot} (hs : Ready s) {event : Object} :
    Returns (s.dispatch h env (.object event)) ↔ WellFormed h env s event := by
  rw [Bot.dispatch, WellFormed]
  have hprocess : Returns (s.eventProcess event) ↔ _ := hs.returns_eventProcess
  cases hr : event.contains "retcode" with
  | true =>
      simp only [hr, if_true] at hprocess ⊢
      rw [returns_bind_iff (p := True), hprocess, and_true]
      rintro ⟨t, needHandle⟩ ht
      simp [eventProcess_eq_ok ht, hr]
  | false =>
      simp only [hr, Bool.false_eq_true, if_false] at hprocess ⊢
      rw [returns_bind_iff (p := HandleOk h env event), hprocess]
      rintro ⟨t, needHandle⟩ ht
      simp [eventProcess_eq_ok ht, hr, returns_handleView]

/-- What Process tries throws nothing but the exceptions of the parser: the
functions it calls let none out. -/
theorem dispatch_ne_thrown (s : Bot) (msg : Json) (e : Exception) :
    s.dispatch h env msg ≠ throwing e := by
  cases msg with
  | object event =>
      rw [Bot.dispatch]
      cases hp : s.eventProcess event with
      | error f =>
          rintro ⟨⟩
          exact noexcept_ne_thrown _ _ hp
      | ok r =>
          obtain ⟨t, needHandle⟩ := r
          cases needHandle with
          | false => simp [throwing, pure, Except.pure]
          | true =>
              cases hh : handleView h env event with
              | error f =>
                  simp only [ok_bind, if_true, error_bind]
                  rintro ⟨⟩
                  exact noexcept_ne_thrown _ _ hh
              | ok r => simp [throwing, pure, Except.pure]
  | _ => simp [Bot.dispatch, throwing]

theorem process_of_dispatch {s : Bot} {message : Bytes} {msg : Json} (hp : parse message = .ok msg) :
    s.process h env parse message = noexcept (s.dispatch h env msg) := by
  rw [Bot.process, Bot.attempt, hp, catching_of_ne_thrown]
  exact dispatch_ne_thrown s msg

theorem process_of_parse_error {s : Bot} {message : Bytes} {id : Nat} (hp : parse message = .error id) :
    s.process h env parse message = .ok s := by
  simp [Bot.process, Bot.attempt, hp, catching, throwing, logged, noexcept]

theorem Ready.contained_object {s : Bot} (hs : Ready s) {message : Bytes} {event : Object}
    (hp : parse message = .ok (.object event)) :
    Contained h env parse s message ↔ WellFormed h env s event := by
  rw [← hs.returns_dispatch, Contained, process_of_dispatch hp]
  constructor
  · rintro ⟨t, ht, _⟩
    exact ⟨t, noexcept_eq_ok.mp ht⟩
  · rintro ⟨t, ht⟩
    refine ⟨t, noexcept_eq_ok.mpr ht, fun e he => ?_⟩
    rw [Bot.attempt, hp] at he
    exact absurd he (dispatch_ne_thrown s _ e)

theorem contained_of_not_object {s : Bot} {message : Bytes}
    (hp : ∀ event, parse message ≠ .ok (.object event)) : Contained h env parse s message := by
  cases hm : parse message with
  | error id => exact ⟨s, process_of_parse_error hm, fun _ _ => rfl⟩
  | ok msg =>
      cases msg with
      | object event => exact absurd hm (hp event)
      | _ => exact ⟨s, by rw [process_of_dispatch hm]; rfl, fun _ _ => rfl⟩

theorem Ready.process {s t : Bot} (hs : Ready s) {message : Bytes}
    (hp : s.process h env parse message = .ok t) : Ready t := by
  cases hm : parse message with
  | error id =>
      rw [process_of_parse_error hm] at hp
      cases hp
      exact hs
  | ok msg =>
      rw [process_of_dispatch hm, noexcept_eq_ok] at hp
      cases msg with
      | object event =>
          rw [Bot.dispatch, bind_eq_ok] at hp
          obtain ⟨⟨u, needHandle⟩, hu, hp⟩ := hp
          have hut : u = t := by
            cases needHandle with
            | false =>
                cases hp
                rfl
            | true =>
                simp only [if_true, bind_eq_ok] at hp
                obtain ⟨_, _, hp⟩ := hp
                cases hp
                rfl
          exact hut ▸ hs.eventProcess hu
      | _ =>
          cases hp
          exact hs

theorem Ready.step {s t : Bot} (hs : Ready s) {a : BotProcess.Action} (ha : Step h env parse s a t) :
    Ready t := by
  cases a with
  | call r type | abandonCall i =>
      cases ha
      exact ⟨hs.consistent, hs.groups⟩
  | waitForNextMessage g u =>
      cases ha
      exact ⟨consistent_waitForNextMessage hs.consistent g u, noEmptyGroup_waitForNextMessage hs.groups g u⟩
  | waitForNextMessageFrom u =>
      cases ha
      exact ⟨consistent_waitForNextMessageFrom hs.consistent u, hs.groups⟩
  | expire w =>
      cases ha
      exact ⟨consistent_expire hs.consistent w, hs.groups⟩
  | process message => exact hs.process ha

/-- After every history, exactly the texts that are no objects and the objects
that are well formed are contained. -/
theorem contained_iff_wellFormed {as : List BotProcess.Action} {s : Bot}
    (hrun : Run (Step h env parse) .init as s) (message : Bytes) :
    Contained h env parse s message ↔
      ∀ event, parse message = .ok (.object event) → WellFormed h env s event := by
  have hs : Ready s := hrun.invariant Ready (fun _ _ _ hr hstep => hr.step hstep) ready_init
  by_cases hp : ∃ event, parse message = .ok (.object event)
  · obtain ⟨event, hp⟩ := hp
    rw [hs.contained_object hp]
    constructor
    · intro hw event' hp'
      rw [hp] at hp'
      cases hp'
      exact hw
    · intro hw
      exact hw event hp
  · constructor
    · intro _ event hp'
      exact absurd ⟨event, hp'⟩ hp
    · intro _
      exact contained_of_not_object fun event hp' => hp ⟨event, hp'⟩

def parsing (text : Bytes) (event : Object) (message : Bytes) : Except Nat Json :=
  if message = text then .ok (.object event) else .error 101

def settings : Environment where
  services _ := ⟨⟨Permission.normal, true, [], [], .null⟩, Permission.normal, false⟩
  config := ⟨[], [], bytes "MigangBot"⟩
  reMatch pattern message := pattern == message

def heartbeatText : Bytes := bytes
  "\x7b\"meta_event_type\":\"heartbeat\",\"post_type\":\"meta_event\",\"self_id\":1,\"time\":2\x7d"

def heartbeat : Object :=
  [("meta_event_type", .string (bytes "heartbeat")), ("post_type", .string (bytes "meta_event")),
    ("self_id", .numberUnsigned 1), ("time", .numberUnsigned 2)]

theorem wellFormed_heartbeat (s : Bot) : WellFormed .empty settings s heartbeat := by
  have hstring : ∀ b, Kind.string.Reads (.string b) := fun b => ⟨⟨b, rfl⟩, by rintro _ ⟨⟩⟩
  have hself : Has .uint64 heartbeat "self_id" := ⟨_, rfl, rfl, by rintro _ ⟨⟩⟩
  have htime : Has .int64 heartbeat "time" := ⟨_, rfl, rfl, by rintro _ ⟨⟩⟩
  have hmeta : MetaEventOk heartbeat :=
    ⟨⟨_, rfl, hstring _⟩, fun hl => absurd hl (by decide), fun _ => ⟨hself, htime⟩⟩
  have hpost : PostTypeOk .empty settings heartbeat :=
    ⟨⟨_, rfl, hstring _⟩, by decide, fun hc => absurd hc (by decide), fun hc => absurd hc (by decide),
      fun hc => absurd hc (by decide), fun _ => hmeta⟩
  have hmissing : HasIfAny .string heartbeat "message_type" := by rintro _ ⟨⟩
  refine ⟨fun hc => absurd hc (by decide), fun _ => ⟨⟨hmissing, fun hp => absurd hp (by decide)⟩, ?_⟩⟩
  exact fun _ _ => hpost

theorem contained_heartbeat :
    Contained .empty settings (parsing heartbeatText heartbeat) .init heartbeatText := by
  apply (contained_iff_wellFormed (.nil _) heartbeatText).mpr
  intro event hp
  rw [parsing, if_pos rfl] at hp
  cases hp
  exact wellFormed_heartbeat .init

def pressureText : Bytes := bytes (
  "\x7b\"anonymous\":null,\"font\":0,\"group_id\":855134081," ++
  "\"message\":\"[CQ:at,qq=2418650100] /e asdasdad\",\"message_id\":-817611999," ++
  "\"message_seq\":177238,\"message_type\":\"group\",\"post_type\":\"message\"," ++
  "\"raw_message\":\"[CQ:at,qq=2418650100] /e asdasdad\",\"self_id\":2418650100," ++
  "\"sender\":null,\"sub_type\":\"normal\",\"time\":1650633329,\"user_id\":1214847481\x7d")

/-- The event of the pressure test, a group message whose sender is null. -/
def pressureEvent : Object :=
  [("anonymous", .null), ("font", .numberUnsigned 0), ("group_id", .numberUnsigned 855134081),
    ("message", .string (bytes "[CQ:at,qq=2418650100] /e asdasdad")),
    ("message_id", .numberInteger (-817611999)), ("message_seq", .numberUnsigned 177238),
    ("message_type", .string (bytes "group")), ("post_type", .string (bytes "message")),
    ("raw_message", .string (bytes "[CQ:at,qq=2418650100] /e asdasdad")),
    ("self_id", .numberUnsigned 2418650100), ("sender", .null), ("sub_type", .string (bytes "normal")),
    ("time", .numberUnsigned 1650633329), ("user_id", .numberUnsigned 1214847481)]

theorem pressureEvent_terminates :
    ¬ Contained .empty settings (parsing pressureText pressureEvent) .init pressureText := by
  rintro ⟨t, ht, _⟩
  rw [process_of_dispatch (if_pos rfl)] at ht
  have hd : Bot.init.dispatch .empty settings (.object pressureEvent) = .error .terminate := rfl
  rw [hd] at ht
  cases ht

end MigangBot.Containment
