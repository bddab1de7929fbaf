import MigangBot.CityLists
import MigangBot.Mentions

namespace MigangBot.CityChoice

open Lib.Exceptions Lib.Maps Lib.Runs Text JsonValue ApiTypes ApiCalls Digits BotManagement Feedback CityLists

variable {ι : Type}

/-- Someone in a group, or in a private chat. -/
structure Chat where
  group : Option GId
  user : QId
  deriving DecidableEq

def Chat.key (chat : Chat) : Bytes :=
  match chat.group with
  | some groupId => decimal groupId ++ char '-' :: decimal chat.user
  | none => decimal chat.user

def chatOf (event : Object) : Outcome Chat := do
  if event.contains "group_id" then
    let groupId ← (← event.constIndex "group_id").getUInt64
    let userId ← (← event.constIndex "user_id").getUInt64
    return ⟨some groupId, userId⟩
  else return ⟨none, ← (← event.constIndex "user_id").getUInt64⟩

section Keys

theorem keyOf_eq (event : Object) : keyOf event = Chat.key <$> chatOf event := by
  rw [keyOf, chatOf]
  split
  next =>
    simp only [map_bind, map_pure]
    rfl
  next =>
    simp only [map_bind, map_pure]
    rfl

theorem dash_notMem_decimal (n : UInt64) : char '-' ∉ decimal n := by
  intro h
  have := (Mentions.digits_decimal n _ h).1
  revert this
  decide

theorem dash_mem_key (groupId : GId) (user : QId) : char '-' ∈ Chat.key ⟨some groupId, user⟩ :=
  List.mem_append_right _ List.mem_cons_self

/-- No two chats share a key: a number is never read into the one beside it. -/
theorem Chat.key_inj {chat chat' : Chat} : chat.key = chat'.key ↔ chat = chat' := by
  constructor
  · intro h
    obtain ⟨group, user⟩ := chat
    obtain ⟨group', user'⟩ := chat'
    cases group with
    | none =>
        cases group' with
        | none => exact congrArg (Chat.mk none) (decimal_inj.mp h)
        | some groupId' =>
            have hdash := dash_mem_key groupId' user'
            rw [← h] at hdash
            exact absurd hdash (dash_notMem_decimal user)
    | some groupId =>
        cases group' with
        | none =>
            have hdash := dash_mem_key groupId user
            rw [h] at hdash
            exact absurd hdash (dash_notMem_decimal user')
        | some groupId' =>
            have hparts := (List.append_cons_inj_of_notMem (dash_notMem_decimal groupId)
              (dash_notMem_decimal user)).mp h
            rw [decimal_inj.mp hparts.1, decimal_inj.mp hparts.2.2]
  · rintro rfl
    rfl

end Keys

section History

/-- The key under which a statement erases or displays. -/
def keyed : Statement ι → Option Bytes
  | .erase _ key => some key
  | .display _ key _ => some key
  | .answer _ => none
  | .leave _ => none

def ofChat (chat : Chat) (past : List (Statement ι)) : List (Statement ι) :=
  past.filter fun a => keyed a = some chat.key

/-- The cities shown since the last search, in the order they were shown. -/
def shown (past : List (Statement ι)) : List LocationInfo :=
  past.foldl (fun cities a => match a with
    | .erase .. => []
    | .display _ _ locations => cities ++ locations
    | _ => cities) []

variable {past : List (Statement ι)} {chat : Chat} {i : ι}

theorem ofChat_snoc (a : Statement ι) : ofChat chat (past ++ [a]) =
    if keyed a = some chat.key then ofChat chat past ++ [a] else ofChat chat past := by
  rw [ofChat, List.filter_append, List.filter_singleton, Bool.cond_decide]
  split
  next => rfl
  next => exact List.append_nil _

theorem shown_erase (key : Bytes) : shown (past ++ [.erase i key]) = [] := by
  rw [shown, List.foldl_append, List.foldl_cons, List.foldl_nil]

theorem shown_display (key : Bytes) (locations : List LocationInfo) :
    shown (past ++ [.display i key locations]) = shown past ++ locations := by
  rw [shown, List.foldl_append, List.foldl_cons, List.foldl_nil]
  rfl

theorem flatten_sinceErase (chat : Chat) (past : List (Statement ι)) :
    (sinceErase chat.key past).flatten = shown (ofChat chat past) := by
  induction past using List.reverseRecOn with
  | nil => rfl
  | append_singleton past a ih =>
      rw [ofChat_snoc]
      cases a with
      | erase i key =>
          rw [sinceErase_erase, keyed]
          simp only [Option.some_inj]
          split
          next => rw [shown_erase, List.flatten_nil]
          next => exact ih
      | display i key locations =>
          rw [sinceErase_display, keyed]
          simp only [Option.some_inj]
          split
          next => rw [shown_display, List.flatten_append, List.flatten_singleton, ih]
          next => exact ih
      | answer i =>
          rw [silent_answer.sinceErase, keyed, if_neg nofun]
          exact ih
      | leave i =>
          rw [silent_leave.sinceErase, keyed, if_neg nofun]
          exact ih

theorem lookup_shown {s : State ι} (h : Inv past s) (chat : Chat) : s.lists.lookup chat.key =
    if shown (ofChat chat past) = [] then none else some (shown (ofChat chat past)) := by
  rw [h.lists, ← flatten_sinceErase, stored]
  cases hsince : sinceErase chat.key past with
  | nil => rfl
  | cons locations rest =>
      have hne := h.nonempty chat.key locations (by rw [hsince]; exact List.mem_cons_self)
      rw [if_neg (List.cons_ne_nil _ _), if_neg]
      rw [List.flatten_cons]
      exact List.append_ne_nil_of_left_ne_nil hne _

end History

section Chats

def InSomeChat : Progress → Prop
  | .waiting _ key => ∃ chat : Chat, chat.key = key
  | .asking _ key _ => ∃ chat : Chat, chat.key = key
  | _ => True

/-- Nothing is erased or displayed but under the key of a chat. -/
structure OfChats (past : List (Statement ι)) (s : State ι) : Prop where
  runs : ∀ i, InSomeChat (s.runs i)
  past : ∀ a ∈ past, ∀ key, keyed a = some key → ∃ chat : Chat, chat.key = key

variable {timeText : Int64 → Bytes} {textToImg : Bytes → Bytes} {past : List (Statement ι)} {s t : State ι}
  {a : Statement ι}

theorem chat_of_keyOf {event : Object} {key : Bytes} (h : keyOf event = .ok key) : ∃ chat : Chat, chat.key = key := by
  rw [keyOf_eq] at h
  cases hchat : chatOf event with
  | error e =>
      rw [hchat] at h
      cases h
  | ok chat =>
      rw [hchat] at h
      exact ⟨chat, Except.ok.inj h⟩

theorem ofChats_start : OfChats [] (State.start : State ι) := by
  constructor
  · intro i
    trivial
  · intro a ha
    cases ha

variable [DecidableEq ι]

theorem OfChats.store (h : OfChats past s) (lists : Lists) (i : ι) {p : Progress} (hp : InSomeChat p)
    (ha : ∀ key, keyed a = some key → ∃ chat : Chat, chat.key = key) :
    OfChats (past ++ [a]) (s.store lists i p) := by
  constructor
  · exact (Function.forall_update_iff s.runs fun _ => InSomeChat).mpr ⟨hp, fun j _ => h.runs j⟩
  · intro b hb
    rcases List.mem_append.mp hb with hb | hb
    · exact h.past b hb
    · rw [List.mem_singleton.mp hb]
      exact ha

theorem ofChats_step (h : OfChats past s) (hstep : Step timeText textToImg s a t) : OfChats (past ++ [a]) t := by
  cases hstep with
  | fail => exact h.store _ _ trivial nofun
  | @start i event key cityName hi ha hkey ho =>
      have hchat := chat_of_keyOf hkey
      refine h.store _ _ ?_ ?_
      · split
        next => exact hchat
        next => exact hchat
      · rintro _ ⟨⟩
        exact hchat
  | @answer i event key cityName hi hne =>
      have hrun := h.runs i
      rw [hi] at hrun
      exact h.store _ _ hrun nofun
  | dismiss => exact h.store _ _ trivial nofun
  | leave => exact h.store _ _ trivial nofun
  | throw => exact h.store _ _ trivial nofun
  | @display i event key cityName data date getLocationName call locations hi hl hsearch =>
      have hrun := h.runs i
      rw [hi] at hrun
      refine h.store _ _ trivial ?_
      rintro _ ⟨⟩
      exact hrun

theorem ofChats_run {as : List (Statement ι)} (h : Run (Step timeText textToImg) State.start as s) : OfChats as s :=
  h.history_invariant OfChats (fun _ _ _ _ hinv hstep => ofChats_step hinv hstep) [] ofChats_start

end Chats

section Answers

def chosen (text : Bytes) (first : LocationInfo) (cities : List LocationInfo) : Outcome LocationInfo :=
  if text ≠ [] ∧ isDigitStr text then
    if digitsValue text < 2 ^ 31 then .ok ((cities[digitsValue text]?).getD first) else throwing .outOfRange
  else .ok first

/-- What a command comes to when some cities were shown. -/
def answerTo (query : Query) (event : Object) (text : Bytes) : List LocationInfo → Outcome Answer
  | [] => .ok (.told (answerOf event (bytes "请先发送“搜天气 城市”来选择地区哟") true))
  | first :: rest => do return .asked query (← chosen text first (first :: rest)).id

structure Answered (lists : Lists) (event : Object) (text : Bytes) (cities : List LocationInfo) : Prop where
  realTime : realTimeWeather lists event = answerTo .now event text cities
  today : todayWeather lists event = answerTo .forcast event text cities
  shortDesc : weatherShortDesc lists event = answerTo .forcast event text cities

theorem locationIdx_eq (text : Bytes) (size : Nat) : locationIdx text size =
    if text ≠ [] ∧ isDigitStr text then
      if digitsValue text < 2 ^ 31 then .ok (if size ≤ digitsValue text then 0 else digitsValue text)
      else throwing .outOfRange
    else .ok 0 := by
  rw [locationIdx, stoi]
  by_cases h : text ≠ [] ∧ isDigitStr text = true
  · rw [if_pos h, if_pos h]
    split
    next => rfl
    next => rfl
  · rw [if_neg h, if_neg h]
    exact congrArg Except.ok (ite_self _)

theorem located_shown {lists : Lists} {event : Object} {chat : Chat} {text : Bytes} {cities : List LocationInfo}
    (hlists : lists.lookup chat.key = if cities = [] then none else some cities) (ha : Answerable event)
    (hchat : chatOf event = .ok chat) (ho : optionOf event = .ok text) (query : Query) :
    located query lists event = answerTo query event text cities := by
  have hkey : keyOf event = .ok chat.key := by
    rw [keyOf_eq, hchat]
    rfl
  rw [located, hkey, ok_bind, hlists]
  cases cities with
  | nil =>
      rw [if_pos rfl]
      simp only [send_eq ha, ok_bind]
      rfl
  | cons first rest =>
      rw [if_neg (List.cons_ne_nil _ _)]
      simp only [ho, ok_bind, locationIdx_eq, answerTo, chosen]
      split
      next h =>
        split
        next =>
          by_cases hsize : (first :: rest).length ≤ digitsValue text
          · rw [if_pos hsize, ok_bind, List.getElem?_eq_none hsize]
            rfl
          · rw [if_neg hsize, ok_bind, List.getElem?_eq_getElem (Nat.lt_of_not_le hsize)]
            rfl
        next => rfl
      next => rfl

theorem answered_of_shown {lists : Lists} {event : Object} {chat : Chat} {text : Bytes} {cities : List LocationInfo}
    (hlists : lists.lookup chat.key = if cities = [] then none else some cities) (ha : Answerable event)
    (hchat : chatOf event = .ok chat) (ho : optionOf event = .ok text) : Answered lists event text cities where
  realTime := located_shown hlists ha hchat ho .now
  today := located_shown hlists ha hchat ho .forcast
  shortDesc := located_shown hlists ha hchat ho .forcast

end Answers

section Result

variable {timeText : Int64 → Bytes} {textToImg : Bytes → Bytes}

/-- Every statement of a run belongs to one chat, and a command goes by those of its
own chat alone: by the cities shown there since the last search, in whatever order
the searches of all chats went on. -/
theorem answered_by_own_chat [DecidableEq ι] {as : List (Statement ι)} {s : State ι}
    (h : Run (Step timeText textToImg) State.start as s) {event : Object} (ha : Answerable event) {chat : Chat}
    (hchat : chatOf event = .ok chat) {text : Bytes} (ho : optionOf event = .ok text) :
    (∀ a ∈ as, ∀ key, keyed a = some key → ∃! chat : Chat, chat.key = key) ∧
      Answered s.lists event text (shown (ofChat chat as)) := by
  constructor
  · intro a hmem key hkey
    obtain ⟨own, hown⟩ := (ofChats_run h).past a hmem key hkey
    refine ⟨own, hown, ?_⟩
    intro other hother
    exact Chat.key_inj.mp (hother.trans hown.symm)
  · exact answered_of_shown (lookup_shown (inv_run h) chat) ha hchat ho

/-- The typist of the private chat in a group. -/
def inGroup (text : String) : Object :=
  [("post_type", .string (bytes "message")), ("message_type", .string (bytes "group")),
    ("group_id", .numberUnsigned 20002), ("user_id", .numberUnsigned 10001),
    ("message", .string (bytes "查天气" ++ bytes text)), ("__command_size__", .numberUnsigned 9)]

theorem answerable_inGroup (text : String) : Answerable (inGroup text) where
  chat := ⟨_, rfl, ⟨_, rfl⟩, by rintro _ ⟨⟩⟩
  user := ⟨_, rfl, rfl, by rintro _ ⟨⟩⟩
  group := fun _ => ⟨_, rfl, rfl, by rintro _ ⟨⟩⟩

theorem chatOf_typing (text : String) : chatOf (typing text) = .ok ⟨none, 10001⟩ := rfl

def groupTypist : Chat := ⟨some 20002, 10001⟩

theorem chatOf_inGroup (text : String) : chatOf (inGroup text) = .ok groupTypist := rfl

theorem keyOf_inGroup (text : String) : keyOf (inGroup text) = .ok groupTypist.key := by
  rw [keyOf_eq, chatOf_inGroup]
  rfl

def searched : List (Statement Nat) :=
  [.erase 0 typist, .erase 1 groupTypist.key, .display 1 groupTypist.key [shanghai], .display 0 typist [beijing]]

theorem run_searched : ∃ s, Run (Step noTime picture) State.start searched s := by
  have hgroup : ∀ s : State Nat, s.runs 1 = .idle → Step noTime picture s (.erase 1 groupTypist.key)
      (s.store (s.lists.erase groupTypist.key) 1 (.asking (inGroup "上海") groupTypist.key (bytes "上海"))) := by
    intro s hi
    have hstep := @Step.start Nat noTime picture _ s 1 _ groupTypist.key (bytes "上海") hi
      (answerable_inGroup "上海") (keyOf_inGroup "上海") (by decide)
    rwa [if_neg (by decide)] at hstep
  have hshown := search_found (answerable_inGroup "上海") (bytes "上海") (List.cons_ne_nil shanghai [])
  exact ⟨_, .cons (step_search rfl "北京" (by decide) (by decide)) (.cons (hgroup _ rfl)
    (.cons (.display rfl (List.cons_ne_nil _ _) hshown) (.cons (@step_found _ 0 "北京" rfl beijing) (.nil _))))⟩

theorem answered_by_own_chat_both : ∃ s, Run (Step noTime picture) State.start searched s ∧
    Answered s.lists (inGroup "0") (bytes "0") [shanghai] ∧ Answered s.lists (typing "7") (bytes "7") [beijing] := by
  obtain ⟨s, hrun⟩ := run_searched
  exact ⟨s, hrun,
    (answered_by_own_chat hrun (answerable_inGroup "0") (chatOf_inGroup "0") (by decide)).2,
    (answered_by_own_chat hrun (answerable_typing "7") (chatOf_typing "7") (by decide)).2⟩

end Result

end MigangBot.CityChoice
