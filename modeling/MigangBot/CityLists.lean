import MigangBot.Feedback
import MigangBot.Lib.Runs
import MigangBot.WeatherForecast
import MigangBot.WeiboPush

namespace MigangBot.CityLists

open Lib.Exceptions Lib.Maps Lib.Runs Text JsonValue ApiTypes ApiCalls Digits BotManagement Feedback
open WeatherForecast (getEorzeanWeather)
open WeiboPush (image)

structure LocationInfo where
  id : Bytes
  name : Bytes
  country : Bytes
  adm1 : Bytes
  adm2 : Bytes
  deriving DecidableEq

/-- gid_uid_locationid_. -/
abbrev Lists := FiniteMap Bytes (List LocationInfo)

section Code

def keyOf (event : Object) : Outcome Bytes := do
  if event.contains "group_id" then
    let groupId ← (← event.constIndex "group_id").getUInt64
    let userId ← (← event.constIndex "user_id").getUInt64
    return decimal groupId ++ (bytes "-" ++ decimal userId)
  else return decimal (← (← event.constIndex "user_id").getUInt64)

def cityLine (i : Nat) (location : LocationInfo) : Bytes :=
  bytes "\n" ++ (decimal (UInt64.ofNat i) ++ (bytes "." ++ (location.country ++ (bytes " - " ++ (location.adm1 ++
    (bytes " - " ++ (location.adm2 ++ (bytes " - " ++ location.name))))))))

def cityMessage (locations : List LocationInfo) : Bytes :=
  bytes "请选择想要查询的城市~" ++ ((locations.zipIdx.flatMap fun e => cityLine e.2 e.1) ++
    bytes "\n\n发送[实时天气 数字](例如 实时天气 0)可查看当前天气情况\n可以发送“天气帮助”获取使用说明哦~")

variable (timeText : Int64 → Bytes) (textToImg : Bytes → Bytes)

/-- SetLocation from the city's name on, at a time of the clock, with the cities
that it puts behind the stored ones. GetEorzeanWeather writes the name back. -/
def search (data : EorzeanWeather.Data) (date : Int64) (getLocationName : Bytes → Outcome (List LocationInfo))
    (event : Object) (cityName : Bytes) : Outcome (Json × List LocationInfo) := do
  let ret ← getEorzeanWeather timeText data date cityName
  let cityName := (data.alterNameIdx.lookup cityName).getD cityName
  if ret ≠ [] then return (← send event ret true, [])
  else
    let locationList ← getLocationName cityName
    if locationList = [] then
      return (← send event (bytes "未找到名为[" ++ (cityName ++ bytes "]的城市或网络异常")) false, [])
    else return (← send event (image (textToImg (cityMessage locationList))) true, locationList)

def appended (lists : Lists) (key : Bytes) (locationList : List LocationInfo) : Lists :=
  locationList.foldl (fun lists location => push lists key location) lists

/-- What is asked of the web for a city. -/
inductive Query
  | now
  | forcast
  deriving DecidableEq

inductive Answer
  | told (call : Json)
  | asked (query : Query) (locationId : Bytes)

/-- std::stoi of a text of digits that is not empty. -/
def stoi (str : Bytes) : Outcome Nat :=
  if digitsValue str < 2 ^ 31 then .ok (digitsValue str) else throwing .outOfRange

def locationIdx (str : Bytes) (size : Nat) : Outcome Nat := do
  let idx ← if str ≠ [] ∧ isDigitStr str then stoi str else pure 0
  return if size ≤ idx then 0 else idx

/-- The three commands up to the query that they make. -/
def located (query : Query) (lists : Lists) (event : Object) : Outcome Answer := do
  let key ← keyOf event
  match lists.lookup key with
  | none => return .told (← send event (bytes "请先发送“搜天气 城市”来选择地区哟") true)
  | some locations =>
      match locations[← locationIdx (← optionOf event) locations.length]? with
      | some location => return .asked query location.id
      | none => .error .undefined

def realTimeWeather : Lists → Object → Outcome Answer := located .now

def todayWeather : Lists → Object → Outcome Answer := located .forcast

def weatherShortDesc : Lists → Object → Outcome Answer := located .forcast

end Code

/-- How far a run of SetLocation has come. -/
inductive Progress
  | idle
  | waiting (event : Object) (key : Bytes)
  | asking (event : Object) (key cityName : Bytes)
  | displayed (key : Bytes) (locations : List LocationInfo) (call : Json)
  | left

inductive Statement (ι : Type)
  | erase (i : ι) (key : Bytes)
  | answer (i : ι)
  | leave (i : ι)
  | display (i : ι) (key : Bytes) (locations : List LocationInfo)

variable {ι : Type}

structure State (ι : Type) where
  lists : Lists
  runs : ι → Progress

namespace State

def start : State ι := ⟨∅, fun _ => .idle⟩

def store [DecidableEq ι] (s : State ι) (lists : Lists) (i : ι) (p : Progress) : State ι := ⟨lists, Function.update s.runs i p⟩

def setRun [DecidableEq ι] (s : State ι) (i : ι) (p : Progress) : State ι := s.store s.lists i p

end State

section Runs

variable (timeText : Int64 → Bytes) (textToImg : Bytes → Bytes)

/-- The runs of SetLocation, cut where they wait: for the next message, and for
the web. -/
inductive Step [DecidableEq ι] : State ι → Statement ι → State ι → Prop
  | fail {s : State ι} {i : ι} {event : Object} {e : Exception} :
      s.runs i = .idle → keyOf event = throwing e → Step s (.leave i) (s.setRun i .left)
  | start {s : State ι} {i : ι} {event : Object} {key cityName : Bytes} :
      s.runs i = .idle → Answerable event → keyOf event = .ok key → optionOf event = .ok cityName →
      Step s (.erase i key) (s.store (s.lists.erase key) i
        (if cityName = [] then .waiting event key else .asking event key cityName))
  | answer {s : State ι} {i : ι} {event : Object} {key cityName : Bytes} :
      s.runs i = .waiting event key → cityName ≠ [] → Step s (.answer i) (s.setRun i (.asking event key cityName))
  | dismiss {s : State ι} {i : ι} {event : Object} {key : Bytes} :
      s.runs i = .waiting event key → Step s (.leave i) (s.setRun i .left)
  | leave {s : State ι} {i : ι} {event : Object} {key cityName : Bytes} {data : EorzeanWeather.Data} {date : Int64}
      {getLocationName : Bytes → Outcome (List LocationInfo)} {call : Json} :
      s.runs i = .asking event key cityName →
      search timeText textToImg data date getLocationName event cityName = .ok (call, []) →
      Step s (.leave i) (s.setRun i .left)
  | throw {s : State ι} {i : ι} {event : Object} {key cityName : Bytes} {data : EorzeanWeather.Data} {date : Int64}
      {getLocationName : Bytes → Outcome (List LocationInfo)} {e : Exception} :
      s.runs i = .asking event key cityName →
      search timeText textToImg data date getLocationName event cityName = throwing e →
      Step s (.leave i) (s.setRun i .left)
  | display {s : State ι} {i : ι} {event : Object} {key cityName : Bytes} {data : EorzeanWeather.Data} {date : Int64}
      {getLocationName : Bytes → Outcome (List LocationInfo)} {call : Json} {locations : List LocationInfo} :
      s.runs i = .asking event key cityName → locations ≠ [] →
      search timeText textToImg data date getLocationName event cityName = .ok (call, locations) →
      Step s (.display i key locations) (s.store (appended s.lists key locations) i (.displayed key locations call))

/-- No run for the key is under way. -/
def Quiet (s : State ι) (key : Bytes) : Prop :=
  ∀ i event, s.runs i ≠ .waiting event key ∧ ∀ cityName, s.runs i ≠ .asking event key cityName

end Runs

section History

/-- The lists displayed under a key since it was erased last. -/
def sinceErase (key : Bytes) (past : List (Statement ι)) : List (List LocationInfo) :=
  past.foldl (fun lists a => match a with
    | .erase _ key' => if key' = key then [] else lists
    | .display _ key' locations => if key' = key then lists ++ [locations] else lists
    | _ => lists) []

def lastDisplayed (key : Bytes) (past : List (Statement ι)) : Option (List LocationInfo) :=
  past.foldl (fun last a => match a with
    | .display _ key' locations => if key' = key then some locations else last
    | _ => last) none

variable {key : Bytes} {past : List (Statement ι)} {i : ι}

theorem sinceErase_erase (key' : Bytes) : sinceErase key (past ++ [.erase i key']) =
    if key' = key then [] else sinceErase key past := by
  rw [sinceErase, List.foldl_append, List.foldl_cons, List.foldl_nil]
  rfl

theorem sinceErase_display (key' : Bytes) (locations : List LocationInfo) :
    sinceErase key (past ++ [.display i key' locations]) =
      if key' = key then sinceErase key past ++ [locations] else sinceErase key past := by
  rw [sinceErase, List.foldl_append, List.foldl_cons, List.foldl_nil]
  rfl

theorem lastDisplayed_display (key' : Bytes) (locations : List LocationInfo) :
    lastDisplayed key (past ++ [.display i key' locations]) =
      if key' = key then some locations else lastDisplayed key past := by
  rw [lastDisplayed, List.foldl_append, List.foldl_cons, List.foldl_nil]
  rfl

theorem lastDisplayed_erase (key' : Bytes) :
    lastDisplayed key (past ++ [.erase i key']) = lastDisplayed key past := by
  rw [lastDisplayed, List.foldl_append, List.foldl_cons, List.foldl_nil]
  rfl

/-- A statement that neither erases nor displays. -/
structure Silent (a : Statement ι) : Prop where
  sinceErase : ∀ key past, sinceErase key (past ++ [a]) = sinceErase key past
  lastDisplayed : ∀ key past, lastDisplayed key (past ++ [a]) = lastDisplayed key past

theorem silent_leave : Silent (.leave i : Statement ι) := by
  constructor
  · intro key past
    rw [sinceErase, List.foldl_append, List.foldl_cons, List.foldl_nil]
    rfl
  · intro key past
    rw [lastDisplayed, List.foldl_append, List.foldl_cons, List.foldl_nil]
    rfl

theorem silent_answer : Silent (.answer i : Statement ι) := by
  constructor
  · intro key past
    rw [sinceErase, List.foldl_append, List.foldl_cons, List.foldl_nil]
    rfl
  · intro key past
    rw [lastDisplayed, List.foldl_append, List.foldl_cons, List.foldl_nil]
    rfl

end History

section Invariant

variable {timeText : Int64 → Bytes} {textToImg : Bytes → Bytes}

/-- What a key holds when some lists were put behind each other. -/
def stored (lists : List (List LocationInfo)) : Option (List LocationInfo) :=
  if lists = [] then none else some lists.flatten

theorem lookup_appended {lists : Lists} {locations : List LocationInfo} (h : locations ≠ []) (key key' : Bytes) :
    (appended lists key locations).lookup key' =
      if key' = key then some ((lists.lookup key).getD [] ++ locations) else lists.lookup key' := by
  rw [appended, lookup_foldl_push]
  simp only [ne_eq, h, not_false_eq_true, and_true]

theorem stored_snoc (lists : List (List LocationInfo)) (locations : List LocationInfo) :
    stored (lists ++ [locations]) = some ((stored lists).getD [] ++ locations) := by
  rw [stored, if_neg (List.append_ne_nil_of_right_ne_nil _ (List.cons_ne_nil _ _)), stored]
  split
  next h => simp [h]
  next => simp

/-- A key holds the lists displayed since it was erased, one behind the other. -/
structure Inv (past : List (Statement ι)) (s : State ι) : Prop where
  lists : ∀ key, s.lists.lookup key = stored (sinceErase key past)
  nonempty : ∀ key, ∀ locations ∈ sinceErase key past, locations ≠ []
  last : ∀ key, sinceErase key past ≠ [] → (sinceErase key past).getLast? = lastDisplayed key past

variable {past : List (Statement ι)} {s t : State ι} {a : Statement ι}

theorem inv_start : Inv [] (State.start : State ι) := by
  refine ⟨fun _ => rfl, ?_, ?_⟩
  · intro key locations h
    cases h
  · intro key h
    exact absurd rfl h

variable [DecidableEq ι]

theorem Inv.silent (h : Inv past s) (ha : Silent a) (i : ι) (p : Progress) :
    Inv (past ++ [a]) (s.setRun i p) := by
  refine ⟨?_, ?_, ?_⟩
  · intro key
    rw [ha.sinceErase]
    exact h.lists key
  · intro key
    rw [ha.sinceErase]
    exact h.nonempty key
  · intro key
    rw [ha.sinceErase, ha.lastDisplayed]
    exact h.last key

theorem Inv.erase (h : Inv past s) (i : ι) (key : Bytes) (p : Progress) :
    Inv (past ++ [.erase i key]) (s.store (s.lists.erase key) i p) := by
  refine ⟨?_, ?_, ?_⟩
  · intro key'
    rw [State.store, lookup_erase_eq, sinceErase_erase]
    by_cases hk : key = key'
    · rw [if_pos hk.symm, if_pos hk]
      rfl
    · rw [if_neg (Ne.symm hk), if_neg hk]
      exact h.lists key'
  · intro key' locations hmem
    rw [sinceErase_erase] at hmem
    split at hmem
    · cases hmem
    · exact h.nonempty key' locations hmem
  · intro key' hne
    rw [sinceErase_erase] at hne ⊢
    rw [lastDisplayed_erase]
    split
    next hk => exact absurd (if_pos hk) hne
    next hk =>
      rw [if_neg hk] at hne
      exact h.last key' hne

theorem Inv.display (h : Inv past s) (i : ι) (key : Bytes) {locations : List LocationInfo} (hl : locations ≠ [])
    (p : Progress) : Inv (past ++ [.display i key locations]) (s.store (appended s.lists key locations) i p) := by
  refine ⟨?_, ?_, ?_⟩
  · intro key'
    rw [State.store, lookup_appended hl, sinceErase_display]
    by_cases hk : key = key'
    · subst hk
      rw [if_pos rfl, if_pos rfl, stored_snoc, h.lists]
    · rw [if_neg (Ne.symm hk), if_neg hk]
      exact h.lists key'
  · intro key' locations' hmem
    rw [sinceErase_display] at hmem
    split at hmem
    · rcases List.mem_append.mp hmem with hmem | hmem
      · exact h.nonempty key' locations' hmem
      · rw [List.mem_singleton.mp hmem]
        exact hl
    · exact h.nonempty key' locations' hmem
  · intro key' hne
    rw [sinceErase_display] at hne ⊢
    rw [lastDisplayed_display]
    split
    next => exact List.getLast?_concat
    next hk =>
      rw [if_neg hk] at hne
      exact h.last key' hne

theorem inv_step (h : Inv past s) (hstep : Step timeText textToImg s a t) : Inv (past ++ [a]) t := by
  cases hstep with
  | fail => exact h.silent silent_leave _ _
  | start => exact h.erase _ _ _
  | answer => exact h.silent silent_answer _ _
  | dismiss => exact h.silent silent_leave _ _
  | leave => exact h.silent silent_leave _ _
  | throw => exact h.silent silent_leave _ _
  | display _ hl _ => exact h.display _ _ hl _

theorem inv_run {as : List (Statement ι)} (h : Run (Step timeText textToImg) State.start as s) : Inv as s :=
  h.history_invariant Inv (fun _ _ _ _ hinv hstep => inv_step hinv hstep) [] inv_start

omit [DecidableEq ι] in
/-- What is stored is the list displayed last exactly when it is the only one since
the key was erased. -/
theorem Inv.lookup_eq_iff (h : Inv past s) {key : Bytes} {locations : List LocationInfo}
    (hl : lastDisplayed key past = some locations) :
    s.lists.lookup key = some locations ↔ (sinceErase key past).length = 1 := by
  rw [h.lists]
  cases hs : sinceErase key past with
  | nil => simp [stored]
  | cons first rest =>
      have hlast := h.last key (by rw [hs]; exact List.cons_ne_nil _ _)
      rw [hs, hl] at hlast
      rw [stored, if_neg (List.cons_ne_nil _ _), Option.some_inj, List.length_cons, Nat.add_eq_right]
      constructor
      · intro heq
        rcases List.eq_nil_or_concat rest with rfl | ⟨more, final, rfl⟩
        · rfl
        · rw [List.concat_eq_append, ← List.cons_append, List.getLast?_concat] at hlast
          cases hlast
          rw [List.concat_eq_append, ← List.cons_append, List.flatten_append, List.flatten_singleton,
            List.append_left_eq_self] at heq
          have hfirst : first ≠ [] := h.nonempty key first (by rw [hs]; exact List.mem_cons_self)
          exact absurd (List.append_eq_nil_iff.mp heq).1 hfirst
      · intro hrest
        rw [List.length_eq_zero_iff] at hrest
        subst hrest
        rw [List.flatten_singleton]
        exact Option.some.inj hlast

end Invariant

section Choosing

/-- Whatever index of a displayed city is typed, a command asks for that city. -/
def Resolves (command : Lists → Object → Outcome Answer) (query : Query) (lists : Lists) (key : Bytes)
    (locations : List LocationInfo) : Prop :=
  ∀ event text, keyOf event = .ok key → optionOf event = .ok text → text ≠ [] → isDigitStr text →
    digitsValue text < 2 ^ 31 → ∀ hk : digitsValue text < locations.length,
      command lists event = .ok (.asked query locations[digitsValue text].id)

/-- The list that was displayed is the one that is stored, so that the commands go
by its numbers. -/
structure Agrees (lists : Lists) (key : Bytes) (locations : List LocationInfo) : Prop where
  stored : lists.lookup key = some locations
  realTime : Resolves realTimeWeather .now lists key locations
  today : Resolves todayWeather .forcast lists key locations
  shortDesc : Resolves weatherShortDesc .forcast lists key locations

variable {lists : Lists} {key : Bytes} {locations : List LocationInfo}

theorem locationIdx_of_digits {text : Bytes} (hne : text ≠ []) (hdigits : isDigitStr text) {size : Nat}
    (hint : digitsValue text < 2 ^ 31) (hk : digitsValue text < size) :
    locationIdx text size = .ok (digitsValue text) := by
  rw [locationIdx, if_pos ⟨hne, hdigits⟩, stoi, if_pos hint, ok_bind]
  exact congrArg Except.ok (if_neg (Nat.not_le.mpr hk))

theorem resolves_of_lookup (h : lists.lookup key = some locations) (query : Query) :
    Resolves (located query) query lists key locations := by
  intro event text hkey htext hne hdigits hint hk
  rw [located, hkey, ok_bind, h]
  simp only [htext, ok_bind, locationIdx_of_digits hne hdigits hint hk, List.getElem?_eq_getElem hk]
  rfl

theorem agrees_iff : Agrees lists key locations ↔ lists.lookup key = some locations := by
  constructor
  · exact Agrees.stored
  · intro h
    exact ⟨h, resolves_of_lookup h .now, resolves_of_lookup h .forcast, resolves_of_lookup h .forcast⟩

end Choosing

section Claim

variable {timeText : Int64 → Bytes} {textToImg : Bytes → Bytes}

/-- Whatever runs there were, and in whatever order of their statements: the stored
list is the one displayed last exactly when this was the only one displayed since the
last erase. -/
theorem displayed_list_agrees_iff [DecidableEq ι] {as : List (Statement ι)} {s : State ι}
    (h : Run (Step timeText textToImg) State.start as s) {key : Bytes} {locations : List LocationInfo}
    (hl : lastDisplayed key as = some locations) :
    Agrees s.lists key locations ↔ (sinceErase key as).length = 1 := by
  rw [agrees_iff, (inv_run h).lookup_eq_iff hl]

/-- Someone in a private chat who sends a command with some text behind it. -/
def typing (text : String) : Object :=
  [("post_type", .string (bytes "message")), ("message_type", .string (bytes "private")),
    ("user_id", .numberUnsigned 10001), ("message", .string (bytes "查天气" ++ bytes text)),
    ("__command_size__", .numberUnsigned 9)]

theorem answerable_typing (text : String) : Answerable (typing text) :=
  answerable_private rfl ⟨_, rfl, rfl, by rintro _ ⟨⟩⟩

def typist : Bytes := bytes "10001"

def beijing : LocationInfo := ⟨bytes "101010100", bytes "北京", bytes "中国", bytes "北京市", bytes "北京"⟩

def shanghai : LocationInfo := ⟨bytes "101020100", bytes "上海", bytes "中国", bytes "上海市", bytes "上海"⟩

def nowhere : EorzeanWeather.Data := ⟨∅, [], ∅, ∅, [], [], []⟩

def noTime (_ : Int64) : Bytes := []

def picture (_ : Bytes) : Bytes := bytes "base64://"

theorem search_found {event : Object} (ha : Answerable event) (cityName : Bytes) {locations : List LocationInfo}
    (hl : locations ≠ []) : search noTime picture nowhere 0 (fun _ => .ok locations) event cityName =
      .ok (answerOf event (image (picture (cityMessage locations))) true, locations) := by
  have hret : getEorzeanWeather noTime nowhere 0 cityName = .ok [] := rfl
  rw [search, hret, ok_bind, if_neg (fun h => h rfl), ok_bind, if_neg hl, send_eq ha]
  rfl

theorem keyOf_typing (text : String) : keyOf (typing text) = .ok typist := by
  have huser : Object.constIndex (typing text) "user_id" = .ok (.numberUnsigned 10001) := rfl
  have hnumber : decimal 10001 = typist := by decide
  have hgroup : Object.contains (typing text) "group_id" = false := rfl
  rw [keyOf, hgroup, if_neg Bool.false_ne_true, huser, ← hnumber]
  rfl

theorem step_search {s : State Nat} {i : Nat} (hi : s.runs i = .idle) (text : String)
    (ho : optionOf (typing text) = .ok (bytes text)) (hne : bytes text ≠ []) :
    Step noTime picture s (.erase i typist)
      (s.store (s.lists.erase typist) i (.asking (typing text) typist (bytes text))) := by
  have hstep := @Step.start Nat noTime picture _ s i _ typist _ hi (answerable_typing text)
    (keyOf_typing text) ho
  rwa [if_neg hne] at hstep

theorem step_found {s : State Nat} {i : Nat} {text : String}
    (hi : s.runs i = .asking (typing text) typist (bytes text)) {location : LocationInfo} :
    Step noTime picture s (.display i typist [location]) (s.store (appended s.lists typist [location]) i
      (.displayed typist [location]
        (answerOf (typing text) (image (picture (cityMessage [location]))) true))) :=
  .display hi (List.cons_ne_nil _ _) (search_found (answerable_typing text) _ (List.cons_ne_nil _ _))

/-- One search after another: the list of the second one is shown and stored. -/
theorem displayed_list_agrees_iff_twice : ∃ s, Run (Step noTime picture) State.start
      [.erase 0 typist, .display 0 typist [beijing], .erase 1 typist, .display 1 typist [shanghai]] s ∧
    Agrees s.lists typist [shanghai] := by
  have hrun : Run (Step noTime picture) State.start
      [.erase 0 typist, .display 0 typist [beijing], .erase 1 typist, .display 1 typist [shanghai]] _ :=
    .cons (step_search rfl "北京" (by decide) (by decide)) (.cons (step_found rfl)
      (.cons (step_search rfl "上海" (by decide) (by decide)) (.cons (step_found rfl) (.nil _))))
  exact ⟨_, hrun, (displayed_list_agrees_iff hrun rfl).mpr (by decide)⟩

def crossed : State Nat :=
  let erased := (State.start.store ((∅ : Lists).erase typist) 0 (.asking (typing "北京") typist (bytes "北京"))).store
    (((∅ : Lists).erase typist).erase typist) 1 (.asking (typing "上海") typist (bytes "上海"))
  let first := erased.store (appended erased.lists typist [beijing]) 0 (.displayed typist [beijing]
    (answerOf (typing "北京") (image (picture (cityMessage [beijing]))) true))
  first.store (appended first.lists typist [shanghai]) 1 (.displayed typist [shanghai]
    (answerOf (typing "上海") (image (picture (cityMessage [shanghai]))) true))

theorem run_crossed : Run (Step noTime picture) State.start
    [.erase 0 typist, .erase 1 typist, .display 0 typist [beijing], .display 1 typist [shanghai]] crossed :=
  .cons (step_search rfl "北京" (by decide) (by decide))
    (.cons (step_search rfl "上海" (by decide) (by decide))
      (.cons (step_found rfl) (.cons (step_found rfl) (.nil _))))

theorem quiet_crossed : Quiet crossed typist := by
  intro i event
  match i with
  | 0 => exact ⟨nofun, nofun⟩
  | 1 => exact ⟨nofun, nofun⟩
  | _ + 2 => exact ⟨nofun, nofun⟩

theorem lookup_crossed : crossed.lists.lookup typist = some [beijing, shanghai] := (inv_run run_crossed).lists typist

/-- Two searches whose answers come after both have erased: the second list is shown
with numbers of its own, and stored behind the first. -/
theorem crossed_searches : Run (Step noTime picture) State.start
      [.erase 0 typist, .erase 1 typist, .display 0 typist [beijing], .display 1 typist [shanghai]] crossed ∧
    Quiet crossed typist ∧
    lastDisplayed typist [.erase 0 typist, .erase 1 typist, .display 0 typist [beijing],
      .display 1 typist [shanghai]] = some [shanghai] ∧
    realTimeWeather crossed.lists (typing "0") = .ok (.asked .now (bytes "101010100")) ∧
    ¬ Agrees crossed.lists typist [shanghai] := by
  refine ⟨run_crossed, quiet_crossed, rfl, ?_, ?_⟩
  · have hzero : optionOf (typing "0") = .ok (bytes "0") := by decide
    have hdigit : digitsValue (bytes "0") = 0 := by decide
    have hasked := resolves_of_lookup lookup_crossed .now (typing "0") (bytes "0") (keyOf_typing "0") hzero
      (by decide) (by decide) (by rw [hdigit]; decide) (by rw [hdigit]; decide)
    simp only [hdigit] at hasked
    exact hasked
  · intro h
    have hlists := h.stored.symm.trans lookup_crossed
    exact absurd hlists (by decide)

end Claim

end MigangBot.CityLists
