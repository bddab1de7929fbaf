import MigangBot.WeatherRuns
import MigangBot.Digits
import MigangBot.Lib.Runs

namespace MigangBot.WeatherConsistency

open Lib.Exceptions Lib.Effects Lib.Effects.Act Lib.Maps Lib.Runs Text JsonValue Digits EorzeanWeather

section Rates

/-- A list that more is put behind; one that nothing is put into is not made. -/
def joined (old : Option (List WeatherRate)) (new : List WeatherRate) : Option (List WeatherRate) :=
  if new = [] then old else some (old.getD [] ++ new)

theorem joined_joined (old : Option (List WeatherRate)) (ws ws' : List WeatherRate) :
    joined (joined old ws) ws' = joined old (ws ++ ws') := by
  cases ws <;> cases ws' <;> simp [joined]

theorem lookup_foldl_pushed (idx : FiniteMap Int32 (List WeatherRate)) (rate rate' : Int32) (ws : List WeatherRate) :
    (ws.foldl (fun idx w => pushed idx rate w) idx).lookup rate' =
      if rate' = rate then joined (idx.lookup rate') ws else idx.lookup rate' := by
  have h : (ws.foldl (fun idx w => pushed idx rate w) idx).lookup rate' =
      if rate' = rate ∧ ws ≠ [] then some ((idx.lookup rate).getD [] ++ ws) else idx.lookup rate' :=
    lookup_foldl_push idx rate rate' ws
  rw [h]
  cases ws with
  | nil => simp [joined]
  | cons w ws =>
      by_cases hrate : rate' = rate
      · subst hrate
        simp [joined]
      · simp [hrate]

def ratesOf (rows : List (Int32 × List WeatherRate)) (rate : Int32) : List WeatherRate :=
  (rows.filter fun row => row.1 = rate).flatMap fun row => row.2

theorem lookup_pushes (idx : FiniteMap Int32 (List WeatherRate)) (rows : List (Int32 × List WeatherRate))
    (rate : Int32) : (pushes idx rows).lookup rate = joined (idx.lookup rate) (ratesOf rows rate) := by
  induction rows generalizing idx with
  | nil => rfl
  | cons row rows ih =>
      rw [pushes, List.foldl_cons, ← pushes, ih, lookup_foldl_pushed, ratesOf, ratesOf, List.filter_cons]
      by_cases h : row.1 = rate
      · rw [if_pos h.symm, if_pos (by simpa using h), List.flatMap_cons, joined_joined]
      · rw [if_neg (Ne.symm h), if_neg (by simpa using h)]

end Rates

section Places

theorem mem_news {idx : FiniteMap Bytes Int32} {places : List (Bytes × Int32)} {name : Bytes} {rate : Int32} :
    (name, rate) ∈ news idx places ↔ idx.lookup name = none ∧
      places.find? (fun place => place.1 = name) = some (name, rate) := by
  induction places generalizing idx with
  | nil => simp [news]
  | cons place places ih =>
      rw [news, List.find?_cons]
      by_cases hname : place.1 = name
      · subst hname
        cases hidx : idx.lookup place.1 with
        | some r => simp [ih, hidx]
        | none => simp [ih, Prod.ext_iff, eq_comm (a := rate)]
      · have hne : (name, rate) ≠ place := fun h => hname (congrArg Prod.fst h).symm
        split
        · simp [ih, hname]
        · simp [ih, hname, hne, Ne.symm hname]

theorem news_congr {idx idx' : FiniteMap Bytes Int32} {places : List (Bytes × Int32)}
    (h : ∀ place ∈ places, (idx.lookup place.1).isSome = (idx'.lookup place.1).isSome) :
    news idx places = news idx' places := by
  induction places generalizing idx idx' with
  | nil => rfl
  | cons place places ih =>
      obtain ⟨hplace, hplaces⟩ := List.forall_mem_cons.mp h
      rw [news, news, hplace, ih hplaces]
      congr 2
      apply ih
      intro place' hplace'
      rw [lookup_insert_eq, lookup_insert_eq]
      split
      · rfl
      · exact hplaces place' hplace'

theorem news_eq_iff {idx : FiniteMap Bytes Int32} {places : List (Bytes × Int32)} :
    news idx places = news ∅ places ↔ ∀ place ∈ places, idx.lookup place.1 = none := by
  constructor
  · intro h place hplace
    have hfound : (places.find? fun p => p.1 = place.1).isSome := List.find?_isSome.mpr ⟨place, hplace, by simp⟩
    obtain ⟨⟨name, rate⟩, hfind⟩ := Option.isSome_iff_exists.mp hfound
    have hname : name = place.1 := by simpa using List.find?_some hfind
    subst hname
    have hmem : (place.1, rate) ∈ news ∅ places := mem_news.mpr ⟨rfl, hfind⟩
    rw [← h] at hmem
    exact (mem_news.mp hmem).1
  · intro h
    apply news_congr
    intro place hplace
    rw [h place hplace]
    rfl

theorem find?_news (idx : FiniteMap Bytes Int32) (places : List (Bytes × Int32)) (name : Bytes) :
    (news idx places).find? (fun place => place.1 = name) =
      if (idx.lookup name).isSome then none else places.find? fun place => place.1 = name := by
  induction places generalizing idx with
  | nil => simp [news]
  | cons place places ih =>
      rw [news, List.find?_cons]
      by_cases hname : place.1 = name
      · subst hname
        cases hidx : idx.lookup place.1 with
        | some r => simp [ih, hidx]
        | none => simp
      · split
        · simp [ih, hname]
        · simp [ih, hname, Ne.symm hname]

end Places

section Documents

theorem getInt_jsonInt (i : Int32) : (jsonInt i).getInt = .ok i.toInt := by
  have hlow : -2 ^ 31 ≤ i.toInt := i.le_toInt
  have hhigh : i.toInt < 2 ^ 31 := i.toInt_lt
  rw [jsonInt, Json.getInt]
  split
  next h =>
    have hsize : i.toInt.toNat < 2 ^ 64 := by omega
    rw [Json.getNarrow, UInt64.toNat_ofNat', Nat.mod_eq_of_lt hsize, Int.toNat_of_nonneg h,
      Int.bmod_eq_of_le (by omega) (by omega)]
  next h =>
    rw [Json.getNarrow, Int64.toInt_ofInt_of_le (by omega) (by omega), Int.bmod_eq_of_le (by omega) (by omega)]

theorem readRate_rateJson (w : WeatherRate) : readRate (rateJson w) = .ok w := by
  have hweather : (rateJson w).index "weather" = .ok (rateJson w, jsonInt w.weather) := rfl
  have hrate : (rateJson w).index "rate" = .ok (rateJson w, jsonInt w.rate) := rfl
  rw [readRate, hweather, ok_bind, getInt_jsonInt, ok_bind, hrate, ok_bind, getInt_jsonInt, ok_bind,
    Int32.ofInt_toInt, Int32.ofInt_toInt]
  rfl

theorem listOf_array (xs : List Json) (rates : List WeatherRate) :
    listOf (.array xs) rates = .array (xs ++ rates.map rateJson) := by
  induction rates generalizing xs with
  | nil => simp [listOf]
  | cons w rates ih =>
      rw [listOf, List.foldl_cons, pushBack, ← listOf, ih, List.append_assoc]
      rfl

theorem rateList_cons (w : WeatherRate) (rates : List WeatherRate) :
    rateList (w :: rates) = .array ((w :: rates).map rateJson) := listOf_array [rateJson w] rates

theorem elements_rateList (rates : List WeatherRate) : elements (rateList rates) = rates.map rateJson := by
  cases rates with
  | nil => rfl
  | cons w rates => rw [rateList_cons, elements]

/-- The library reads back what it writes. -/
structure Sound (lib : Library) : Prop where
  names : ∀ (names : List Bytes) text, lib.dump (.array (names.map .string)) = some text →
    lib.parse text = some (.array (names.map .string))
  rates : ∀ rates text, lib.dump (rateList rates) = some text → lib.parse text = some (rateList rates)
  empty : lib.parse (bytes "[]") = some (.array [])

variable {lib : Library}

theorem readable_rates {row : WeatherRateRow} {rates : List WeatherRate}
    (h : lib.parse row.wR = some (rateList rates)) : readableRates lib row ∧ rowRates lib row = rates := by
  constructor
  · refine ⟨_, h, fun w hw => ?_⟩
    rw [elements_rateList] at hw
    obtain ⟨rate, _, rfl⟩ := List.mem_map.mp hw
    exact ⟨rate, readRate_rateJson rate⟩
  · rw [rowRates, rowElements, h, Option.map_some, Option.getD_some, elements_rateList, List.map_map]
    have hread : rateOf ∘ rateJson = id := by
      funext w
      rw [Function.comp, rateOf, readRate_rateJson]
      rfl
    rw [hread, List.map_id]

theorem readable_names {row : LocationRow} {names : List Bytes}
    (h : lib.parse row.alterName = some (.array (names.map .string))) :
    readableNames lib row ∧ rowNames lib row = names := by
  constructor
  · refine ⟨_, h, fun name hname => ?_⟩
    obtain ⟨text, _, rfl⟩ := List.mem_map.mp hname
    exact ⟨text, rfl⟩
  · rw [rowNames, rowElements, h, Option.map_some, Option.getD_some, elements, List.map_map]
    have hread : nameOf ∘ Json.string = id := rfl
    rw [hread, List.map_id]

theorem mem_namesOf {idx : FiniteMap Bytes Bytes} {name location : Bytes} :
    name ∈ namesOf idx location ↔ idx.lookup name = some location := by
  rw [namesOf, List.mem_map]
  constructor
  · rintro ⟨e, he, rfl⟩
    obtain ⟨hmem, hloc⟩ := List.mem_filter.mp he
    have heq : e.2 = location := by simpa using hloc
    rw [← heq]
    exact AList.mem_lookup_iff.mpr hmem
  · intro h
    exact ⟨⟨name, location⟩, List.mem_filter.mpr ⟨AList.mem_lookup_iff.mp h, by simp⟩, rfl⟩

/-- The text in the row of a location lists the names that the index has for it. -/
theorem parse_namesText (hlib : Sound lib) {idx : FiniteMap Bytes Bytes} {location text : Bytes}
    (h : namesText lib idx location = some text) :
    lib.parse text = some (.array ((namesOf idx location).map .string)) := by
  rw [namesText, getAlterName] at h
  by_cases hnames : namesOf idx location = []
  · rw [if_pos hnames] at h
    cases h
    rw [hnames]
    exact hlib.empty
  · rw [if_neg hnames] at h
    exact hlib.names _ _ h

end Documents

section Restart

variable {lib : Library} {env : Environment} {s k t : Data}

/-- Every alternative name is one of a location that the index has. -/
def Anchored (s : Data) : Prop :=
  ∀ name location, s.alterNameIdx.lookup name = some location → (s.locationIdx.lookup location).isSome

def aliases (lib : Library) (rows : List LocationRow) : List (Bytes × Bytes) :=
  rows.flatMap fun row => (rowNames lib row).map fun name => (name, row.location)

theorem lookup_loaded_location (s : Data) (location : Bytes) : (loaded lib s).locationIdx.lookup location =
    (s.locationIdx.lookup location).or
      ((s.location.find? fun row => row.location = location).map fun row => row.weatherRate) :=
  lookup_foldl_emplace LocationRow.location LocationRow.weatherRate s.location s.locationIdx location

theorem lookup_loaded_alterName (s : Data) (name : Bytes) : (loaded lib s).alterNameIdx.lookup name =
    (s.alterNameIdx.lookup name).or (((aliases lib s.location).find? fun e => e.1 = name).map fun e => e.2) := by
  rw [← lookup_foldl_emplace, aliases, List.foldl_flatMap]
  simp only [List.foldl_map]
  rfl

theorem lookup_loaded_rate (s : Data) (rate : Int32) : (loaded lib s).weatherRateIdx.lookup rate =
    joined (s.weatherRateIdx.lookup rate)
      (ratesOf (s.weatherRate.map fun row => (row.weatherRate, rowRates lib row)) rate) :=
  lookup_pushes _ _ _

theorem anchored_loaded (h : Anchored s) : Anchored (loaded lib s) := by
  intro name location hname
  rw [lookup_loaded_location]
  rw [lookup_loaded_alterName, Option.or_eq_some_iff] at hname
  rcases hname with hname | ⟨_, hname⟩
  · obtain ⟨rate, hrate⟩ := Option.isSome_iff_exists.mp (h name location hname)
    rw [hrate]
    rfl
  · obtain ⟨⟨name', location'⟩, hfind, rfl⟩ := Option.map_eq_some_iff.mp hname
    obtain ⟨row, hrow, hmem⟩ := List.mem_flatMap.mp (List.mem_of_find?_eq_some hfind)
    obtain ⟨_, _, heq⟩ := List.mem_map.mp hmem
    have hfound : (s.location.find? fun r => r.location = location').isSome :=
      List.find?_isSome.mpr ⟨row, hrow, by simpa using congrArg Prod.snd heq⟩
    simp [hfound]

theorem anchored_updated (h : Updated lib env k t) (hk : Anchored k) : Anchored t := by
  intro name location hname
  rw [h.alterNameIdx] at hname
  rw [h.locationIdx, lookup_foldl_emplace Prod.fst Prod.snd]
  simp [hk name location hname]

/-- The memory of a process that has just started. -/
def restarted (s : Data) : Data :=
  { s with alterNameIdx := ∅, weatherIdx := [], locationIdx := ∅, weatherRateIdx := ∅ }

theorem anchored_restarted (s : Data) : Anchored (restarted s) := by
  intro name location h
  cases h

theorem parse_rates (hlib : Sound lib) (h : Updated lib env k t) : ∀ r ∈ derivedRates lib env,
    lib.parse ((lib.dump (rateList r.2)).getD []) = some (rateList r.2) := by
  intro r hr
  obtain ⟨text, htext⟩ := Option.isSome_iff_exists.mp (h.dumped r hr)
  rw [htext]
  exact hlib.rates r.2 text htext

theorem tableRates (hlib : Sound lib) (h : Updated lib env k t) :
    (∀ row ∈ t.weatherRate, readableRates lib row) ∧
      t.weatherRate.map (fun row => (row.weatherRate, rowRates lib row)) = derivedRates lib env := by
  have hparse := parse_rates hlib h
  rw [h.weatherRate]
  constructor
  · intro row hrow
    obtain ⟨r, hr, rfl⟩ := List.mem_map.mp hrow
    exact (readable_rates (hparse r hr)).1
  · rw [List.map_map]
    refine (List.map_congr_left fun r hr => ?_).trans (List.map_id _)
    exact Prod.ext rfl (readable_rates (hparse r hr)).2

theorem tableNames (hlib : Sound lib) (h : Updated lib env k t) : ∀ row ∈ t.location,
    lib.parse row.alterName = some (.array ((namesOf k.alterNameIdx row.location).map .string)) :=
  fun row hrow => parse_namesText hlib (h.names row hrow)

theorem readable_restarted (hlib : Sound lib) (h : Updated lib env k t) : Readable lib (restarted t) where
  rates := (tableRates hlib h).1
  names row hrow := (readable_names (tableNames hlib h row hrow)).1

theorem fresh_rate (hlib : Sound lib) (h : Updated lib env k t) (rate : Int32) :
    (loaded lib (restarted t)).weatherRateIdx.lookup rate = joined none (ratesOf (derivedRates lib env) rate) := by
  rw [lookup_loaded_rate, ← (tableRates hlib h).2]
  rfl

theorem fresh_location (h : Updated lib env k t) (location : Bytes) :
    (loaded lib (restarted t)).locationIdx.lookup location =
      ((news k.locationIdx (territories lib env)).find? fun place => place.1 = location).map Prod.snd := by
  rw [lookup_loaded_location, restarted, h.location, List.find?_map, Option.map_map]
  rfl

theorem fresh_alterName (hlib : Sound lib) (h : Updated lib env k t) {name location : Bytes}
    (hname : (loaded lib (restarted t)).alterNameIdx.lookup name = some location) :
    k.alterNameIdx.lookup name = some location ∧ k.locationIdx.lookup location = none := by
  rw [lookup_loaded_alterName] at hname
  obtain ⟨⟨name', location'⟩, hfind, rfl⟩ := Option.map_eq_some_iff.mp hname
  have hkey : name' = name := by simpa using List.find?_some hfind
  subst hkey
  obtain ⟨row, hrow, hmem⟩ := List.mem_flatMap.mp (List.mem_of_find?_eq_some hfind)
  rw [(readable_names (tableNames hlib h row hrow)).2] at hmem
  obtain ⟨_, hin, heq⟩ := List.mem_map.mp hmem
  cases heq
  refine ⟨mem_namesOf.mp hin, ?_⟩
  replace hrow : row ∈ t.location := hrow
  rw [h.location] at hrow
  obtain ⟨place, hplace, rfl⟩ := List.mem_map.mp hrow
  exact (mem_news.mp hplace).1

end Restart

section Claim

variable {lib : Library} {env : Environment} {s k t : Data}

/-- What a rate code shows at a time. -/
def shown (weatherIdx : List Bytes) (rates : Option (List WeatherRate)) (date : Int32) : Text.Outcome Bytes :=
  match rates with
  | none => throwing .outOfRange
  | some rates => forecast weatherIdx rates (forcastTarget date)

theorem calWeather_eq (s : Data) (date : Int32) (location : Bytes) : calWeather s date location =
    match s.locationIdx.lookup location with
    | none => .ok []
    | some rate => shown s.weatherIdx (s.weatherRateIdx.lookup rate) date := rfl

def quiet : Environment := ⟨fun _ => [], fun _ => none⟩

/-- The tables hold the download, and a restart would change no answer. -/
structure Consistent (lib : Library) (env : Environment) (s t : Data) : Prop where
  weather : t.weather = weathers env
  weatherRate : List.Forall₂ (fun row r => row.weatherRate = r.1 ∧ lib.parse row.wR = some (rateList r.2))
    t.weatherRate (derivedRates lib env)
  location : t.location.map (fun row => (row.location, row.weatherRate)) = news ∅ (territories lib env)
  names : ∀ row ∈ t.location, ∃ names : List Bytes, lib.parse row.alterName = some (.array (names.map .string)) ∧
    ∀ name, name ∈ names ↔ (loaded lib s).alterNameIdx.lookup name = some row.location
  restart : ∃ fresh, Runs (init lib quiet) (restarted t) () fresh ∧
    (∀ date location, calWeather t date location = calWeather fresh date location) ∧
    ∀ name, t.alterNameIdx.lookup name = fresh.alterNameIdx.lookup name

/-- A call on what is known before it, in the indexes or in the tables. -/
structure Undisturbed (lib : Library) (env : Environment) (k : Data) : Prop where
  places : ∀ place ∈ territories lib env, k.locationIdx.lookup place.1 = none
  names : ∀ name, k.alterNameIdx.lookup name = none
  silent : ∀ location rate, k.locationIdx.lookup location = some rate → ∀ date, shown (weathers env)
    (joined (k.weatherRateIdx.lookup rate) (ratesOf (derivedRates lib env) rate)) date = .ok []
  rates : ∀ place ∈ news ∅ (territories lib env), ∀ date, shown (weathers env)
    (joined (k.weatherRateIdx.lookup place.2) (ratesOf (derivedRates lib env) place.2)) date =
      shown (weathers env) (joined none (ratesOf (derivedRates lib env) place.2)) date

theorem updated_location (h : Updated lib env k t) (location : Bytes) : t.locationIdx.lookup location =
    (k.locationIdx.lookup location).or
      (((territories lib env).find? fun place => place.1 = location).map Prod.snd) := by
  rw [h.locationIdx, lookup_foldl_emplace Prod.fst Prod.snd]

theorem updated_rate (h : Updated lib env k t) (rate : Int32) : t.weatherRateIdx.lookup rate =
    joined (k.weatherRateIdx.lookup rate) (ratesOf (derivedRates lib env) rate) := by
  rw [h.weatherRateIdx, lookup_pushes]

theorem runs_restart (hlib : Sound lib) (h : Updated lib env k t) {fresh : Data} :
    Runs (init lib quiet) (restarted t) () fresh ↔ fresh = loaded lib (restarted t) := by
  rw [runs_init, and_iff_right ⟨fun _ => by simp [quiet], fun _ => rfl⟩, and_iff_right (readable_restarted hlib h)]

theorem placesOf (h : Updated lib env k t) :
    t.location.map (fun row => (row.location, row.weatherRate)) = news k.locationIdx (territories lib env) := by
  rw [h.location, List.map_map]
  exact List.map_id _

/-- What is shown for a place that was known before, now and after a restart. -/
theorem calWeather_known (h : Updated lib env k t) {location : Bytes} {rate : Int32}
    (hknown : k.locationIdx.lookup location = some rate) (date : Int32) :
    calWeather t date location = shown (weathers env)
      (joined (k.weatherRateIdx.lookup rate) (ratesOf (derivedRates lib env) rate)) date ∧
    calWeather (loaded lib (restarted t)) date location = .ok [] := by
  rw [calWeather_eq, calWeather_eq, updated_location h, fresh_location h, find?_news, hknown]
  constructor
  · rw [h.weatherIdx, ← updated_rate h]
    rfl
  · rfl

theorem calWeather_new (hlib : Sound lib) (h : Updated lib env k t) {place : Bytes × Int32}
    (hnew : k.locationIdx.lookup place.1 = none)
    (hfind : (territories lib env).find? (fun p => p.1 = place.1) = some place) (date : Int32) :
    calWeather t date place.1 = shown (weathers env)
      (joined (k.weatherRateIdx.lookup place.2) (ratesOf (derivedRates lib env) place.2)) date ∧
    calWeather (loaded lib (restarted t)) date place.1 = shown (weathers env)
      (joined none (ratesOf (derivedRates lib env) place.2)) date := by
  rw [calWeather_eq, calWeather_eq, updated_location h, fresh_location h, find?_news, hnew, hfind]
  constructor
  · rw [h.weatherIdx, ← updated_rate h]
    rfl
  · rw [← fresh_rate hlib h]
    have hweather : (loaded lib (restarted t)).weatherIdx = weathers env := h.weather
    rw [← hweather]
    rfl

theorem calWeather_unknown (h : Updated lib env k t) {location : Bytes}
    (hnew : k.locationIdx.lookup location = none)
    (hfind : (territories lib env).find? (fun p => p.1 = location) = none) (date : Int32) :
    calWeather t date location = .ok [] ∧ calWeather (loaded lib (restarted t)) date location = .ok [] := by
  rw [calWeather_eq, calWeather_eq, updated_location h, fresh_location h, find?_news, hnew, hfind]
  exact ⟨rfl, rfl⟩

theorem undisturbed_of_consistent (hlib : Sound lib) (hk : Anchored (loaded lib s))
    (h : Updated lib env (loaded lib s) t) (hc : Consistent lib env s t) : Undisturbed lib env (loaded lib s) := by
  obtain ⟨fresh, hfresh, hcal, halter⟩ := hc.restart
  rw [runs_restart hlib h] at hfresh
  subst hfresh
  have hplaces := news_eq_iff.mp ((placesOf h).symm.trans hc.location)
  constructor
  · exact hplaces
  · intro name
    by_contra hne
    obtain ⟨location, hname⟩ := Option.ne_none_iff_exists'.mp hne
    have hfresh : (loaded lib (restarted t)).alterNameIdx.lookup name = some location := by
      rw [← halter, h.alterNameIdx, hname]
    have hunknown := (fresh_alterName hlib h hfresh).2
    have hanchor := hk name location hname
    rw [hunknown] at hanchor
    cases hanchor
  · intro location rate hknown date
    obtain ⟨hnow, hfresh⟩ := calWeather_known h hknown date
    rw [← hnow, hcal, hfresh]
  · intro place hplace date
    obtain ⟨_, hfind⟩ := mem_news.mp hplace
    obtain ⟨hnow, hfresh⟩ := calWeather_new hlib h (hplaces place (List.mem_of_find?_eq_some hfind)) hfind date
    rw [← hnow, hcal, hfresh]

theorem consistent_of_undisturbed (hlib : Sound lib) (h : Updated lib env (loaded lib s) t)
    (hu : Undisturbed lib env (loaded lib s)) : Consistent lib env s t where
  weather := h.weather
  weatherRate := by
    rw [h.weatherRate, List.forall₂_map_left_iff, List.forall₂_same]
    exact fun r hr => ⟨rfl, parse_rates hlib h r hr⟩
  location := (placesOf h).trans (news_eq_iff.mpr hu.places)
  names := fun row hrow => ⟨_, tableNames hlib h row hrow, fun _ => mem_namesOf⟩
  restart := by
    refine ⟨_, (runs_restart hlib h).mpr rfl, fun date location => ?_, fun name => ?_⟩
    · cases hknown : (loaded lib s).locationIdx.lookup location with
      | some rate =>
          obtain ⟨hnow, hfresh⟩ := calWeather_known h hknown date
          rw [hnow, hfresh, hu.silent location rate hknown date]
      | none =>
          cases hfind : (territories lib env).find? fun p => p.1 = location with
          | none =>
              obtain ⟨hnow, hfresh⟩ := calWeather_unknown h hknown hfind date
              rw [hnow, hfresh]
          | some place =>
              have hname : place.1 = location := by simpa using List.find?_some hfind
              subst hname
              obtain ⟨hnow, hfresh⟩ := calWeather_new hlib h hknown hfind date
              rw [hnow, hfresh, hu.rates place (mem_news.mpr ⟨rfl, hfind⟩) date]
    · rw [h.alterNameIdx, hu.names name]
      cases hfresh : (loaded lib (restarted t)).alterNameIdx.lookup name with
      | none => rfl
      | some location =>
          have hname := (fresh_alterName hlib h hfresh).1
          rw [hu.names name] at hname
          cases hname

/-- A call of Update, with the data around it. -/
structure Call where
  env : Environment
  before : Data
  after : Data

structure Step (lib : Library) (s : Data) (c : Call) (t : Data) : Prop where
  before : c.before = s
  after : c.after = t
  returned : Runs (update lib c.env) s true t

/-- In a run of successful updates the tables and the indexes are right after
each call exactly when each call was undisturbed. -/
theorem updates_consistent_iff (hlib : Sound lib) {tables s : Data} {calls : List Call} {start : Data}
    (hinit : Runs (init lib env) (restarted tables) () start) (hrun : Run (Step lib) start calls s) :
    (∀ c ∈ calls, Consistent lib c.env c.before c.after) ↔
      ∀ c ∈ calls, Undisturbed lib c.env (loaded lib c.before) := by
  have hstart : Anchored start := by
    obtain ⟨_, _, rfl⟩ := runs_init.mp hinit
    exact anchored_loaded (anchored_restarted tables)
  clear hinit
  induction hrun with
  | nil => simp
  | @cons s t u c calls hstep _ ih =>
      obtain ⟨rfl, rfl, hreturned⟩ := hstep
      obtain ⟨_, hupdated⟩ := updated_of_runs hreturned
      have hk := @anchored_loaded lib _ hstart
      rw [List.forall_mem_cons, List.forall_mem_cons]
      refine and_congr ⟨?_, ?_⟩ (ih (anchored_updated hupdated hk))
      · exact undisturbed_of_consistent hlib hk hupdated
      · exact consistent_of_undisturbed hlib hupdated

def emptyTables : Data := ⟨∅, [], ∅, ∅, [], [], []⟩

def clearSky : WeatherRate := ⟨0, 100⟩

def clearText : Bytes := bytes "[\x7b\"rate\":100,\"weather\":0\x7d]"

/-- The libraries on the little that a small download has of them. -/
def library : Library where
  getInt text := if text ≠ [] ∧ isDigitStr text ∧ digitsValue text < 2 ^ 31 then
    some (Int32.ofNat (digitsValue text)) else none
  parse text := if text = clearText then some (rateList [clearSky])
    else if text = bytes "[]" then some (.array []) else none
  dump
    | .array [w] => match readRate w with
        | .ok rate => if rate = clearSky then some clearText else none
        | .error _ => none
    | _ => none

theorem sound_library : Sound library where
  names names text h := by
    rcases names with _ | ⟨name, _ | ⟨name', names⟩⟩ <;> cases h
  rates rates text h := by
    rcases rates with _ | ⟨w, _ | ⟨w', rates⟩⟩
    · cases h
    · rw [rateList_cons] at h
      change (match readRate (rateJson w) with
        | .ok rate => if rate = clearSky then some clearText else none
        | .error _ => none) = some text at h
      rw [readRate_rateJson] at h
      obtain ⟨rfl, htext⟩ := Option.ite_none_right_eq_some.mp h
      rw [← Option.some.inj htext]
      rfl
    · rw [rateList_cons] at h
      cases h
  empty := rfl

def download : Environment where
  throws _ := none
  rows
    | .weather => [[], [], [bytes "1", bytes "60201", bytes "晴朗"]]
    | .placeName => [[], [], [bytes "28", bytes "海雾村"]]
    | .territoryType => [[], [], [bytes "340", bytes "s1h1", [], [], [], [], bytes "28", [], [], [], [], [], [],
        bytes "1"]]
    | .weatherRate => [[], [], [bytes "1", bytes "0", bytes "100"]]

theorem Step.of_outcome {lib : Library} {env : Environment} {s : Data} (h : (update lib env).outcome s = .ok true) :
    Step lib s ⟨env, s, (update lib env).after s⟩ ((update lib env).after s) := ⟨rfl, rfl, h, rfl⟩

theorem runs_start : Runs (init library quiet) (restarted emptyTables) () emptyTables := ⟨rfl, rfl⟩

theorem updates_consistent_iff_first : (∀ c ∈ [Call.mk download emptyTables ((update library download).after emptyTables)],
      Consistent library c.env c.before c.after) ↔
    ∀ c ∈ [Call.mk download emptyTables ((update library download).after emptyTables)],
      Undisturbed library c.env (loaded library c.before) :=
  updates_consistent_iff sound_library runs_start (.cons (.of_outcome (by decide +kernel)) (.nil _))

/-- The second call leaves an empty table of locations. -/
theorem second_update_loses_locations : ¬ ∀ (lib : Library) (env : Environment) (tables start s : Data)
    (calls : List Call), Sound lib → Runs (init lib env) (restarted tables) () start → Run (Step lib) start calls s →
      ∀ c ∈ calls, Consistent lib c.env c.before c.after := by
  intro hall
  have hfirst := @Step.of_outcome library download emptyTables (by decide +kernel)
  have hsecond := @Step.of_outcome library download ((update library download).after emptyTables) (by decide +kernel)
  have hlocation := (hall _ _ _ _ _ _ sound_library runs_start (.cons hfirst (.cons hsecond (.nil _))) _
    (List.mem_cons_of_mem _ List.mem_cons_self)).location
  revert hlocation
  decide +kernel

end Claim

end MigangBot.WeatherConsistency
