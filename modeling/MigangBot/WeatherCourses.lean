import MigangBot.WeatherRuns
import MigangBot.Lib.Courses

namespace MigangBot.WeatherCourses

open Lib.Exceptions Lib.Effects Lib.Effects.Act Lib.Courses Lib.Courses.Course Lib.Maps Text JsonValue EorzeanWeather
open Blacklists (characters)

section Indexes

/-- The indexes that a call only adds to. -/
def indexes (s : Data) : (FiniteMap Int32 (List WeatherRate) × FiniteMap Bytes Int32) × FiniteMap Bytes Bytes :=
  ((s.weatherRateIdx, s.locationIdx), s.alterNameIdx)

def size {K V : Type} [DecidableEq K] (weigh : V → Nat) (k : K) (idx : FiniteMap K V) : Nat :=
  match idx.lookup k with
  | none => 0
  | some v => weigh v + 1

/-- An index that changes by nothing but larger entries. -/
theorem settled_index {K V : Type} [DecidableEq K] {get : Data → FiniteMap K V} (weigh : V → Nat)
    (hget : ∀ s d, get (apply s d) = get s ∨
      ∃ k v, get (apply s d) = (get s).insert k v ∧ size weigh k (get s) < weigh v + 1) :
    Settled apply get := by
  have hmono (s : Data) (d : Step) (k : K) : size weigh k (get s) ≤ size weigh k (get (apply s d)) := by
    rcases hget s d with hsame | ⟨k', v, hinsert, hlt⟩
    · rw [hsame]
    · rw [hinsert, size, size, lookup_insert_eq]
      by_cases hk : k = k'
      · subst hk
        rw [if_pos rfl]
        exact Nat.le_of_lt hlt
      · rw [if_neg hk]
  apply settled_of_growing hmono
  intro s d
  rcases hget s d with hsame | ⟨k, v, hinsert, hlt⟩
  · exact .inl hsame
  · refine .inr ⟨k, ?_⟩
    rw [hinsert, size, size, lookup_insert_eq, if_pos rfl]
    exact hlt

theorem emplace_eq_or {K V : Type} [DecidableEq K] (weigh : V → Nat) (idx : FiniteMap K V) (k : K) (v : V) :
    emplace idx k v = idx ∨ ∃ k' v', emplace idx k v = idx.insert k' v' ∧ size weigh k' idx < weigh v' + 1 := by
  cases h : idx.lookup k with
  | some v' => exact .inl (emplace_present v h)
  | none =>
      refine .inr ⟨k, v, emplace_new v h, ?_⟩
      rw [size, h]
      exact Nat.zero_lt_succ _

theorem settled_rates : Settled apply Data.weatherRateIdx := by
  apply settled_index List.length
  intro s d
  cases d with
  | touchRate rate => exact emplace_eq_or _ _ _ _
  | pushRate rate w =>
      refine .inr ⟨rate, _, rfl, ?_⟩
      rw [size]
      cases s.weatherRateIdx.lookup rate <;> simp
  | truncate table => cases table <;> exact .inl rfl
  | _ => exact .inl rfl

theorem settled_locations : Settled apply Data.locationIdx := by
  apply settled_index fun _ => 0
  intro s d
  cases d with
  | emplaceLocation location rate => exact emplace_eq_or _ _ _ _
  | truncate table => cases table <;> exact .inl rfl
  | _ => exact .inl rfl

theorem settled_alterNames : Settled apply Data.alterNameIdx := by
  apply settled_index fun _ => 0
  intro s d
  cases d with
  | emplaceAlterName name location => exact emplace_eq_or _ _ _ _
  | truncate table => cases table <;> exact .inl rfl
  | _ => exact .inl rfl

theorem settled_indexes : Settled apply indexes := (settled_rates.prod settled_locations).prod settled_alterNames

theorem touchRate_kept {s : Data} {rate : Int32} :
    indexes (apply s (.touchRate rate)) = indexes s ↔ (s.weatherRateIdx.lookup rate).isSome := by
  rw [← emplace_eq_iff (v := [])]
  simp [indexes, apply]

theorem emplaceLocation_kept {s : Data} {location : Bytes} {rate : Int32} :
    indexes (apply s (.emplaceLocation location rate)) = indexes s ↔ (s.locationIdx.lookup location).isSome := by
  rw [← emplace_eq_iff (v := rate)]
  simp [indexes, apply]

theorem emplaceAlterName_kept {s : Data} {name location : Bytes} :
    indexes (apply s (.emplaceAlterName name location)) = indexes s ↔ (s.alterNameIdx.lookup name).isSome := by
  rw [← emplace_eq_iff (v := location)]
  simp [indexes, apply]

theorem pushRate_kept {s : Data} {rate : Int32} {w : WeatherRate} :
    ¬ indexes (apply s (.pushRate rate w)) = indexes s := by
  intro h
  have hidx : pushed s.weatherRateIdx rate w = s.weatherRateIdx := congrArg (fun i => i.1.1) h
  have hlist := congrArg (AList.lookup rate) hidx
  rw [pushed, AList.lookup_insert] at hlist
  have hlength := congrArg (fun list => (list.getD []).length) hlist
  simp at hlength

end Indexes

section Primitives

variable {env : Environment} {s t : Data} {α β : Type}

def point (env : Environment) (p : Point) : Course := check (env.throws p = none)

def csvRow (env : Environment) (file : File) (c : CsvRow → Nat → Course) (r : CsvRow × Nat) : Course :=
  (point env (.row file r.2)).andThen (if r.2 < 2 then done else c r.1 r.2)

theorem follows_proceed {p : Point} : Follows indexes (proceed env p) s (point env p) () s := by
  apply follows_of_runs
  · intro u t
    rw [runs_proceed, point, check, eq_self, true_and]
  · intro t
    rw [proceed, point, check]
    cases env.throws p with
    | none => simp
    | some e => simp [stops_lift, throwing]

theorem follows_bind_given {x : Option α} {f : α → Act β} {c : α → Course} {b : β}
    (h : ∀ a, x = some a → Follows indexes (f a) s (c a) b t) : Follows indexes (given x >>= f) s (value x c) b t := by
  cases x with
  | none => exact follows_bind_throwing
  | some a => exact h a rfl

theorem follows_fits {n : Nat} {text : Bytes} : Follows indexes (fits n text) s (check (characters text ≤ n)) () s := by
  apply follows_of_runs
  · intro u t
    rw [runs_fits, check, eq_self, true_and]
  · intro t
    rw [fits, check]
    split
    next h => simp [h]
    next h => simp [h, stops_lift, throwing]

theorem follows_createTable {table : Table} :
    Follows indexes (createTable env table) s (check (env.throws (.create table) ≠ some .other)) () s := by
  apply follows_of_runs
  · intro u t
    rw [runs_createTable, check, eq_self, true_and]
  · intro t
    rw [createTable, check, stops_recover, proceed]
    rcases env.throws (.create table) with _ | _ | _
    · simp [outcome, pure, returning]
    · simp [outcome, lift, throwing]
    · simp [outcome, lift, throwing, stops_lift, Act.after, steps, eq_comm]

end Primitives

section Loading

variable {lib : Library} {env : Environment} {s t : Data} {α β : Type}

def reading (x : Text.Outcome α) (c : α → Course) : Course :=
  match x with
  | .ok a => c a
  | .error (.thrown _) => ⟨False, True⟩
  | .error _ => ⟨False, False⟩

theorem follows_bind_fromJson {x : Text.Outcome α} {f : α → Act β} {c : α → Course} {b : β}
    (h : ∀ a, Follows indexes (f a) s (c a) b t) : Follows indexes (fromJson x >>= f) s (reading x c) b t := by
  rcases x with (e | _ | _) | a
  · exact follows_bind_throwing
  · exact follows_bind_fault (by simp)
  · exact follows_bind_fault (by simp)
  · exact h a

theorem follows_touchRate {rate : Int32} :
    Follows indexes (perform (.touchRate rate) : Act Unit) s (quiet (s.weatherRateIdx.lookup rate).isSome) () s := by
  apply follows_perform touchRate_kept
  intro h
  rw [apply, emplace_eq_iff.mpr h]

theorem follows_pushRate {rate : Int32} {w : WeatherRate} :
    Follows indexes (perform (.pushRate rate w) : Act Unit) s (quiet False) () s :=
  follows_perform (iff_of_false pushRate_kept id) False.elim

theorem follows_emplaceLocation {location : Bytes} {rate : Int32} :
    Follows indexes (perform (.emplaceLocation location rate) : Act Unit) s
      (quiet (s.locationIdx.lookup location).isSome) () s := by
  apply follows_perform emplaceLocation_kept
  intro h
  rw [apply, emplace_eq_iff.mpr h]

theorem follows_emplaceAlterName {name location : Bytes} :
    Follows indexes (perform (.emplaceAlterName name location) : Act Unit) s
      (quiet (s.alterNameIdx.lookup name).isSome) () s := by
  apply follows_perform emplaceAlterName_kept
  intro h
  rw [apply, emplace_eq_iff.mpr h]

/-- The other steps leave the indexes that only grow. -/
theorem follows_step {d : Step} (hd : indexes (apply s d) = indexes s) (ht : apply s d = t) :
    Follows indexes (perform d : Act Unit) s done () t :=
  follows_perform (iff_of_true hd trivial) fun _ => ht

/-- A rate that could be read is put behind those of its code. -/
def loadRateCourse (lib : Library) (s : Data) (row : WeatherRateRow) : Course :=
  value (lib.parse row.wR) fun list => along (elements list) fun w =>
    (quiet (s.weatherRateIdx.lookup row.weatherRate).isSome).andThen (reading (readRate w) fun _ => quiet False)

def loadLocationCourse (lib : Library) (s : Data) (row : LocationRow) : Course :=
  (quiet (s.locationIdx.lookup row.location).isSome).andThen <|
    value (lib.parse row.alterName) fun names => along (elements names) fun name =>
      reading name.getString fun text => quiet (s.alterNameIdx.lookup text).isSome

def openingCourse (env : Environment) : Course :=
  (check (env.throws (.create .weather) ≠ some .other)).andThen <|
    (check (env.throws (.create .location) ≠ some .other)).andThen <|
      (check (env.throws (.create .weatherRate) ≠ some .other)).andThen (point env (.select .weather))

def loadingCourse (lib : Library) (env : Environment) (s : Data) : Course :=
  ((point env (.select .weatherRate)).andThen (along s.weatherRate (loadRateCourse lib s))).andThen
    ((point env (.select .location)).andThen (along s.location (loadLocationCourse lib s)))

theorem follows_loadRateRow {row : WeatherRateRow} :
    Follows indexes (loadRateRow lib row) s (loadRateCourse lib s row) () s := by
  apply follows_bind_given
  intro list _
  apply follows_each settled_indexes
  intro w
  apply follows_touchRate.bind settled_indexes
  exact follows_bind_fromJson fun r => follows_pushRate

theorem follows_loadLocationRow {row : LocationRow} :
    Follows indexes (loadLocationRow lib row) s (loadLocationCourse lib s row) () s := by
  apply follows_emplaceLocation.bind settled_indexes
  apply follows_bind_given
  intro names _
  apply follows_each settled_indexes
  intro name
  exact follows_bind_fromJson fun text => follows_emplaceAlterName

theorem follows_initWeatherRate : Follows indexes (initWeatherRate lib env) s
    ((point env (.select .weatherRate)).andThen (along s.weatherRate (loadRateCourse lib s))) () s := by
  apply follows_proceed.bind settled_indexes
  apply follows_bind_read settled_indexes
  exact follows_each settled_indexes (fun row => follows_loadRateRow) s.weatherRate

theorem follows_initLocation : Follows indexes (initLocation lib env) s
    ((point env (.select .location)).andThen (along s.location (loadLocationCourse lib s))) () s := by
  apply follows_proceed.bind settled_indexes
  apply follows_bind_read settled_indexes
  exact follows_each settled_indexes (fun row => follows_loadLocationRow) s.location

end Loading

section Updating

variable {lib : Library} {env : Environment} {s m t : Data} {β : Type}

/-- The data in a call that has left the other indexes as they were. -/
def midway (s : Data) (weatherIdx weather : List Bytes) (location : List LocationRow)
    (weatherRate : List WeatherRateRow) : Data :=
  { s with weatherIdx := weatherIdx, weather := weather, location := location, weatherRate := weatherRate }

theorem eq_midway_iff {weatherIdx weather : List Bytes} {location : List LocationRow}
    {weatherRate : List WeatherRateRow} : s = midway s weatherIdx weather location weatherRate ↔
      s.weatherIdx = weatherIdx ∧ s.weather = weather ∧ s.location = location ∧ s.weatherRate = weatherRate := by
  rw [Data.ext_iff]
  simp [midway]

/-- The turn of a loop over a reader. -/
theorem follows_turn {file : File} (body : CsvRow → Nat → Act Unit) {c : CsvRow → Nat → Course} {r : CsvRow × Nat}
    (hskip : r.2 < 2 → s = t) (hbody : ¬ r.2 < 2 → Follows indexes (body r.1 r.2) s (c r.1 r.2) () t) :
    Follows indexes (proceed env (.row file r.2) >>= fun _ => if r.2 < 2 then pure () else body r.1 r.2) s
      (csvRow env file c r) () t := by
  apply follows_proceed.bind settled_indexes
  split
  next hi =>
    rw [← hskip hi]
    exact follows_pure
  next hi => exact hbody hi

/-- What is read of the rows of a file, below the second. -/
def readRows {ξ : Type} (f : CsvRow → ξ) (rows : List (CsvRow × Nat)) : List ξ :=
  rows.flatMap fun r => if r.2 < 2 then [] else [f r.1]

section Rows

variable {ξ : Type} {f : CsvRow → ξ} {rows : List (CsvRow × Nat)} {r : CsvRow × Nat}

theorem readRows_skip (hi : r.2 < 2) : readRows f (rows ++ [r]) = readRows f rows := by
  rw [readRows, List.flatMap_append, List.flatMap_singleton, if_pos hi, List.append_nil, readRows]

theorem readRows_snoc (hi : ¬ r.2 < 2) : readRows f (rows ++ [r]) = readRows f rows ++ [f r.1] := by
  rw [readRows, List.flatMap_append, List.flatMap_singleton, if_neg hi, readRows]

end Rows

def readWeathers (rows : List (CsvRow × Nat)) : List Bytes := readRows (fun row => row.getD 2 []) rows

def weatherRowCourse (row : CsvRow) : Course := value row[2]? fun _ => done

def insertWeatherCourse (env : Environment) (weather : Bytes × Nat) : Course :=
  (point env (.insert .weather weather.2)).andThen (check (characters weather.1 ≤ 15))

def readWeathersCourse (env : Environment) (s : Data) : Course :=
  filling (env.rows .weather).zipIdx (fun _ => csvRow env .weather fun row _ => weatherRowCourse row)
    fun rows => s.weatherIdx = readWeathers rows

def insertWeathersCourse (env : Environment) (s : Data) : Course :=
  filling (readWeathers (env.rows .weather).zipIdx).zipIdx (fun _ => insertWeatherCourse env)
    fun weathers => s.weather = weathers.map Prod.fst

theorem follows_weatherRow {rows : List (CsvRow × Nat)} {r : CsvRow × Nat} {weather : List Bytes}
    {location : List LocationRow} {weatherRate : List WeatherRateRow} :
    Follows indexes (proceed env (.row .weather r.2) >>= fun _ => if r.2 < 2 then pure () else readWeatherRow r.1)
      (midway s (readWeathers rows) weather location weatherRate)
      (csvRow env .weather (fun row _ => weatherRowCourse row) r) ()
      (midway s (readWeathers (rows ++ [r])) weather location weatherRate) := by
  apply follows_turn fun row _ => readWeatherRow row
  · intro hi
    rw [readWeathers, readWeathers, readRows_skip hi]
  · intro hi
    apply follows_bind_given
    intro text htext
    apply follows_step rfl
    rw [readWeathers, readWeathers, readRows_snoc hi, List.getD_eq_getElem?_getD, htext]
    rfl

theorem follows_insertWeather {past : List (Bytes × Nat)} {w : Bytes × Nat} {weatherIdx : List Bytes}
    {location : List LocationRow} {weatherRate : List WeatherRateRow} : Follows indexes (insertWeather env w)
      (midway s weatherIdx (past.map Prod.fst) location weatherRate) (insertWeatherCourse env w) ()
      (midway s weatherIdx ((past ++ [w]).map Prod.fst) location weatherRate) := by
  apply follows_proceed.bind settled_indexes
  rw [← andThen_done (check _)]
  apply follows_fits.bind settled_indexes
  apply follows_step rfl
  simp [apply, midway]

variable {rest : Act β} {d : Course}

def weatherCourse (env : Environment) (s : Data) : Course :=
  ((point env (.fetch .weather)).leaving (s.weather = [])).andThen <|
    ((point env (.reader .weather)).leaving (s.weatherIdx = [])).andThen <| (readWeathersCourse env s).andThen <|
      (point env (.truncate .weather)).andThen (insertWeathersCourse env s)

/-- From the download on: the index and then the table must become what they
were. -/
theorem halts_updateWeather (hrest : ∀ weatherIdx weather,
      Halts indexes rest (midway s weatherIdx weather s.location s.weatherRate) s ↔
        s = midway s weatherIdx weather s.location s.weatherRate ∧ d.stops) :
    Halts indexes (updateWeather env >>= fun _ => rest)
        (midway s (s.weatherIdx ++ s.weather) s.weather s.location s.weatherRate) s ↔
      ((weatherCourse env s).andThen d).stops := by
  simp only [weatherCourse, andThen_assoc]
  simp only [updateWeather, eachRow, bind_bind]
  apply follows_proceed.halts_bind_leaving settled_indexes (by simp [eq_midway_iff])
  rw [(follows_step (t := midway s [] s.weather s.location s.weatherRate) rfl rfl).halts_bind_done settled_indexes]
  apply follows_proceed.halts_bind_leaving settled_indexes (by simp [eq_midway_iff])
  rw [← true_and (Course.stops _)]
  apply halts_bind_each (g := fun rows => midway s (readWeathers rows) s.weather s.location s.weatherRate)
    settled_indexes (fun rows r => follows_weatherRow) (by simp [eq_midway_iff])
  rw [true_and]
  apply follows_proceed.halts_bind_iff settled_indexes (by simp [eq_midway_iff])
  rw [(follows_step (t := midway s (readWeathers (env.rows .weather).zipIdx) [] s.location s.weatherRate) rfl
    rfl).halts_bind_done settled_indexes, follows_read.halts_bind_done settled_indexes]
  apply halts_bind_each (g := fun weathers => midway s (readWeathers (env.rows .weather).zipIdx)
    (weathers.map Prod.fst) s.location s.weatherRate) settled_indexes (fun weathers w => follows_insertWeather)
    (by simp [eq_midway_iff])
  rw [hrest, List.zipIdx_map_fst]
  simp [eq_midway_iff]

def placeRowCourse (lib : Library) (row : CsvRow) : Course :=
  value (intAt lib row 0) fun _ => value row[1]? fun _ => done

def placesCourse (lib : Library) (env : Environment) : Course :=
  (point env (.fetch .placeName)).andThen <| (point env (.reader .placeName)).andThen <|
    along (env.rows .placeName).zipIdx (csvRow env .placeName fun row _ => placeRowCourse lib row)

/-- A place that was not known is entered in any case. -/
def territoryRowCourse (lib : Library) (codes : FiniteMap Int32 Bytes) (known : FiniteMap Bytes Int32)
    (row : CsvRow) : Course :=
  value (intAt lib row 6) fun code =>
    if code = 0 then done
    else match codes.lookup code with
      | none => done
      | some name =>
          if (known.lookup name).isSome then done
          else value row[1]? fun text =>
            if text.contains (char '_') then done else value (intAt lib row 13) fun _ => quiet False

def territoryRowsCourse (lib : Library) (env : Environment) (s : Data) : Course :=
  along (env.rows .territoryType).zipIdx
    (csvRow env .territoryType fun row _ => territoryRowCourse lib (places lib env) s.locationIdx row)

theorem follows_getCodeLocation :
    Follows indexes (getCodeLocation lib env) s (placesCourse lib env) (places lib env) s := by
  rw [places, ← foldl_zipIdx_skip _ (env.rows .placeName) 2 0]
  apply follows_proceed.bind settled_indexes
  apply follows_proceed.bind settled_indexes
  apply follows_fold settled_indexes
  intro ret r
  apply follows_proceed.bind settled_indexes
  split
  next hi => exact follows_pure
  next hi =>
    apply follows_bind_given
    intro code hcode
    apply follows_bind_given
    intro name hname
    rw [hcode, List.getD_eq_getElem?_getD, hname]
    exact follows_pure

theorem follows_updateTerritoryRow {codes : FiniteMap Int32 Bytes} {alterName : Bytes → Option Json} {row : CsvRow}
    {i : Nat} : Follows indexes (updateTerritoryRow lib env codes alterName row i) s
      (territoryRowCourse lib codes s.locationIdx row) () s := by
  apply follows_bind_given
  intro code _
  split
  next hz => exact follows_pure
  next hz =>
    cases codes.lookup code with
    | none => exact follows_pure
    | some name =>
        apply follows_bind_read settled_indexes
        dsimp only
        split
        next hknown => exact follows_pure
        next hknown =>
          apply follows_bind_given
          intro text _
          split
          next hc => exact follows_pure
          next hc =>
            apply follows_bind_given
            intro rate _
            have hnew : Follows indexes (perform (.emplaceLocation name rate) : Act Unit) s (quiet False) () s :=
              follows_perform (iff_of_false (fun h => hknown (emplaceLocation_kept.mp h)) id) False.elim
            exact hnew.bind_of_not_passes settled_indexes id

def territoryCourse (lib : Library) (env : Environment) (s : Data) : Course :=
  (point env (.fetch .territoryType)).andThen <| (point env (.reader .territoryType)).andThen <|
    (placesCourse lib env).andThen <| (point env (.truncate .location)).andThen <|
      (quiet (s.location = [])).andThen (territoryRowsCourse lib env s)

theorem halts_updateTerritoryInfo {weatherIdx weather : List Bytes} (hrest : ∀ location,
      Halts indexes rest (midway s weatherIdx weather location s.weatherRate) s ↔
        s = midway s weatherIdx weather location s.weatherRate ∧ d.stops) :
    Halts indexes (updateTerritoryInfo lib env >>= fun _ => rest)
        (midway s weatherIdx weather s.location s.weatherRate) s ↔
      s = midway s weatherIdx weather s.location s.weatherRate ∧ ((territoryCourse lib env s).andThen d).stops := by
  simp only [territoryCourse, andThen_assoc]
  simp only [updateTerritoryInfo, eachRow, bind_bind]
  apply follows_proceed.halts_bind_iff settled_indexes Iff.rfl
  apply follows_proceed.halts_bind_iff settled_indexes Iff.rfl
  apply follows_getCodeLocation.halts_bind_iff settled_indexes Iff.rfl
  rw [follows_read.halts_bind_done settled_indexes]
  apply follows_proceed.halts_bind_iff settled_indexes Iff.rfl
  rw [(follows_step (t := midway s weatherIdx weather [] s.weatherRate) rfl rfl).halts_bind_done settled_indexes,
    quiet_andThen_stops]
  have hempty : s = midway s weatherIdx weather s.location s.weatherRate ∧ s.location = [] ↔
      s = midway s weatherIdx weather [] s.weatherRate := by
    simp [eq_midway_iff, and_assoc]
  rw [← and_assoc, hempty]
  have hrows (alterName : Bytes → Option Json) : Follows indexes (eachRow env .territoryType fun row i =>
        updateTerritoryRow lib env (places lib env) alterName row i) (midway s weatherIdx weather [] s.weatherRate)
      (territoryRowsCourse lib env s) () (midway s weatherIdx weather [] s.weatherRate) := by
    apply follows_each settled_indexes
    intro r
    exact follows_turn _ (fun _ => rfl) fun _ => follows_updateTerritoryRow
  exact (hrows _).halts_bind_iff settled_indexes Iff.rfl (hrest [])

def rateRows (lib : Library) (rows : List (CsvRow × Nat)) : List WeatherRateRow :=
  readRows (fun row => ⟨(intAt lib row 0).getD 0, (lib.dump .null).getD []⟩) rows

/-- A row with a rate for a weather enters it, unless it cannot be read. -/
def rateRowCourse (lib : Library) (env : Environment) (s : Data) (table : List WeatherRateRow) (row : CsvRow)
    (i : Nat) : Course :=
  value (intAt lib row 0) fun rate =>
    if row.length ≤ 2 then
      value (lib.dump .null) fun text => (point env (.insert .weatherRate i)).andThen <|
        (check (characters text ≤ 255)).andThen (check (∀ r ∈ table, r.weatherRate ≠ rate))
    else
      value (intAt lib row 2) fun _ => (quiet (s.weatherRateIdx.lookup rate).isSome).andThen <|
        value (intAt lib row 1) fun _ => quiet False

def rateRowsCourse (lib : Library) (env : Environment) (s : Data) : Course :=
  filling (env.rows .weatherRate).zipIdx
    (fun rows => csvRow env .weatherRate (rateRowCourse lib env s (rateRows lib rows)))
    fun rows => s.weatherRate = rateRows lib rows

theorem follows_newKey {rate : Int32} :
    Follows indexes (newKey rate) s (check (∀ r ∈ s.weatherRate, r.weatherRate ≠ rate)) () s := by
  apply follows_of_runs
  · intro u t
    rw [runs_newKey, check, eq_self, true_and]
    simp
  · intro t
    rw [newKey, stops_bind, check]
    constructor
    · rintro (h | ⟨_, _, hread, h⟩)
      · exact absurd h not_stops_read
      · obtain ⟨rfl, rfl⟩ := runs_read.mp hread
        split at h
        next hany => exact ⟨by simpa using hany, (stops_lift.mp h).2⟩
        next => exact absurd h not_stops_pure
    · rintro ⟨hdup, rfl⟩
      refine .inr ⟨_, _, runs_read.mpr ⟨rfl, rfl⟩, ?_⟩
      rw [if_pos (by simpa using hdup)]
      exact stops_lift.mpr ⟨⟨_, rfl⟩, rfl⟩

theorem ratesFrom_none {row : CsvRow} {rate : Int32} (h : row.length ≤ 2) :
    ratesFrom lib row rate (List.range (row.length - 1)) 0 .null = pure .null := by
  have hlen : row.length - 1 = 0 ∨ row.length - 1 = 1 := by omega
  rcases hlen with hlen | hlen
  · rw [hlen]
    rfl
  · rw [hlen]
    rfl

theorem addInt_zero (i : Int32) : addInt 0 i = pure i := by
  have hlow : -2 ^ 31 ≤ i.toInt := i.le_toInt
  have hhigh : i.toInt < 2 ^ 31 := i.toInt_lt
  rw [addInt, Int32.toInt_zero, Int.zero_add, if_pos ⟨hlow, hhigh⟩, Int32.zero_add]

theorem follows_ratesFrom {row : CsvRow} {rate : Int32} (list : Json) (h : ¬ row.length ≤ 2) :
    Follows indexes (ratesFrom lib row rate (List.range (row.length - 1)) 0 .null) s
      (value (intAt lib row 2) fun _ => (quiet (s.weatherRateIdx.lookup rate).isSome).andThen <|
        value (intAt lib row 1) fun _ => quiet False) list s := by
  obtain ⟨n, hn⟩ : ∃ n, row.length - 1 = n + 2 := ⟨row.length - 3, by omega⟩
  rw [hn, List.range_succ_eq_map, List.range_succ_eq_map, List.map_cons]
  change Follows indexes (intField lib row 2 >>= fun more => addInt 0 more >>= fun tmp =>
    perform (.touchRate rate) >>= fun _ => intField lib row 1 >>= fun weather =>
      perform (.pushRate rate ⟨weather, tmp⟩) >>= fun _ => ratesFrom lib row rate _ tmp _) _ _ _ _
  apply follows_bind_given
  intro more _
  rw [addInt_zero, ← done_andThen (Course.andThen _ _)]
  apply follows_pure.bind settled_indexes
  apply follows_touchRate.bind settled_indexes
  apply follows_bind_given
  intro weather _
  exact follows_pushRate.bind_of_not_passes settled_indexes id

theorem not_passes_ratesFrom {row : CsvRow} {known : Prop} :
    ¬ (value (intAt lib row 2) fun _ => (quiet known).andThen <|
      value (intAt lib row 1) fun _ => quiet False).passes := by
  cases intAt lib row 2 with
  | none => exact id
  | some more =>
      cases intAt lib row 1 with
      | none => exact And.right
      | some weather => exact And.right

theorem follows_updateRateRow {rows : List (CsvRow × Nat)} {r : CsvRow × Nat} {weatherIdx weather : List Bytes}
    {location : List LocationRow} (hr : ¬ r.2 < 2) :
    Follows indexes (updateRateRow lib env r.1 r.2) (midway s weatherIdx weather location (rateRows lib rows))
      (rateRowCourse lib env s (rateRows lib rows) r.1 r.2) ()
      (midway s weatherIdx weather location (rateRows lib (rows ++ [r]))) := by
  apply follows_bind_given
  intro rate hrate
  split
  next hlen =>
    rw [ratesFrom_none hlen]
    apply follows_bind_given
    intro text htext
    apply follows_proceed.bind settled_indexes
    apply follows_fits.bind settled_indexes
    rw [← andThen_done (check _)]
    apply follows_newKey.bind settled_indexes
    apply follows_step rfl
    rw [rateRows, rateRows, readRows_snoc hr, hrate, htext]
    rfl
  next hlen =>
    exact (follows_ratesFrom .null hlen).bind_of_not_passes settled_indexes not_passes_ratesFrom

def weatherRateCourse (lib : Library) (env : Environment) (s : Data) : Course :=
  (point env (.fetch .weatherRate)).andThen <| (point env (.reader .weatherRate)).andThen <|
    (point env (.truncate .weatherRate)).andThen (rateRowsCourse lib env s)

theorem halts_updateWeatherRate {weatherIdx weather : List Bytes} {location : List LocationRow} :
    Halts indexes (updateWeatherRate lib env >>= fun _ => pure true)
        (midway s weatherIdx weather location s.weatherRate) s ↔
      s = midway s weatherIdx weather location s.weatherRate ∧ (weatherRateCourse lib env s).stops := by
  rw [← andThen_done (weatherRateCourse lib env s)]
  simp only [weatherRateCourse, andThen_assoc]
  simp only [updateWeatherRate, eachRow, bind_bind]
  apply follows_proceed.halts_bind_iff settled_indexes Iff.rfl
  apply follows_proceed.halts_bind_iff settled_indexes Iff.rfl
  apply follows_proceed.halts_bind_iff settled_indexes Iff.rfl
  rw [(follows_step (t := midway s weatherIdx weather location []) rfl rfl).halts_bind_done settled_indexes]
  apply halts_bind_each (g := fun rows => midway s weatherIdx weather location (rateRows lib rows))
    settled_indexes
  · intro rows r
    apply follows_turn (updateRateRow lib env)
    · intro hi
      rw [rateRows, rateRows, readRows_skip hi]
    · exact follows_updateRateRow
  · simp [eq_midway_iff, and_assoc]
  · rw [follows_pure.halts]
    simp [done]

end Updating

end MigangBot.WeatherCourses
