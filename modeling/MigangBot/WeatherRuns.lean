import MigangBot.EorzeanWeather
import Mathlib.Data.List.Basic

namespace MigangBot.EorzeanWeather

open Lib.Exceptions Lib.Effects Lib.Effects.Act Lib.Maps Text JsonValue Blacklists

section Primitives

variable {lib : Library} {env : Environment} {s t : Data} {u : Unit}

theorem runs_proceed {p : Point} : Runs (proceed env p) s u t ↔ env.throws p = none ∧ t = s := by
  rw [proceed]
  cases env.throws p with
  | none => simp [runs_pure]
  | some e => simp [runs_lift, throwing]

theorem runs_given {α : Type} {x : Option α} {a : α} : Runs (given x) s a t ↔ x = some a ∧ t = s := by
  cases x with
  | none => simp [given, runs_lift, throwing]
  | some b => simp [given, runs_pure, eq_comm (a := a)]

theorem runs_fromJson {α : Type} {x : Text.Outcome α} {a : α} :
    Runs (fromJson x) s a t ↔ x = .ok a ∧ t = s := by
  rcases x with (e | _ | _) | b
  · simp [fromJson, runs_lift, throwing]
  · simp [fromJson, runs_lift]
  · simp [fromJson, runs_lift]
  · simp [fromJson, runs_pure, eq_comm (a := a)]

theorem runs_fits {n : Nat} {text : Bytes} : Runs (fits n text) s u t ↔ characters text ≤ n ∧ t = s := by
  rw [fits]
  split <;> simp [*, runs_pure, runs_lift, throwing]

theorem runs_addInt {a b c : Int32} : Runs (addInt a b) s c t ↔
    (-2 ^ 31 ≤ a.toInt + b.toInt ∧ a.toInt + b.toInt < 2 ^ 31) ∧ c = a + b ∧ t = s := by
  rw [addInt]
  split
  next h => rw [runs_pure, and_iff_right h]
  next h => exact iff_of_false (by simp [runs_lift]) (fun h' => h h'.1)

theorem runs_createTable {table : Table} :
    Runs (createTable env table) s u t ↔ env.throws (.create table) ≠ some .other ∧ t = s := by
  rw [createTable, runs_recover, runs_proceed]
  cases h : env.throws (.create table) with
  | none =>
      have : (proceed env (.create table)).outcome s = .ok () := by rw [proceed, h]; rfl
      simp [this]
  | some e =>
      have : (proceed env (.create table)).outcome s = .error (.thrown e) := by rw [proceed, h]; rfl
      have hafter : (proceed env (.create table)).after s = s := by rw [proceed, h]; rfl
      cases e <;> simp [this, hafter, runs_pure, runs_lift, throwing]

theorem runs_newKey {rate : Int32} : Runs (newKey rate) s u t ↔
    (s.weatherRate.any fun row => row.weatherRate = rate) = false ∧ t = s := by
  rw [newKey, runs_bind]
  simp only [runs_read]
  constructor
  · intro h'
    obtain ⟨a, m, ⟨rfl, rfl⟩, h⟩ := h'
    split at h
    next hany => simp [runs_lift, throwing] at h
    next hany => exact ⟨by simpa using hany, (runs_pure.mp h).2⟩
  · intro h
    obtain ⟨hany, rfl⟩ := h
    refine ⟨_, _, ⟨rfl, rfl⟩, ?_⟩
    rw [hany]
    exact runs_pure.mpr ⟨rfl, rfl⟩

/-- A loop over a reader that returns has gone through the rows below the second. -/
theorem foldl_zipIdx_skip {σ α : Type} (g : σ → α → σ) (rows : List α) (n i : Nat) (s : σ) :
    (rows.zipIdx i).foldl (fun s r => if r.2 < n then s else g s r.1) s = (rows.drop (n - i)).foldl g s := by
  induction rows generalizing i s with
  | nil => simp
  | cons row rows ih =>
      rw [List.zipIdx_cons, List.foldl_cons, ih]
      by_cases h : i < n
      · rw [if_pos h, show n - i = n - (i + 1) + 1 by omega, List.drop_succ_cons]
      · rw [if_neg h, Nat.sub_eq_zero_of_le (by omega), Nat.sub_eq_zero_of_le (by omega), List.drop_zero,
          List.drop_zero, List.foldl_cons]

theorem eachRow_foldl {file : File} {body : CsvRow → Nat → Act Unit} {g : Data → CsvRow → Data}
    (hg : ∀ row i s t, Runs (body row i) s () t → t = g s row) (h : Runs (eachRow env file body) s u t) :
    t = ((env.rows file).drop 2).foldl g s := by
  rw [← foldl_zipIdx_skip g (env.rows file) 2 0 s]
  refine Runs.each_foldl (fun r _ s t hturn => ?_) h
  obtain ⟨_, m, hpass, hr⟩ := runs_bind.mp hturn
  obtain ⟨_, rfl⟩ := runs_proceed.mp hpass
  split at hr
  next hi => rw [(runs_pure.mp hr).2, if_pos hi]
  next hi => rw [hg _ _ _ _ hr, if_neg hi]

theorem eachRow_forall {file : File} {body : CsvRow → Nat → Act Unit}
    (h : Runs (eachRow env file body) s u t) :
    ∀ row ∈ (env.rows file).drop 2, ∃ i s t, Runs (body row i) s () t := by
  intro row hrow
  obtain ⟨j, hj, rfl⟩ := List.mem_iff_getElem.mp hrow
  rw [List.length_drop] at hj
  have hmem : ((env.rows file)[2 + j], 2 + j) ∈ (env.rows file).zipIdx :=
    List.mem_zipIdx_iff_getElem?.mpr (List.getElem?_eq_getElem (by omega))
  obtain ⟨s, t, hturn⟩ := h.each_forall _ hmem
  obtain ⟨_, m, _, hr⟩ := runs_bind.mp hturn
  rw [if_neg (by omega)] at hr
  rw [List.getElem_drop]
  exact ⟨_, _, _, hr⟩
end Primitives

section Loading

variable {lib : Library} {env : Environment} {s t : Data} {u : Unit}

theorem foldl_snoc {α : Type} (as bs : List α) : bs.foldl (fun as b => as ++ [b]) as = as ++ bs := by
  induction bs generalizing as with
  | nil => simp
  | cons b bs ih => rw [List.foldl_cons, ih, List.append_assoc, List.singleton_append]

theorem runs_initWeather : Runs (initWeather env) s u t ↔
    env.throws (.select .weather) = none ∧ t = { s with weatherIdx := s.weatherIdx ++ s.weather } := by
  have hloop : Runs (each s.weather fun row => perform (.pushWeather row) : Act Unit) s u t ↔
      t = { s with weatherIdx := s.weatherIdx ++ s.weather } := by
    rw [runs_each (g := fun s row => { s with weatherIdx := s.weatherIdx ++ [row] }) (p := fun _ => True)
      (fun _ _ _ => by rw [runs_perform, true_and]; rfl)]
    rw [foldl_field Data.weatherIdx (fun s v => { s with weatherIdx := v }) (fun v a => v ++ [a])
      (fun _ _ => rfl) (fun _ _ _ => rfl) (fun _ => rfl), foldl_snoc]
    simp
  rw [initWeather, runs_bind]
  simp only [runs_proceed, runs_bind, runs_read]
  constructor
  · intro h'
    obtain ⟨_, _, ⟨hpass, rfl⟩, _, _, ⟨rfl, rfl⟩, h⟩ := h'
    exact ⟨hpass, hloop.mp h⟩
  · intro h'
    obtain ⟨hpass, h⟩ := h'
    exact ⟨(), s, ⟨hpass, rfl⟩, s, s, ⟨rfl, rfl⟩, hloop.mpr h⟩

theorem pushed_touched (idx : FiniteMap Int32 (List WeatherRate)) (rate : Int32) (w : WeatherRate) :
    pushed (emplace idx rate []) rate w = pushed idx rate w := by
  cases h : idx.lookup rate with
  | some ws => rw [emplace_present [] h]
  | none => rw [emplace_new [] h, pushed, pushed, AList.lookup_insert, AList.insert_insert, h]; rfl

def rateOf (w : Json) : WeatherRate := (readRate w).toOption.getD ⟨0, 0⟩

def nameOf (name : Json) : Bytes := name.getString.toOption.getD []

def rowElements (lib : Library) (text : Bytes) : List Json := ((lib.parse text).map elements).getD []

def rowRates (lib : Library) (row : WeatherRateRow) : List WeatherRate := (rowElements lib row.wR).map rateOf

def rowNames (lib : Library) (row : LocationRow) : List Bytes := (rowElements lib row.alterName).map nameOf

def pushes (idx : FiniteMap Int32 (List WeatherRate)) (rows : List (Int32 × List WeatherRate)) :
    FiniteMap Int32 (List WeatherRate) :=
  rows.foldl (fun idx row => row.2.foldl (fun idx w => pushed idx row.1 w) idx) idx

def readableRates (lib : Library) (row : WeatherRateRow) : Prop :=
  ∃ list, lib.parse row.wR = some list ∧ ∀ w ∈ elements list, ∃ rate, readRate w = .ok rate

def readableNames (lib : Library) (row : LocationRow) : Prop :=
  ∃ list, lib.parse row.alterName = some list ∧ ∀ name ∈ elements list, ∃ text, name.getString = .ok text

def loadRates (lib : Library) (s : Data) : Data :=
  { s with weatherRateIdx := pushes s.weatherRateIdx (s.weatherRate.map fun row => (row.weatherRate, rowRates lib row)) }

theorem runs_loadRate {rate : Int32} {w : Json} : Runs (loadRate rate w) s u t ↔
    (∃ r, readRate w = .ok r) ∧ t = { s with weatherRateIdx := pushed s.weatherRateIdx rate (rateOf w) } := by
  simp only [loadRate, runs_bind, runs_perform, runs_fromJson]
  constructor
  · intro h
    obtain ⟨_, _, rfl, r, _, ⟨hr, rfl⟩, rfl⟩ := h
    refine ⟨⟨r, hr⟩, ?_⟩
    rw [rateOf, hr, apply, apply, pushed_touched]
    rfl
  · intro h
    obtain ⟨⟨r, hr⟩, rfl⟩ := h
    refine ⟨(), _, rfl, r, _, ⟨hr, rfl⟩, ?_⟩
    rw [rateOf, hr, apply, apply, pushed_touched]
    rfl

theorem runs_loadRateRow {row : WeatherRateRow} : Runs (loadRateRow lib row) s u t ↔ readableRates lib row ∧
    t = { s with weatherRateIdx :=
      ((rowRates lib row).foldl (fun idx w => pushed idx row.weatherRate w) s.weatherRateIdx) } := by
  simp only [loadRateRow, runs_bind, runs_given, runs_each fun _ _ _ => runs_loadRate]
  have hfold (ws : List Json) := foldl_field Data.weatherRateIdx (fun s v => { s with weatherRateIdx := v })
    (fun idx w => pushed idx row.weatherRate (rateOf w)) (fun _ _ => rfl) (fun _ _ _ => rfl) (fun _ => rfl) ws s
  constructor
  · intro h
    obtain ⟨list, _, ⟨hlist, rfl⟩, hread, rfl⟩ := h
    refine ⟨⟨list, hlist, hread⟩, ?_⟩
    rw [hfold, rowRates, rowElements, hlist, List.foldl_map]
    rfl
  · intro h
    obtain ⟨⟨list, hlist, hread⟩, rfl⟩ := h
    refine ⟨list, s, ⟨hlist, rfl⟩, hread, ?_⟩
    rw [hfold, rowRates, rowElements, hlist, List.foldl_map]
    rfl

theorem runs_initWeatherRate : Runs (initWeatherRate lib env) s u t ↔ env.throws (.select .weatherRate) = none ∧
    (∀ row ∈ s.weatherRate, readableRates lib row) ∧ t = loadRates lib s := by
  have hfold := foldl_field Data.weatherRateIdx (fun s v => { s with weatherRateIdx := v })
    (fun idx row => (rowRates lib row).foldl (fun idx w => pushed idx row.weatherRate w) idx) (fun _ _ => rfl)
    (fun _ _ _ => rfl) (fun _ => rfl) s.weatherRate s
  have hloads : loadRates lib s = s.weatherRate.foldl (fun s row => { s with weatherRateIdx :=
      ((rowRates lib row).foldl (fun idx w => pushed idx row.weatherRate w) s.weatherRateIdx) }) s := by
    rw [hfold, loadRates, pushes, List.foldl_map]
  simp only [initWeatherRate, runs_bind, runs_proceed, runs_read, runs_each fun _ _ _ => runs_loadRateRow, hloads]
  constructor
  · intro h
    obtain ⟨_, _, ⟨hpass, rfl⟩, _, _, ⟨rfl, rfl⟩, hread, rfl⟩ := h
    exact ⟨hpass, hread, rfl⟩
  · intro h
    obtain ⟨hpass, hread, rfl⟩ := h
    exact ⟨(), s, ⟨hpass, rfl⟩, s, s, ⟨rfl, rfl⟩, hread, rfl⟩

theorem runs_loadName {location : Bytes} {name : Json} : Runs (loadName location name) s u t ↔
    (∃ text, name.getString = .ok text) ∧
      t = { s with alterNameIdx := emplace s.alterNameIdx (nameOf name) location } := by
  simp only [loadName, runs_bind, runs_perform, runs_fromJson]
  constructor
  · intro h
    obtain ⟨text, _, ⟨htext, rfl⟩, rfl⟩ := h
    refine ⟨⟨text, htext⟩, ?_⟩
    rw [nameOf, htext]
    rfl
  · intro h
    obtain ⟨⟨text, htext⟩, rfl⟩ := h
    refine ⟨text, s, ⟨htext, rfl⟩, ?_⟩
    rw [nameOf, htext]
    rfl

theorem runs_loadLocationRow {row : LocationRow} : Runs (loadLocationRow lib row) s u t ↔ readableNames lib row ∧
    t = { s with
      locationIdx := emplace s.locationIdx row.location row.weatherRate
      alterNameIdx := (rowNames lib row).foldl (fun idx name => emplace idx name row.location) s.alterNameIdx } := by
  simp only [loadLocationRow, runs_bind, runs_perform, runs_given, runs_each fun _ _ _ => runs_loadName]
  have hfold (names : List Json) (s : Data) := foldl_field Data.alterNameIdx
    (fun s v => { s with alterNameIdx := v }) (fun idx name => emplace idx (nameOf name) row.location)
    (fun _ _ => rfl) (fun _ _ _ => rfl) (fun _ => rfl) names s
  constructor
  · intro h
    obtain ⟨_, _, rfl, list, _, ⟨hlist, rfl⟩, hread, rfl⟩ := h
    refine ⟨⟨list, hlist, hread⟩, ?_⟩
    rw [hfold, rowNames, rowElements, hlist, List.foldl_map]
    rfl
  · intro h
    obtain ⟨⟨list, hlist, hread⟩, rfl⟩ := h
    refine ⟨(), _, rfl, list, _, ⟨hlist, rfl⟩, hread, ?_⟩
    rw [hfold, rowNames, rowElements, hlist, List.foldl_map]
    rfl

def loadLocations (lib : Library) (s : Data) : Data :=
  { s with
    locationIdx := s.location.foldl (fun idx row => emplace idx row.location row.weatherRate) s.locationIdx
    alterNameIdx := s.location.foldl (fun idx row =>
      (rowNames lib row).foldl (fun idx name => emplace idx name row.location) idx) s.alterNameIdx }

theorem runs_initLocation : Runs (initLocation lib env) s u t ↔ env.throws (.select .location) = none ∧
    (∀ row ∈ s.location, readableNames lib row) ∧ t = loadLocations lib s := by
  have hfold (rows : List LocationRow) (s : Data) : rows.foldl (fun s row => { s with
      locationIdx := emplace s.locationIdx row.location row.weatherRate
      alterNameIdx := (rowNames lib row).foldl (fun idx name => emplace idx name row.location) s.alterNameIdx }) s =
      { s with
        locationIdx := rows.foldl (fun idx row => emplace idx row.location row.weatherRate) s.locationIdx
        alterNameIdx := rows.foldl (fun idx row =>
          (rowNames lib row).foldl (fun idx name => emplace idx name row.location) idx) s.alterNameIdx } := by
    induction rows generalizing s with
    | nil => rfl
    | cons row rows ih => rw [List.foldl_cons, ih, List.foldl_cons, List.foldl_cons]
  simp only [initLocation, runs_bind, runs_proceed, runs_read, runs_each fun _ _ _ => runs_loadLocationRow, hfold]
  constructor
  · intro h
    obtain ⟨_, _, ⟨hpass, rfl⟩, _, _, ⟨rfl, rfl⟩, hread, rfl⟩ := h
    exact ⟨hpass, hread, rfl⟩
  · intro h
    obtain ⟨hpass, hread, rfl⟩ := h
    exact ⟨(), s, ⟨hpass, rfl⟩, s, s, ⟨rfl, rfl⟩, hread, rfl⟩

/-- What Init finds and can read. -/
structure Readable (lib : Library) (s : Data) : Prop where
  rates : ∀ row ∈ s.weatherRate, readableRates lib row
  names : ∀ row ∈ s.location, readableNames lib row

/-- The tables are added to what the indexes hold already. -/
def loaded (lib : Library) (s : Data) : Data :=
  loadLocations lib (loadRates lib { s with weatherIdx := s.weatherIdx ++ s.weather })

structure Opens (env : Environment) : Prop where
  create : ∀ table, env.throws (.create table) ≠ some .other
  select : ∀ table, env.throws (.select table) = none

theorem runs_init : Runs (init lib env) s u t ↔ Opens env ∧ Readable lib s ∧ t = loaded lib s := by
  simp only [init, runs_bind, runs_createTable, runs_initWeather, runs_initWeatherRate, runs_initLocation]
  constructor
  · rintro ⟨_, _, ⟨hc₁, rfl⟩, _, _, ⟨hc₂, rfl⟩, _, _, ⟨hc₃, rfl⟩, _, _, ⟨hs₁, rfl⟩, _, _, ⟨hs₂, hrates, rfl⟩,
      hs₃, hnames, rfl⟩
    exact ⟨⟨fun table => by cases table <;> assumption, fun table => by cases table <;> assumption⟩,
      ⟨hrates, hnames⟩, rfl⟩
  · intro h
    obtain ⟨⟨hcreate, hselect⟩, ⟨hrates, hnames⟩, rfl⟩ := h
    exact ⟨(), s, ⟨hcreate .weather, rfl⟩, (), s, ⟨hcreate .location, rfl⟩, (), s, ⟨hcreate .weatherRate, rfl⟩,
      (), _, ⟨hselect .weather, rfl⟩, (), _, ⟨hselect .weatherRate, hrates, rfl⟩, hselect .location, hnames, rfl⟩

end Loading

section Updating

variable {lib : Library} {env : Environment} {s t : Data} {u : Unit}

/-- The weathers of a download, which follow its second row. -/
def weathers (env : Environment) : List Bytes := ((env.rows .weather).drop 2).map fun row => row.getD 2 []

theorem runs_readWeatherRow {row : CsvRow} (h : Runs (readWeatherRow row) s u t) :
    t = { s with weatherIdx := s.weatherIdx ++ [row.getD 2 []] } := by
  simp only [readWeatherRow, field, runs_bind, runs_given, runs_perform] at h
  obtain ⟨text, _, ⟨htext, rfl⟩, rfl⟩ := h
  rw [List.getD_eq_getElem?_getD, htext]
  rfl

theorem runs_insertWeather {weather : Bytes × Nat} (h : Runs (insertWeather env weather) s u t) :
    t = { s with weather := s.weather ++ [weather.1] } := by
  simp only [insertWeather, runs_bind, runs_proceed, runs_fits, runs_perform] at h
  obtain ⟨_, _, ⟨_, rfl⟩, _, _, ⟨_, rfl⟩, rfl⟩ := h
  rfl

theorem updateWeather_eq (h : Runs (updateWeather env) s u t) :
    t = { s with weatherIdx := weathers env, weather := weathers env } := by
  simp only [updateWeather, runs_bind, runs_proceed, runs_perform, runs_read] at h
  obtain ⟨_, _, ⟨_, rfl⟩, _, _, rfl, _, _, ⟨_, rfl⟩, _, m, hrows, _, _, ⟨_, rfl⟩, _, _, rfl, _, _, ⟨rfl, rfl⟩,
    hinserts⟩ := h
  have hread := eachRow_foldl (g := fun s row => { s with weatherIdx := s.weatherIdx ++ [row.getD 2 []] })
    (fun _ _ _ _ => runs_readWeatherRow) hrows
  rw [foldl_field Data.weatherIdx (fun s v => { s with weatherIdx := v }) (fun v (row : CsvRow) => v ++ [row.getD 2 []])
    (fun _ _ => rfl) (fun _ _ _ => rfl) (fun _ => rfl)] at hread
  have hinsert := hinserts.each_foldl (fun _ _ _ _ => runs_insertWeather)
  rw [foldl_field Data.weather (fun s v => { s with weather := v }) (fun v (weather : Bytes × Nat) => v ++ [weather.1])
    (fun _ _ => rfl) (fun _ _ _ => rfl) (fun _ => rfl)] at hinsert
  have hpush (rows : List CsvRow) (v : List Bytes) : rows.foldl (fun v row => v ++ [row.getD 2 []]) v =
      v ++ rows.map fun row => row.getD 2 [] := by rw [← foldl_snoc, List.foldl_map]
  have hput (rows : List (Bytes × Nat)) (v : List Bytes) : rows.foldl (fun v weather => v ++ [weather.1]) v =
      v ++ rows.map Prod.fst := by rw [← foldl_snoc, List.foldl_map]
  rw [hinsert, hread, hpush, hput, List.zipIdx_map_fst]
  rfl

def places (lib : Library) (env : Environment) : FiniteMap Int32 Bytes :=
  ((env.rows .placeName).drop 2).foldl (fun ret row => emplace ret ((intAt lib row 0).getD 0) (row.getD 1 [])) ∅

theorem getCodeLocation_eq {codes : FiniteMap Int32 Bytes} (h : Runs (getCodeLocation lib env) s codes t) :
    codes = places lib env ∧ t = s := by
  simp only [getCodeLocation, runs_bind, runs_proceed] at h
  obtain ⟨_, _, ⟨_, rfl⟩, _, _, ⟨_, rfl⟩, h⟩ := h
  rw [places, ← Nat.sub_zero 2, ← foldl_zipIdx_skip]
  refine Runs.fold_foldl (fun row _ ret s ret' t hturn => ?_) h
  obtain ⟨_, m, hpass, hrow⟩ := runs_bind.mp hturn
  obtain ⟨_, rfl⟩ := runs_proceed.mp hpass
  split at hrow
  next hi =>
    rw [if_pos hi]
    exact runs_pure.mp hrow
  next hi =>
    simp only [intField, field, runs_bind, runs_given, runs_pure] at hrow
    obtain ⟨code, _, ⟨hcode, rfl⟩, name, _, ⟨hname, rfl⟩, rfl, rfl⟩ := hrow
    rw [if_neg hi, hcode, List.getD_eq_getElem?_getD, hname]
    exact ⟨rfl, rfl⟩

/-- What a row of the territories says of a place. -/
def territory (lib : Library) (codes : FiniteMap Int32 Bytes) (row : CsvRow) : Option (Bytes × Int32) := do
  let code ← intAt lib row 6
  if code = 0 then none
  else
    let name ← codes.lookup code
    if (row.getD 1 []).contains (char '_') then none
    else return (name, ← intAt lib row 13)

def territories (lib : Library) (env : Environment) : List (Bytes × Int32) :=
  ((env.rows .territoryType).drop 2).filterMap (territory lib (places lib env))

def namesText (lib : Library) (alterNameIdx : FiniteMap Bytes Bytes) (location : Bytes) : Option Bytes :=
  match getAlterName alterNameIdx location with
  | some names => lib.dump names
  | none => some (bytes "[]")

def entered (lib : Library) (alterNameIdx : FiniteMap Bytes Bytes) (s : Data) (place : Bytes × Int32) : Data :=
  if (s.locationIdx.lookup place.1).isSome then s
  else { s with
    locationIdx := emplace s.locationIdx place.1 place.2
    location := s.location ++ [⟨place.1, (namesText lib alterNameIdx place.1).getD [], place.2⟩] }

theorem runs_alterText {idx : FiniteMap Bytes Bytes} {location text : Bytes} :
    Runs (alterText lib (getAlterName idx) location) s text t ↔ namesText lib idx location = some text ∧ t = s := by
  rw [alterText, namesText]
  cases getAlterName idx location with
  | none => simp [runs_pure, eq_comm (a := text)]
  | some names => exact runs_given

theorem runs_insertLocation {idx : FiniteMap Bytes Bytes} {location : Bytes} {rate : Int32} {i : Nat}
    (h : Runs (insertLocation lib env (getAlterName idx) location rate i) s u t) : ∃ text,
    namesText lib idx location = some text ∧ t = { s with
      locationIdx := emplace s.locationIdx location rate
      location := s.location ++ [⟨location, text, rate⟩] } := by
  simp only [insertLocation, runs_bind, runs_perform, runs_proceed, runs_fits, runs_alterText] at h
  obtain ⟨_, _, rfl, text, _, ⟨htext, rfl⟩, _, _, ⟨_, rfl⟩, _, _, ⟨_, rfl⟩, _, _, ⟨_, rfl⟩, rfl⟩ := h
  exact ⟨text, htext, rfl⟩

theorem runs_updateTerritoryRow {codes : FiniteMap Int32 Bytes} {idx : FiniteMap Bytes Bytes} {row : CsvRow} {i : Nat}
    (h : Runs (updateTerritoryRow lib env codes (getAlterName idx) row i) s u t) :
    (t = s ∧ ∀ place, territory lib codes row = some place → (s.locationIdx.lookup place.1).isSome) ∨
      ∃ place text, territory lib codes row = some place ∧ ¬ (s.locationIdx.lookup place.1).isSome ∧
        namesText lib idx place.1 = some text ∧ t = { s with
          locationIdx := emplace s.locationIdx place.1 place.2
          location := s.location ++ [⟨place.1, text, place.2⟩] } := by
  simp only [updateTerritoryRow, intField, runs_bind, runs_given] at h
  obtain ⟨code, _, ⟨hcode, rfl⟩, h⟩ := h
  rw [territory, hcode, Option.bind_eq_bind, Option.bind_some]
  split at h
  next hz => exact .inl ⟨(runs_pure.mp h).2, by simp [hz]⟩
  next hz =>
    rw [if_neg hz]
    cases hname : codes.lookup code with
    | none =>
        rw [hname] at h
        exact .inl ⟨(runs_pure.mp h).2, by simp⟩
    | some name =>
        rw [hname] at h
        obtain ⟨_, _, hknown, hrest⟩ := runs_bind.mp h
        obtain ⟨rfl, rfl⟩ := runs_read.mp hknown
        rw [Option.bind_eq_bind, Option.bind_some]
        split at hrest
        next hin =>
          refine .inl ⟨(runs_pure.mp hrest).2, fun place hplace => ?_⟩
          split at hplace
          · cases hplace
          · obtain ⟨rate, _, hplace⟩ := Option.bind_eq_some_iff.mp hplace
            cases hplace
            exact hin
        next hin =>
          simp only [field, runs_bind, runs_given] at hrest
          obtain ⟨text, _, ⟨htext, rfl⟩, hrest⟩ := hrest
          rw [List.getD_eq_getElem?_getD, htext, Option.getD_some]
          split at hrest
          next hc => exact .inl ⟨(runs_pure.mp hrest).2, by simp [List.contains_iff_mem.mp hc]⟩
          next hc =>
            simp only [runs_bind, runs_given] at hrest
            obtain ⟨rate, _, ⟨hrate, rfl⟩, hrest⟩ := hrest
            obtain ⟨text, htext, rfl⟩ := runs_insertLocation hrest
            exact .inr ⟨(name, rate), text, by rw [if_neg hc, hrate]; rfl, hin, htext, rfl⟩

theorem eachRow_invariant {file : File} {body : CsvRow → Nat → Act Unit} (I : Data → Prop)
    (hI : ∀ row i s t, I s → Runs (body row i) s () t → I t) (h : Runs (eachRow env file body) s u t) (hs : I s) :
    I t := by
  refine Runs.each_invariant (fun _ => I) (fun _ r s t _ hs hturn => ?_) h [] hs
  obtain ⟨_, m, hpass, hr⟩ := runs_bind.mp hturn
  obtain ⟨_, rfl⟩ := runs_proceed.mp hpass
  split at hr
  next hi => exact (runs_pure.mp hr).2 ▸ hs
  next hi => exact hI _ _ _ _ hs hr

theorem updateTerritoryInfo_eq (h : Runs (updateTerritoryInfo lib env) s u t) :
    t = (territories lib env).foldl (entered lib s.alterNameIdx) { s with location := [] } ∧
      ∀ row ∈ t.location, namesText lib s.alterNameIdx row.location = some row.alterName := by
  simp only [updateTerritoryInfo, runs_bind, runs_proceed, runs_perform, runs_read] at h
  obtain ⟨_, _, ⟨_, rfl⟩, _, _, ⟨_, rfl⟩, codes, _, hcodes, _, _, ⟨rfl, rfl⟩, _, _, ⟨_, rfl⟩, _, _, rfl, hrows⟩ := h
  obtain ⟨rfl, rfl⟩ := getCodeLocation_eq hcodes
  constructor
  · rw [territories, List.foldl_filterMap]
    refine eachRow_foldl (fun row i s t hrow => ?_) hrows
    rcases runs_updateTerritoryRow hrow with ⟨rfl, hknown⟩ | ⟨place, text, hplace, hnew, htext, rfl⟩
    · split
      next place hplace => rw [entered, if_pos (hknown place hplace)]
      next => rfl
    · rw [hplace]
      change _ = entered lib _ _ place
      rw [entered, if_neg hnew, htext]
      rfl
  · refine eachRow_invariant
      (fun v => ∀ row ∈ v.location, namesText lib _ row.location = some row.alterName) ?_ hrows ?_
    · intro row i s t hs hrow
      rcases runs_updateTerritoryRow hrow with ⟨rfl, _⟩ | ⟨place, text, _, _, htext, rfl⟩
      · exact hs
      · intro r hr
        rcases List.mem_append.mp hr with hr | hr
        · exact hs r hr
        · cases List.mem_singleton.mp hr
          exact htext
    · exact fun _ hr => absurd hr List.not_mem_nil

/-- The pairs of a row, with the rates summed up to a hundred. -/
def cumulate (lib : Library) : Int32 → List Bytes → List WeatherRate
  | tmp, weather :: rate :: rest =>
      if tmp = 100 then []
      else
        let tmp := tmp + (lib.getInt rate).getD 0
        ⟨(lib.getInt weather).getD 0, tmp⟩ :: cumulate lib tmp rest
  | _, _ => []

def csvRates (lib : Library) (row : CsvRow) : List WeatherRate := cumulate lib 0 row.tail

def listOf (list : Json) (rates : List WeatherRate) : Json :=
  rates.foldl (fun list w => pushBack list (rateJson w)) list

def rateList (rates : List WeatherRate) : Json := listOf .null rates

def derivedRates (lib : Library) (env : Environment) : List (Int32 × List WeatherRate) :=
  ((env.rows .weatherRate).drop 2).map fun row => ((intAt lib row 0).getD 0, csvRates lib row)

theorem cumulate_full (row : List Bytes) : cumulate lib 100 row = [] := by
  cases row with
  | nil => rfl
  | cons weather row => cases row <;> rfl

theorem cumulate_short (tmp : Int32) {row : List Bytes} (h : row.length < 2) : cumulate lib tmp row = [] := by
  cases row with
  | nil => rfl
  | cons weather row =>
      cases row with
      | nil => rfl
      | cons rate row => exact absurd h (by simp)

/-- The inner loop over the indexes has the pairs at the odd ones. -/
theorem runs_ratesFrom {row : CsvRow} {rate : Int32} {n i : Nat} {tmp : Int32} {list out : Json}
    (hn : i + n = row.length - 1) (h : Runs (ratesFrom lib row rate (List.range' i n) tmp list) s out t) :
    out = listOf list (cumulate lib tmp (row.drop (i + (i + 1) % 2))) ∧
      t = { s with weatherRateIdx :=
        ((cumulate lib tmp (row.drop (i + (i + 1) % 2))).foldl (fun idx w => pushed idx rate w) s.weatherRateIdx) } := by
  induction n generalizing i tmp list s with
  | zero =>
      obtain ⟨rfl, rfl⟩ := runs_pure.mp h
      rw [cumulate_short tmp (by rw [List.length_drop]; omega)]
      exact ⟨rfl, rfl⟩
  | succ n ih =>
      rw [List.range'_succ, ratesFrom] at h
      split at h
      next hfull =>
        obtain ⟨rfl, rfl⟩ := runs_pure.mp h
        rw [hfull, cumulate_full]
        exact ⟨rfl, rfl⟩
      next hfull =>
        split at h
        next hodd =>
          simp only [intField, runs_bind, runs_given, runs_addInt, runs_perform] at h
          obtain ⟨more, _, ⟨hmore, rfl⟩, sum, _, ⟨_, rfl, rfl⟩, _, _, rfl, weather, _, ⟨hweather, rfl⟩, _, _, rfl, h⟩ := h
          have hi : i < row.length := by omega
          have hi' : i + 1 < row.length := by omega
          have hhere : i + (i + 1) % 2 = i := by omega
          have hnext : i + 1 + (i + 1 + 1) % 2 = i + 2 := by omega
          have hdrop : row.drop i = row[i] :: row[i + 1] :: row.drop (i + 2) := by
            rw [List.drop_eq_getElem_cons hi, List.drop_eq_getElem_cons hi']
          rw [intAt, List.getElem?_eq_getElem hi', Option.bind_some] at hmore
          rw [intAt, List.getElem?_eq_getElem hi, Option.bind_some] at hweather
          obtain ⟨hout, ht⟩ := ih (by omega) h
          rw [hhere, hdrop, cumulate, if_neg hfull, hmore, hweather, hout, ht, hnext]
          refine ⟨rfl, ?_⟩
          rw [apply, apply, pushed_touched]
          rfl
        next heven =>
          have hparity : i + (i + 1) % 2 = i + 1 + (i + 1 + 1) % 2 := by omega
          rw [hparity]
          exact ih (by omega) h

theorem runs_updateRateRow {row : CsvRow} {i : Nat} (h : Runs (updateRateRow lib env row i) s u t) :
    ∃ text, lib.dump (rateList (csvRates lib row)) = some text ∧ t = { s with
      weatherRateIdx := ((csvRates lib row).foldl (fun idx w => pushed idx ((intAt lib row 0).getD 0) w)
        s.weatherRateIdx)
      weatherRate := s.weatherRate ++ [⟨(intAt lib row 0).getD 0, text⟩] } := by
  simp only [updateRateRow, intField, runs_bind, runs_given, runs_proceed, runs_fits, runs_newKey, runs_perform] at h
  obtain ⟨rate, _, ⟨hrate, rfl⟩, list, _, hlist, text, _, ⟨htext, rfl⟩, _, _, ⟨_, rfl⟩, _, _, ⟨_, rfl⟩, _, _,
    ⟨_, rfl⟩, rfl⟩ := h
  rw [List.range_eq_range'] at hlist
  obtain ⟨rfl, rfl⟩ := runs_ratesFrom (Nat.zero_add _) hlist
  rw [hrate]
  rw [List.drop_one] at htext ⊢
  exact ⟨text, htext, rfl⟩

theorem foldl_rates (rows : List (Int32 × List WeatherRate)) (text : List WeatherRate → Bytes) (s : Data) :
    rows.foldl (fun s r => { s with
      weatherRateIdx := r.2.foldl (fun idx w => pushed idx r.1 w) s.weatherRateIdx
      weatherRate := s.weatherRate ++ [⟨r.1, text r.2⟩] }) s = { s with
      weatherRateIdx := pushes s.weatherRateIdx rows
      weatherRate := s.weatherRate ++ rows.map fun r => ⟨r.1, text r.2⟩ } := by
  induction rows generalizing s with
  | nil => simp [pushes]
  | cons r rows ih => simp [ih, pushes]

theorem updateWeatherRate_eq (h : Runs (updateWeatherRate lib env) s u t) :
    t = { s with
      weatherRateIdx := pushes s.weatherRateIdx (derivedRates lib env)
      weatherRate := (derivedRates lib env).map fun r => ⟨r.1, (lib.dump (rateList r.2)).getD []⟩ } ∧
    ∀ r ∈ derivedRates lib env, (lib.dump (rateList r.2)).isSome := by
  simp only [updateWeatherRate, runs_bind, runs_proceed, runs_perform] at h
  obtain ⟨_, _, ⟨_, rfl⟩, _, _, ⟨_, rfl⟩, _, _, ⟨_, rfl⟩, _, _, rfl, hrows⟩ := h
  constructor
  · have hfold := eachRow_foldl (g := fun s row => { s with
      weatherRateIdx := ((csvRates lib row).foldl (fun idx w => pushed idx ((intAt lib row 0).getD 0) w)
        s.weatherRateIdx)
      weatherRate := s.weatherRate ++
        [⟨(intAt lib row 0).getD 0, (lib.dump (rateList (csvRates lib row))).getD []⟩] }) ?_ hrows
    · rw [hfold]
      exact (List.foldl_map).symm.trans
        (foldl_rates (derivedRates lib env) (fun rates => (lib.dump (rateList rates)).getD []) _)
    · intro row i s t hrow
      obtain ⟨text, htext, rfl⟩ := runs_updateRateRow hrow
      rw [htext]
      rfl
  · intro r hr
    obtain ⟨row, hrow, rfl⟩ := List.mem_map.mp hr
    obtain ⟨i, s, t, hrun⟩ := eachRow_forall hrows row hrow
    obtain ⟨text, htext, _⟩ := runs_updateRateRow hrun
    rw [htext]
    rfl

/-- The places that are new to an index, each as it comes first. -/
def news (idx : FiniteMap Bytes Int32) : List (Bytes × Int32) → List (Bytes × Int32)
  | [] => []
  | place :: places =>
      if (idx.lookup place.1).isSome then news idx places
      else place :: news (idx.insert place.1 place.2) places

def locationRow (lib : Library) (alterNameIdx : FiniteMap Bytes Bytes) (place : Bytes × Int32) : LocationRow :=
  ⟨place.1, (namesText lib alterNameIdx place.1).getD [], place.2⟩

theorem foldl_entered (idx : FiniteMap Bytes Bytes) (ps : List (Bytes × Int32)) (s : Data) :
    ps.foldl (entered lib idx) s = { s with
      locationIdx := ps.foldl (fun idx p => emplace idx p.1 p.2) s.locationIdx
      location := s.location ++ (news s.locationIdx ps).map (locationRow lib idx) } := by
  induction ps generalizing s with
  | nil => simp [news]
  | cons p ps ih =>
      rw [List.foldl_cons, ih, entered, news, List.foldl_cons]
      split
      next h =>
        obtain ⟨rate, hrate⟩ := Option.isSome_iff_exists.mp h
        rw [emplace_present _ hrate]
      next h =>
        rw [emplace_new _ (Option.not_isSome_iff_eq_none.mp h), List.map_cons, List.append_assoc]
        rfl

/-- What a call leaves that returns true, from what its Init has loaded. -/
structure Updated (lib : Library) (env : Environment) (k t : Data) : Prop where
  weatherIdx : t.weatherIdx = weathers env
  weather : t.weather = weathers env
  alterNameIdx : t.alterNameIdx = k.alterNameIdx
  locationIdx : t.locationIdx = (territories lib env).foldl (fun idx p => emplace idx p.1 p.2) k.locationIdx
  location : t.location = (news k.locationIdx (territories lib env)).map (locationRow lib k.alterNameIdx)
  names : ∀ row ∈ t.location, namesText lib k.alterNameIdx row.location = some row.alterName
  weatherRateIdx : t.weatherRateIdx = pushes k.weatherRateIdx (derivedRates lib env)
  weatherRate : t.weatherRate = (derivedRates lib env).map fun r => ⟨r.1, (lib.dump (rateList r.2)).getD []⟩
  dumped : ∀ r ∈ derivedRates lib env, (lib.dump (rateList r.2)).isSome

theorem updated_of_runs (h : Runs (update lib env) s true t) :
    Readable lib s ∧ Updated lib env (loaded lib s) t := by
  rcases runs_recover.mp h with h | ⟨e, _, h⟩
  · simp only [runs_bind, runs_init, runs_pure] at h
    obtain ⟨_, _, ⟨_, hread, rfl⟩, _, m, hweather, _, m', hterritory, _, _, hrate, _, rfl⟩ := h
    obtain rfl := updateWeather_eq hweather
    obtain ⟨hm, hnames⟩ := updateTerritoryInfo_eq hterritory
    rw [foldl_entered] at hm
    subst hm
    obtain ⟨ht, hdumped⟩ := updateWeatherRate_eq hrate
    subst ht
    exact ⟨hread, rfl, rfl, rfl, rfl, rfl, hnames, rfl, rfl, hdumped⟩
  · cases (runs_pure.mp h).1

end Updating

end MigangBot.EorzeanWeather
