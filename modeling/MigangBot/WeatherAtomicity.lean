import MigangBot.WeatherCourses

namespace MigangBot.WeatherAtomicity

open Lib.Exceptions Lib.Effects Lib.Effects.Act Lib.Courses Lib.Courses.Course Text JsonValue EorzeanWeather
open WeatherCourses

section Claim

variable {lib : Library} {env : Environment} {s : Data}

/-- All of a call, from its start. -/
def updateCourse (lib : Library) (env : Environment) (s : Data) : Course :=
  (openingCourse env).andThen <| ((loadingCourse lib env s).leaving (s.weather = [])).andThen <|
    (weatherCourse env s).andThen <| (territoryCourse lib env s).andThen (weatherRateCourse lib env s)

theorem follows_initWeather : Follows indexes (initWeather env) s (point env (.select .weather)) ()
    (midway s (s.weatherIdx ++ s.weather) s.weather s.location s.weatherRate) := by
  have hrows : Follows indexes (each s.weather fun row => perform (.pushWeather row) : Act Unit)
      (midway s (s.weatherIdx ++ []) s.weather s.location s.weatherRate) done ()
      (midway s (s.weatherIdx ++ ([] ++ s.weather)) s.weather s.location s.weatherRate) := by
    apply follows_each_done (g := fun weathers => midway s (s.weatherIdx ++ weathers) s.weather s.location
      s.weatherRate) settled_indexes
    intro weathers row
    exact follows_step rfl (by simp [apply, midway])
  have hstart : midway s (s.weatherIdx ++ []) s.weather s.location s.weatherRate = s := by simp [midway]
  rw [hstart, List.nil_append] at hrows
  rw [← andThen_done (point _ _)]
  apply follows_proceed.bind settled_indexes
  exact follows_bind_read settled_indexes hrows

theorem follows_loading : Follows indexes (initWeatherRate lib env >>= fun _ => initLocation lib env) s
    (loadingCourse lib env s) () s :=
  follows_initWeatherRate.bind settled_indexes follows_initLocation

theorem halts_init {β : Type} {rest : Act β} {d : Course} (hrest :
      Halts indexes rest (midway s (s.weatherIdx ++ s.weather) s.weather s.location s.weatherRate) s ↔ d.stops) :
    Halts indexes (init lib env >>= fun _ => rest) s s ↔
      ((openingCourse env).andThen <| ((loadingCourse lib env s).leaving (s.weather = [])).andThen d).stops := by
  have hself : s = s ↔ True := by simp
  have hempty : s = midway s (s.weatherIdx ++ s.weather) s.weather s.location s.weatherRate ↔ s.weather = [] := by
    simp [eq_midway_iff]
  have hload : Halts indexes (initWeatherRate lib env >>= fun _ => initLocation lib env >>= fun _ => rest)
      (midway s (s.weatherIdx ++ s.weather) s.weather s.location s.weatherRate) s ↔
        (((loadingCourse lib env s).leaving (s.weather = [])).andThen d).stops := by
    rw [← bind_bind]
    exact follows_loading.halts_bind_leaving settled_indexes hempty hrest
  simp only [init, bind_bind, openingCourse, andThen_assoc]
  rw [← true_and (Course.stops _)]
  apply follows_createTable.halts_bind_iff settled_indexes hself
  apply follows_createTable.halts_bind_iff settled_indexes hself
  apply follows_createTable.halts_bind_iff settled_indexes hself
  apply follows_initWeather.halts_bind_iff settled_indexes hself
  rw [hload, true_and]

theorem halts_update : Halts indexes (init lib env >>= fun _ => updateWeather env >>= fun _ =>
      updateTerritoryInfo lib env >>= fun _ => updateWeatherRate lib env >>= fun _ => pure true) s s ↔
    (updateCourse lib env s).stops := by
  apply halts_init
  apply halts_updateWeather
  intro weatherIdx weather
  apply halts_updateTerritoryInfo
  intro location
  exact halts_updateWeatherRate

/-- A call that returns false has left everything as it was exactly when it
could fail without a trace. -/
theorem update_atomic_iff (h : (update lib env).outcome s = .ok false) :
    (update lib env).after s = s ↔ (updateCourse lib env s).stops := by
  rw [← halts_update]
  rcases runs_recover.mp ⟨h, rfl⟩ with hreturned | ⟨e, he, hhandler⟩
  · simp only [runs_bind] at hreturned
    obtain ⟨_, _, _, _, _, _, _, _, _, _, _, _, hend⟩ := hreturned
    cases (runs_pure.mp hend).1
  · have hafter : (update lib env).after s = _ := (runs_pure.mp hhandler).2
    rw [hafter]
    constructor
    · intro hsame
      exact ⟨⟨⟨e, he⟩, hsame⟩, rfl⟩
    · intro hhalts
      exact hhalts.stops.after

/-- With a weather and a rate in the tables a failure leaves no trace only before
they are loaded. -/
theorem stops_iff_opening {row : WeatherRateRow} (hweather : s.weather ≠ []) (hrow : row ∈ s.weatherRate)
    (hread : readableRates lib row) (hrates : rowRates lib row ≠ []) :
    (updateCourse lib env s).stops ↔ (openingCourse env).stops := by
  constructor
  · rintro (hopening | ⟨_, hloading | ⟨hloading, _⟩⟩)
    · exact hopening
    · exact absurd hloading.2 hweather
    · obtain ⟨list, hlist, hread⟩ := hread
      obtain ⟨⟨_, hrows⟩, _⟩ := hloading
      have hpasses := hrows row hrow
      rw [rowRates, rowElements, hlist, Option.map_some, Option.getD_some, ne_eq, List.map_eq_nil_iff] at hrates
      obtain ⟨w, ws, hw⟩ := List.exists_cons_of_ne_nil hrates
      have hmem : w ∈ elements list := by
        rw [hw]
        exact List.mem_cons_self
      obtain ⟨rate, hrate⟩ := hread w hmem
      rw [loadRateCourse, hlist] at hpasses
      have hstep := (hpasses w hmem).2
      rw [hrate] at hstep
      exact hstep.elim
  · exact .inl

def blind : Library := ⟨fun _ => none, fun _ => none, fun _ => none⟩

/-- One place throws. -/
def failing (p : Point) : Environment := ⟨fun _ => [], fun q => if q = p then some .sqlpp else none⟩

/-- One weather, in the index as in the table. -/
def synced : Data := ⟨∅, [bytes "晴朗"], ∅, ∅, [bytes "晴朗"], [], []⟩

theorem update_atomic_iff_select : (update blind (failing (.select .weather))).after synced = synced ↔
    (updateCourse blind (failing (.select .weather)) synced).stops :=
  update_atomic_iff rfl

/-- Without the first download every weather is in the index twice. -/
theorem failed_update_doubles : ¬ ∀ (lib : Library) (env : Environment) (s : Data),
    (update lib env).outcome s = .ok false → (update lib env).after s = s := by
  intro hall
  have h := congrArg Data.weatherIdx (hall blind (failing (.fetch .weather)) synced rfl)
  revert h
  decide

end Claim

end MigangBot.WeatherAtomicity
