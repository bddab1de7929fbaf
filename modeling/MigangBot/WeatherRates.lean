import MigangBot.Lib.Cumulative
import MigangBot.Lib.Words
import MigangBot.WeatherConsistency
import MigangBot.WeatherForecast

namespace MigangBot.WeatherRates

open Lib.Exceptions Lib.Effects Lib.Effects.Act Lib.Maps Lib.Words Lib.Cumulative Text JsonValue
open EorzeanWeather WeatherConsistency
open Blacklists (characters)

/-- A weather and its rate, as two columns of a row give them. -/
abbrev Pair := Int32 × Int32

def weights (pairs : List Pair) : List Int := pairs.map fun p => p.2.toInt

/-- The first columns hold some pairs; what comes after them is not said. -/
inductive HoldsPairs (lib : Library) : List Bytes → List Pair → Prop
  | nil (rest : List Bytes) : HoldsPairs lib rest []
  | cons {weatherText rateText : Bytes} {cols : List Bytes} {weather rate : Int32} {pairs : List Pair} :
      lib.getInt weatherText = some weather → lib.getInt rateText = some rate → HoldsPairs lib cols pairs →
      HoldsPairs lib (weatherText :: rateText :: cols) ((weather, rate) :: pairs)

/-- The entries that the pairs make, from a sum on. -/
def entriesFrom (tmp : Int32) : List Pair → List WeatherRate
  | [] => []
  | (weather, rate) :: pairs => ⟨weather, tmp + rate⟩ :: entriesFrom (tmp + rate) pairs

/-- The rates are not negative, and sum up to a hundred with the last of them and
not before. -/
structure Full (tmp : Int32) (pairs : List Pair) : Prop where
  start : 0 ≤ tmp.toInt
  nonneg : ∀ w ∈ weights pairs, 0 ≤ w
  total : tmp.toInt + (weights pairs).sum = 100
  first : ∀ k < pairs.length, tmp.toInt + ((weights pairs).take k).sum ≠ 100

section Sums

variable {tmp weather rate : Int32} {pairs : List Pair}

theorem Full.ne_full (h : Full tmp ((weather, rate) :: pairs)) : tmp ≠ 100 := by
  rintro rfl
  exact h.first 0 (Nat.zero_lt_succ _) rfl

theorem Full.rate_nonneg (h : Full tmp ((weather, rate) :: pairs)) : 0 ≤ rate.toInt :=
  h.nonneg _ List.mem_cons_self

theorem Full.fits (h : Full tmp ((weather, rate) :: pairs)) : Fits (tmp.toInt + rate.toInt) := by
  have htotal := h.total
  have hrate := h.rate_nonneg
  have hstart := h.start
  have hrest : 0 ≤ (weights pairs).sum := List.sum_nonneg fun w hw => h.nonneg w (List.mem_cons_of_mem _ hw)
  change tmp.toInt + (rate.toInt + (weights pairs).sum) = 100 at htotal
  exact ⟨by omega, by omega⟩

theorem Full.toInt_add (h : Full tmp ((weather, rate) :: pairs)) : (tmp + rate).toInt = tmp.toInt + rate.toInt :=
  Lib.Words.toInt_add h.fits

theorem Full.tail (h : Full tmp ((weather, rate) :: pairs)) : Full (tmp + rate) pairs := by
  have hadd := h.toInt_add
  refine ⟨?_, fun w hw => h.nonneg w (List.mem_cons_of_mem _ hw), ?_, ?_⟩
  · rw [hadd]
    exact Int.add_nonneg h.start h.rate_nonneg
  · rw [hadd, add_assoc]
    exact h.total
  · intro k hk
    rw [hadd, add_assoc]
    exact h.first (k + 1) (Nat.succ_lt_succ hk)

theorem rates_entriesFrom (h : Full tmp pairs) :
    (entriesFrom tmp pairs).map (fun e => e.rate.toInt) = sums tmp.toInt (weights pairs) := by
  induction pairs generalizing tmp with
  | nil => rfl
  | cons p pairs ih =>
      obtain ⟨weather, rate⟩ := p
      rw [entriesFrom, List.map_cons, ih h.tail, h.toInt_add]
      rfl

theorem getElem?_entriesFrom (tmp : Int32) (pairs : List Pair) (k : Nat) :
    (entriesFrom tmp pairs)[k]?.map WeatherRate.weather = pairs[k]?.map Prod.fst := by
  induction pairs generalizing tmp k with
  | nil => rfl
  | cons p pairs ih =>
      obtain ⟨weather, rate⟩ := p
      cases k with
      | zero => rfl
      | succ k => exact ih (tmp + rate) k

end Sums

section Loop

variable {lib : Library} {env : Environment} {s : Data} {tmp rate : Int32} {pairs : List Pair}

theorem cumulate_eq {cols : List Bytes} (hcols : HoldsPairs lib cols pairs) (h : Full tmp pairs) :
    cumulate lib tmp cols = entriesFrom tmp pairs := by
  induction hcols generalizing tmp with
  | nil rest =>
      have htmp : tmp = 100 := by
        rw [← Int32.toInt_inj]
        simpa [weights] using h.total
      rw [htmp, cumulate_full]
      rfl
  | cons hweather hrate _ ih =>
      rw [cumulate, if_neg h.ne_full, hweather, hrate, Option.getD_some, Option.getD_some]
      exact congrArg (List.cons _) (ih h.tail)

theorem columns_of_drop {α : Type} {row cols : List α} {i : Nat} {a b : α} (h : row.drop i = a :: b :: cols) :
    row[i]? = some a ∧ row[i + 1]? = some b ∧ row.drop (i + 2) = cols := by
  have hone : row.drop (i + 1) = b :: cols := by rw [← List.tail_drop, h, List.tail_cons]
  refine ⟨?_, ?_, ?_⟩
  · rw [← List.head?_drop, h, List.head?_cons]
  · rw [← List.head?_drop, hone, List.head?_cons]
  · rw [← List.tail_drop, hone, List.tail_cons]

/-- The loop comes to its end. -/
theorem exists_ratesFrom {row : CsvRow} {n i : Nat} {list : Json} (hn : i + n = row.length - 1)
    (hcols : HoldsPairs lib (row.drop (i + (i + 1) % 2)) pairs) (h : Full tmp pairs) :
    ∃ out t, Runs (ratesFrom lib row rate (List.range' i n) tmp list) s out t := by
  induction n generalizing i tmp list s pairs with
  | zero => exact ⟨list, s, runs_pure.mpr ⟨rfl, rfl⟩⟩
  | succ n ih =>
      rw [List.range'_succ, ratesFrom]
      split
      next => exact ⟨list, s, runs_pure.mpr ⟨rfl, rfl⟩⟩
      next hfull =>
        split
        next hodd =>
          have hhere : i + (i + 1) % 2 = i := by omega
          rw [hhere] at hcols
          cases pairs with
          | nil => exact absurd (by simpa [weights] using h.total) (fun htmp => hfull (Int32.toInt_inj.mp htmp))
          | cons p pairs =>
              obtain ⟨weather, more⟩ := p
              generalize hdrop : row.drop i = cols at hcols
              cases hcols with
              | @cons weatherText rateText cols _ _ _ hweather hmore hrest =>
                  obtain ⟨hi, hi', hnext⟩ := columns_of_drop hdrop
                  have hparity : i + 1 + (i + 1 + 1) % 2 = i + 2 := by omega
                  obtain ⟨out, t, ht⟩ : ∃ out t, Runs (ratesFrom lib row rate (List.range' (i + 1) n) (tmp + more)
                      (pushBack list (rateJson ⟨weather, tmp + more⟩)))
                      (apply (apply s (.touchRate rate)) (.pushRate rate ⟨weather, tmp + more⟩)) out t :=
                    ih (by omega) (by rw [hparity, hnext]; exact hrest) h.tail
                  refine ⟨out, t, ?_⟩
                  simp only [intField, intAt, runs_bind, runs_given, runs_addInt, runs_perform]
                  exact ⟨more, _, ⟨by rw [hi', Option.bind_some, hmore], rfl⟩, tmp + more, _, ⟨h.fits, rfl, rfl⟩, (), _,
                    rfl, weather, _, ⟨by rw [hi, Option.bind_some, hweather], rfl⟩, (), _, rfl, ht⟩
        next heven =>
          have hparity : i + (i + 1) % 2 = i + 1 + (i + 1 + 1) % 2 := by omega
          rw [hparity] at hcols
          exact ih (by omega) hcols h

/-- Behind the loop no list of rates is touched, whether the row is stored or not. -/
theorem weatherRateIdx_store (i : Nat) (id : Int32) (list : Json) (s : Data) :
    ((do
      let text ← given (lib.dump list)
      proceed env (.insert .weatherRate i)
      fits 255 text
      newKey id
      perform (.insertWeatherRate ⟨id, text⟩) : Act Unit).after s).weatherRateIdx = s.weatherRateIdx := by
  have hgiven {α : Type} (x : Option α) (s : Data) : ((given x).after s).weatherRateIdx = s.weatherRateIdx := by
    cases x <;> rfl
  have hproceed (s : Data) : ((proceed env (.insert .weatherRate i)).after s).weatherRateIdx = s.weatherRateIdx := by
    rw [proceed]
    cases env.throws _ <;> rfl
  have hfits (text : Bytes) (s : Data) : ((fits 255 text).after s).weatherRateIdx = s.weatherRateIdx := by
    rw [fits]
    split <;> rfl
  have hkey (s : Data) : ((newKey id).after s).weatherRateIdx = s.weatherRateIdx := by
    rw [newKey]
    apply field_after_bind (fun _ => rfl)
    intro v s
    split <;> rfl
  apply field_after_bind (hgiven _)
  intro text
  apply field_after_bind hproceed
  intro _
  apply field_after_bind (hfits text)
  intro _
  apply field_after_bind hkey
  exact fun _ _ => rfl

theorem lookup_foldl_rates {idx : FiniteMap Int32 (List WeatherRate)} {id : Int32} {rates : List WeatherRate}
    (hempty : (idx.lookup id).getD [] = []) (hrates : rates ≠ []) :
    (rates.foldl (fun idx w => pushed idx id w) idx).lookup id = some rates := by
  rw [lookup_foldl_pushed, if_pos rfl, joined, if_neg hrates, hempty, List.nil_append]

theorem entriesFrom_ne_nil (h : Full 0 pairs) : entriesFrom 0 pairs ≠ [] := by
  cases pairs with
  | nil => exact absurd h.total (by decide)
  | cons p pairs => exact List.cons_ne_nil _ _

variable {row : CsvRow} {id : Int32} {text : Bytes} {i : Nat}

/-- What the loop over the columns of a row does. -/
theorem exists_rates (hcols : HoldsPairs lib row.tail pairs) (h : Full 0 pairs) (s : Data) :
    Runs (ratesFrom lib row id (List.range (row.length - 1)) 0 .null) s (rateList (entriesFrom 0 pairs))
      { s with weatherRateIdx := (entriesFrom 0 pairs).foldl (fun idx w => pushed idx id w) s.weatherRateIdx } := by
  have hdrop : row.drop (0 + (0 + 1) % 2) = row.tail := List.drop_one
  obtain ⟨out, m, hm⟩ : ∃ out m, Runs (ratesFrom lib row id (List.range' 0 (row.length - 1)) 0 .null) s out m :=
    exists_ratesFrom (Nat.zero_add _) (by rw [hdrop]; exact hcols) h
  obtain ⟨hout, hm'⟩ := runs_ratesFrom (Nat.zero_add _) hm
  rw [hdrop, cumulate_eq hcols h] at hout hm'
  subst hout hm'
  rw [List.range_eq_range']
  exact hm

/-- The list is in the index after the row, whether the row is stored or not. -/
theorem lookup_updateRateRow (hid : intAt lib row 0 = some id) (hcols : HoldsPairs lib row.tail pairs)
    (h : Full 0 pairs) (hempty : (s.weatherRateIdx.lookup id).getD [] = []) (env : Environment) (i : Nat) :
    ((updateRateRow lib env row i).after s).weatherRateIdx.lookup id = some (entriesFrom 0 pairs) := by
  have hfield : Runs (intField lib row 0) s id s := runs_given.mpr ⟨hid, rfl⟩
  have hlist := @exists_rates lib pairs row id hcols h s
  rw [updateRateRow, after_bind hfield.outcome, hfield.after, after_bind hlist.outcome, hlist.after,
    weatherRateIdx_store]
  exact lookup_foldl_rates hempty (entriesFrom_ne_nil h)

theorem runs_updateRateRow_new (hid : intAt lib row 0 = some id) (hcols : HoldsPairs lib row.tail pairs)
    (h : Full 0 pairs) (htext : lib.dump (rateList (entriesFrom 0 pairs)) = some text)
    (hinsert : env.throws (.insert .weatherRate i) = none) (hfits : characters text ≤ 255)
    (hnew : ∀ r ∈ s.weatherRate, r.weatherRate ≠ id) : Runs (updateRateRow lib env row i) s () { s with
      weatherRateIdx := (entriesFrom 0 pairs).foldl (fun idx w => pushed idx id w) s.weatherRateIdx
      weatherRate := s.weatherRate ++ [⟨id, text⟩] } := by
  have hkey : (s.weatherRate.any fun r => r.weatherRate = id) = false := by
    rw [List.any_eq_false]
    intro r hr
    simpa using hnew r hr
  simp only [updateRateRow, intField, runs_bind, runs_given, runs_proceed, runs_fits, runs_newKey, runs_perform]
  exact ⟨id, _, ⟨hid, rfl⟩, _, _, exists_rates hcols h s, text, _, ⟨htext, rfl⟩, (), _, ⟨hinsert, rfl⟩, (), _,
    ⟨hfits, rfl⟩, (), _, ⟨hkey, rfl⟩, rfl⟩

/-- The row that Init reads gives the list back. -/
theorem lookup_loaded (hlib : Sound lib) (h : Full 0 pairs)
    (htext : lib.dump (rateList (entriesFrom 0 pairs)) = some text) {rows : List WeatherRateRow}
    (hrows : s.weatherRate = rows ++ [⟨id, text⟩]) (hnew : ∀ r ∈ rows, r.weatherRate ≠ id)
    (hempty : (s.weatherRateIdx.lookup id).getD [] = []) :
    (loaded lib s).weatherRateIdx.lookup id = some (entriesFrom 0 pairs) := by
  have hold : (rows.map fun r => (r.weatherRate, rowRates lib r)).filter (fun r => r.1 = id) = [] := by
    rw [List.filter_eq_nil_iff]
    intro r hr
    obtain ⟨r', hr', rfl⟩ := List.mem_map.mp hr
    simpa using hnew r' hr'
  have hrates : rowRates lib ⟨id, text⟩ = entriesFrom 0 pairs := (readable_rates (hlib.rates _ _ htext)).2
  rw [lookup_loaded_rate, hrows, List.map_append, ratesOf, List.filter_append, hold, List.nil_append, List.map_singleton,
    List.filter_cons_of_pos (by simp), List.filter_nil, List.flatMap_singleton, hrates, joined,
    if_neg (entriesFrom_ne_nil h), hempty, List.nil_append]

end Loop

section Scan

/-- What a list of rates does for the pairs that it comes from. -/
structure Scans (pairs : List Pair) (rates : List WeatherRate) : Prop where
  sorted : (rates.map fun e => e.rate.toInt).Pairwise (· ≤ ·)
  last : rates.getLast?.map WeatherRate.rate = some 100
  weather : ∀ k : Nat, rates[k]?.map WeatherRate.weather = pairs[k]?.map Prod.fst
  selects : ∀ target : Int32, 0 ≤ target.toInt → ∀ k : Nat, rates.findIdx? (fun e => target < e.rate) = some k ↔
    k < pairs.length ∧ ((weights pairs).take k).sum ≤ target.toInt ∧ target.toInt < ((weights pairs).take (k + 1)).sum
  count : ∀ (k : Nat) (hk : k < pairs.length), ((Finset.Ico (0 : Int) 100).filter fun target =>
    rates.findIdx? (fun e => target < e.rate.toInt) = some k).card = pairs[k].2.toInt.toNat

variable {pairs : List Pair}

theorem findIdx?_entriesFrom (h : Full 0 pairs) (target : Int) :
    (entriesFrom 0 pairs).findIdx? (fun e => target < e.rate.toInt) =
      (sums 0 (weights pairs)).findIdx? fun a => target < a := by
  rw [← Int32.toInt_zero, ← rates_entriesFrom h, List.findIdx?_map]
  rfl

theorem length_weights (pairs : List Pair) : (weights pairs).length = pairs.length := List.length_map _

theorem Full.sum (h : Full 0 pairs) : (weights pairs).sum = 100 := (Int.zero_add _).symm.trans h.total

theorem last_entriesFrom (h : Full 0 pairs) : (entriesFrom 0 pairs).getLast?.map WeatherRate.rate = some 100 := by
  have hpos : 0 < pairs.length := List.length_pos_iff.mpr fun hnil => by
    subst hnil
    exact absurd h.total (by decide)
  have hlast : (sums 0 (weights pairs)).getLast? = some 100 := by
    rw [List.getLast?_eq_getElem?, length_sums, length_weights,
      getElem?_sums (by rw [length_weights]; omega), Nat.sub_add_cancel hpos, Int.zero_add,
      List.take_of_length_le (length_weights pairs).le, h.sum]
  rw [← Int32.toInt_zero, ← rates_entriesFrom h, List.getLast?_map, Option.map_eq_some_iff] at hlast
  obtain ⟨e, he, hrate⟩ := hlast
  rw [he, Option.map_some, Int32.toInt_inj.mp (hrate.trans (by decide : (100 : Int) = (100 : Int32).toInt))]

theorem scans_entriesFrom (h : Full 0 pairs) : Scans pairs (entriesFrom 0 pairs) where
  sorted := by
    rw [rates_entriesFrom h]
    exact pairwise_sums h.nonneg
  last := last_entriesFrom h
  weather := getElem?_entriesFrom 0 pairs
  selects target ht k := by
    simp only [Int32.lt_iff_toInt_lt]
    rw [findIdx?_entriesFrom h, findIdx?_sums h.nonneg ht, Int.zero_add, Int.zero_add, length_weights]
  count k hk := by
    simp only [findIdx?_entriesFrom h]
    rw [← h.sum, card_findIdx?_sums h.nonneg (by rw [length_weights]; exact hk)]
    exact congrArg Int.toNat (List.getElem_map _)

/-- The scan comes to the weather whose share of the hundred the target falls into. -/
theorem Scans.forecast {rates : List WeatherRate} (h : Scans pairs rates) (weatherIdx : List Bytes) {target : Int32}
    (ht : 0 ≤ target.toInt) {k : Nat} (hk : k < pairs.length) (hlow : ((weights pairs).take k).sum ≤ target.toInt)
    (hhigh : target.toInt < ((weights pairs).take (k + 1)).sum) :
    forecast weatherIdx rates target = weatherAt weatherIdx pairs[k].1 := by
  have hidx := (h.selects target ht k).mpr ⟨hk, hlow, hhigh⟩
  have hweather := h.weather k
  obtain ⟨hlen, habove, hbefore⟩ := List.findIdx?_eq_some_iff_getElem.mp hidx
  have hfind : rates.find? (fun e => target < e.rate) = some rates[k] :=
    List.find?_eq_some_iff_getElem.mpr ⟨habove, k, hlen, rfl, fun j hj => by simpa using hbefore j hj⟩
  rw [List.getElem?_eq_getElem hlen, List.getElem?_eq_getElem hk] at hweather
  rw [EorzeanWeather.forecast, hfind, ← Option.some.inj hweather]

/-- Some pair has the target in its share. -/
theorem exists_share (h : Full 0 pairs) {target : Int32} (ht : 0 ≤ target.toInt) (hlt : target.toInt < 100) :
    ∃ k < pairs.length, ((weights pairs).take k).sum ≤ target.toInt ∧
      target.toInt < ((weights pairs).take (k + 1)).sum := by
  obtain ⟨e, he, hlast⟩ := Option.map_eq_some_iff.mp (last_entriesFrom h)
  have hfound : ((entriesFrom 0 pairs).findIdx? fun e => target < e.rate).isSome := by
    rw [List.findIdx?_isSome, List.any_eq_true]
    refine ⟨e, List.mem_of_getLast? he, ?_⟩
    rw [hlast]
    simpa [Int32.lt_iff_toInt_lt] using hlt
  obtain ⟨k, hk⟩ := Option.isSome_iff_exists.mp hfound
  exact ⟨k, ((scans_entriesFrom h).selects target ht k).mp hk⟩

/-- What is shown for a location that has the list, at any date. -/
theorem calWeather_entriesFrom (h : Full 0 pairs) {s : Data} {id : Int32}
    (hrates : s.weatherRateIdx.lookup id = some (entriesFrom 0 pairs)) {location : Bytes}
    (hlocation : s.locationIdx.lookup location = some id) (date : Int32) : ∃ (k : Nat) (hk : k < pairs.length),
      ((weights pairs).take k).sum ≤ (forcastTarget date).toInt ∧
      (forcastTarget date).toInt < ((weights pairs).take (k + 1)).sum ∧
      calWeather s date location = weatherAt s.weatherIdx pairs[k].1 := by
  obtain ⟨hpos, hle⟩ := WeatherForecast.toInt_forcastTarget date
  obtain ⟨k, hk, hlow, hhigh⟩ := exists_share h hpos (by omega)
  refine ⟨k, hk, hlow, hhigh, ?_⟩
  rw [calWeather_eq, hlocation, ← (scans_entriesFrom h).forecast s.weatherIdx hpos hk hlow hhigh]
  simp only [hrates, shown]

end Scan

/-- A row whose rates sum up to a hundred: the list that it makes, the one that is
read back from the table, and what the scan does with them. -/
theorem rate_row_scanned {lib : Library} {row : CsvRow} {id : Int32} {pairs : List Pair}
    (hid : intAt lib row 0 = some id) (hcols : HoldsPairs lib row.tail pairs) (h : Full 0 pairs) :
    (∀ (env : Environment) (i : Nat) (s : Data), (s.weatherRateIdx.lookup id).getD [] = [] →
      ((updateRateRow lib env row i).after s).weatherRateIdx.lookup id = some (entriesFrom 0 pairs)) ∧
    Scans pairs (entriesFrom 0 pairs) ∧
    (Sound lib → ∀ (env : Environment) (i : Nat) (s : Data) (text : Bytes),
      lib.dump (rateList (entriesFrom 0 pairs)) = some text → env.throws (.insert .weatherRate i) = none →
      characters text ≤ 255 → (∀ r ∈ s.weatherRate, r.weatherRate ≠ id) →
      ∃ t, Runs (updateRateRow lib env row i) s () t ∧ t.weatherRate = s.weatherRate ++ [⟨id, text⟩] ∧
        ∀ (env' : Environment) (fresh : Data), Runs (init lib env') (restarted t) () fresh →
          fresh.weatherRateIdx.lookup id = some (entriesFrom 0 pairs)) ∧
    (∀ (weatherIdx : List Bytes) (target : Int32), 0 ≤ target.toInt → ∀ (k : Nat) (hk : k < pairs.length),
      ((weights pairs).take k).sum ≤ target.toInt → target.toInt < ((weights pairs).take (k + 1)).sum →
      forecast weatherIdx (entriesFrom 0 pairs) target = weatherAt weatherIdx pairs[k].1) ∧
    ∀ (s : Data) (location : Bytes), s.weatherRateIdx.lookup id = some (entriesFrom 0 pairs) →
      s.locationIdx.lookup location = some id → ∀ date : Int32, ∃ (k : Nat) (hk : k < pairs.length),
        ((weights pairs).take k).sum ≤ (forcastTarget date).toInt ∧
        (forcastTarget date).toInt < ((weights pairs).take (k + 1)).sum ∧
        calWeather s date location = weatherAt s.weatherIdx pairs[k].1 := by
  refine ⟨?_, scans_entriesFrom h, ?_, ?_, ?_⟩
  · intro env i s hempty
    exact lookup_updateRateRow hid hcols h hempty env i
  · intro hlib env i s text htext hinsert hfits hnew
    refine ⟨_, runs_updateRateRow_new hid hcols h htext hinsert hfits hnew, rfl, ?_⟩
    intro env' fresh hfresh
    obtain ⟨_, _, rfl⟩ := runs_init.mp hfresh
    exact lookup_loaded hlib h htext rfl hnew rfl
  · intro weatherIdx target ht k hk hlow hhigh
    exact (scans_entriesFrom h).forecast weatherIdx ht hk hlow hhigh
  · intro s location hrates hlocation date
    exact calWeather_entriesFrom h hrates hlocation date

/-- A fifth of rain and clear skies else, with columns behind that are not used. -/
def rainRow : CsvRow := [bytes "1", bytes "3", bytes "20", bytes "0", bytes "80", bytes "7", bytes "5"]

def rainRates : List WeatherRate := [⟨3, 20⟩, ⟨0, 100⟩]

def rainText : Bytes := bytes "[\x7b\"rate\":20,\"weather\":3\x7d,\x7b\"rate\":100,\"weather\":0\x7d]"

/-- The libraries on the one list of this row. -/
def rainLibrary : Library where
  getInt := library.getInt
  parse text := if text = rainText then some (rateList rainRates)
    else if text = bytes "[]" then some (.array []) else none
  dump
    | .array [v, w] => match readRate v, readRate w with
        | .ok first, .ok second => if [first, second] = rainRates then some rainText else none
        | _, _ => none
    | _ => none

theorem sound_rainLibrary : Sound rainLibrary where
  names names text h := by
    rcases names with _ | ⟨name, _ | ⟨name', _ | ⟨name'', names⟩⟩⟩ <;> cases h
  rates rates text h := by
    rcases rates with _ | ⟨v, _ | ⟨w, _ | ⟨w', rates⟩⟩⟩
    · cases h
    · rw [rateList_cons] at h
      cases h
    · rw [rateList_cons] at h
      change (match readRate (rateJson v), readRate (rateJson w) with
        | .ok first, .ok second => if [first, second] = rainRates then some rainText else none
        | _, _ => none) = some text at h
      rw [readRate_rateJson, readRate_rateJson] at h
      obtain ⟨hrates, htext⟩ := Option.ite_none_right_eq_some.mp h
      rw [← Option.some.inj htext, hrates]
      rfl
    · rw [rateList_cons] at h
      cases h
  empty := rfl

def skies : List Bytes := [bytes "晴朗", bytes "碧空", bytes "阴云", bytes "小雨"]

theorem rate_row_scanned_rain :
    ((updateRateRow rainLibrary download rainRow 2).after emptyTables).weatherRateIdx.lookup 1 = some rainRates ∧
    (∃ t, Runs (updateRateRow rainLibrary download rainRow 2) emptyTables () t ∧ t.weatherRate = [⟨1, rainText⟩] ∧
      ∀ (env : Environment) (fresh : Data), Runs (init rainLibrary env) (restarted t) () fresh →
        fresh.weatherRateIdx.lookup 1 = some rainRates) ∧
    forecast skies rainRates 19 = .ok (bytes "小雨") ∧ forecast skies rainRates 20 = .ok (bytes "晴朗") ∧
    ((Finset.Ico (0 : Int) 100).filter fun target =>
      rainRates.findIdx? (fun e => target < e.rate.toInt) = some 1).card = 80 := by
  have hcols : HoldsPairs rainLibrary rainRow.tail [(3, 20), (0, 80)] :=
    .cons (by decide +kernel) (by decide +kernel) (.cons (by decide +kernel) (by decide +kernel) (.nil _))
  have hfull : Full 0 [((3 : Int32), (20 : Int32)), (0, 80)] := ⟨by decide, by decide, by decide, by decide⟩
  obtain ⟨hlist, hscans, hstored, hforecast, _⟩ :=
    @rate_row_scanned rainLibrary rainRow 1 _ (by decide +kernel) hcols hfull
  refine ⟨hlist download 2 emptyTables rfl, ?_, ?_, ?_, hscans.count 1 (by decide)⟩
  · exact hstored sound_rainLibrary download 2 emptyTables rainText (by decide +kernel) rfl (by decide +kernel) (by decide)
  · exact hforecast skies 19 (by decide) 0 (by decide) (by decide) (by decide)
  · exact hforecast skies 20 (by decide) 1 (by decide) (by decide) (by decide)

end MigangBot.WeatherRates
