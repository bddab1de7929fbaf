import MigangBot.ApiTypes
import MigangBot.Lib.Maps
import MigangBot.Lib.Runs
import Mathlib.Data.List.Induction

namespace MigangBot.EchoCorrelation

open Lib.Exceptions Lib.Maps Lib.Runs Text JsonValue ApiTypes

/-- What Echo draws its code from: the microsecond clock and the uniform
distribution over [-10000, 10000]. -/
structure Reading where
  timestampMicro : Int64
  draw : Int64
  low : -10000 ≤ draw
  high : draw ≤ 10000

def Reading.echoCode (r : Reading) : Int64 := r.timestampMicro + r.draw * 10000

/-- The promise behind one API call: whether its future still owns it, and
what has been put into it, in order. -/
structure Call where
  echoCode : Int64
  type : ApiType
  alive : Bool
  values : List ApiValue

/-- The calls made so far, and the shared map of callbacks; a callback is the
position of the call whose promise it holds weakly. -/
structure Registry where
  calls : List Call
  callbacks : FiniteMap Int64 Nat

def Registry.empty : Registry := ⟨[], ∅⟩

/-- Echo: operator[] of the map assigns the callback under the code. -/
def Registry.echo (s : Registry) (r : Reading) (type : ApiType) : Registry :=
  ⟨s.calls ++ [⟨r.echoCode, type, true, []⟩], s.callbacks.insert r.echoCode s.calls.length⟩

def Registry.expire (s : Registry) (i : Nat) : Registry :=
  { s with calls := s.calls.modify i (fun c => { c with alive := false }) }

def Call.setValue (c : Call) (v : ApiValue) : Call := { c with values := c.values ++ [v] }

def Call.echoFunction (c : Call) (value : Json) : Outcome Call :=
  if !c.alive then .ok c
  else if value.isNull then .ok (c.setValue (defaultValue c.type))
  -- every std::exception is logged and swallowed here, the JSON ones included
  else catching (fun _ => some c) (do return c.setValue (← desiredValue value c.type))

/-- The branch of EventProcess for an event with a return code: look the code
up, run the callback on the data, erase the code. -/
def Registry.eventProcess (s : Registry) (echoCode : Int64) (data : Outcome Json) : Outcome Registry :=
  match s.callbacks.lookup echoCode with
  | none => .ok s
  | some i => do
      let value ← data
      match s.calls[i]? with
      | none => return { s with callbacks := s.callbacks.erase echoCode }
      | some c => do
          let c ← c.echoFunction value
          return ⟨s.calls.set i c, s.callbacks.erase echoCode⟩

structure System where
  registry : Registry
  sent : List Nat
  answered : List Nat

def System.init : System := ⟨.empty, [], []⟩

inductive Action
  | echo (r : Reading) (type : ApiType)
  | notify (i : Nat)
  | expire (i : Nat)
  | response (i : Nat) (data : Json)

/-- A response answers a request that was sent, and carries its code. It may
come at any later time, in any order and any number of times. -/
inductive Step : System → Action → System → Prop
  | echo (s : System) (r) (type) : Step s (.echo r type) { s with registry := s.registry.echo r type }
  | notify (s : System) (i) (hi : i < s.registry.calls.length) :
      Step s (.notify i) { s with sent := i :: s.sent }
  | expire (s : System) (i) (hi : i ∈ s.sent) :
      Step s (.expire i) { s with registry := s.registry.expire i }
  | response (s : System) (i) (data) (c : Call) (registry : Registry) (hi : i ∈ s.sent)
      (hc : s.registry.calls[i]? = some c)
      (hr : s.registry.eventProcess c.echoCode (.ok data) = .ok registry) :
      Step s (.response i data) ⟨registry, s.sent, i :: s.answered⟩

def readings : List Action → List Reading
  | [] => []
  | .echo r _ :: as => r :: readings as
  | _ :: as => readings as

def answer (type : ApiType) (data : Json) : Option ApiValue :=
  if data.isNull then some (defaultValue type)
  else match desiredValue data type with
    | .ok v => some v
    | .error _ => none

def Pending (s : System) (i : Nat) : Prop :=
  i ∉ s.answered ∧ ∃ c, s.registry.calls[i]? = some c ∧ c.alive = true

/-- The contract of one step: a call takes no callback away from a pending
one, and a response reaches the call it answers and no other, once. -/
def Correlated (s : System) (a : Action) (u : System) : Prop :=
  match a with
  | .echo r _ => ∀ i, s.registry.callbacks.lookup r.echoCode = some i → ¬ Pending s i
  | .response i data =>
      (∀ j, j ≠ i → u.registry.calls[j]? = s.registry.calls[j]?) ∧
      (Pending s i → ∀ c v, s.registry.calls[i]? = some c → answer c.type data = some v →
        u.registry.calls[i]? = some { c with values := [v] }) ∧
      (¬ Pending s i → u.registry.calls[i]? = s.registry.calls[i]?)
  | .notify _ | .expire _ =>
      ∀ i : Nat, (u.registry.calls[i]?).map Call.values = (s.registry.calls[i]?).map Call.values

/-- The contract over every schedule of a sequence of calls: whatever the
order, delay or repetition of the responses to the calls made so far. -/
def Correlation (rs : List Reading) : Prop :=
  ∀ as s a u, Run Step .init as s → Step s a u → readings (as ++ [a]) <+: rs →
    Correlated s a u ∧ ∀ c ∈ u.registry.calls, c.values.length ≤ 1

/-- Under distinct codes the map holds exactly the unanswered calls, each
under its own code. -/
structure Inv (s : System) : Prop where
  nodup : (s.registry.calls.map Call.echoCode).Nodup
  entry : ∀ code i, s.registry.callbacks.lookup code = some i ↔
    i ∉ s.answered ∧ ∃ c, s.registry.calls[i]? = some c ∧ c.echoCode = code
  values : ∀ i c, s.registry.calls[i]? = some c →
    c.values.length ≤ 1 ∧ (i ∉ s.answered → c.values = [])
  known : ∀ i ∈ s.answered, i < s.registry.calls.length

theorem readings_append (as bs : List Action) : readings (as ++ bs) = readings as ++ readings bs := by
  induction as with
  | nil => rfl
  | cons a as ih => cases a <;> simp [readings, ih]

def Call.answered (c : Call) (data : Json) : Call :=
  if c.alive then
    match answer c.type data with
    | some v => c.setValue v
    | none => c
  else c

theorem echoFunction_eq_ok {c c' : Call} {data : Json} (h : c.echoFunction data = .ok c') :
    c' = c.answered data := by
  unfold Call.echoFunction at h
  unfold Call.answered answer
  cases ha : c.alive with
  | false => simpa [ha, eq_comm] using h
  | true =>
      cases hn : data.isNull with
      | true => simpa [ha, hn, eq_comm] using h
      | false =>
          cases hd : desiredValue data c.type with
          | ok v => simpa [ha, hn, hd, catching, pure, Except.pure, eq_comm] using h
          | error e =>
              cases e with
              | thrown e => simpa [ha, hn, hd, catching, eq_comm] using h
              | terminate | undefined => simp [ha, hn, hd, catching] at h

theorem answered_code (c : Call) (data : Json) : (c.answered data).echoCode = c.echoCode := by
  unfold Call.answered
  cases c.alive with
  | false => rfl
  | true => cases answer c.type data <;> rfl

theorem map_code_set {calls : List Call} {i : Nat} {c c' : Call} (hc : calls[i]? = some c)
    (he : c'.echoCode = c.echoCode) : (calls.set i c').map Call.echoCode = calls.map Call.echoCode := by
  rw [List.map_set]
  apply List.ext_getElem?
  intro j
  by_cases hj : i = j
  · subst hj
    obtain ⟨hi, rfl⟩ := List.getElem?_eq_some_iff.mp hc
    simp [hi, he]
  · simp [hj]

theorem Inv.lookup_code {s : System} (h : Inv s) {i : Nat} {c : Call}
    (hc : s.registry.calls[i]? = some c) :
    s.registry.callbacks.lookup c.echoCode = if i ∈ s.answered then none else some i := by
  split
  next ha =>
    rw [Option.eq_none_iff_forall_ne_some]
    intro j hj
    obtain ⟨hna, d, hd, he⟩ := (h.entry _ j).mp hj
    have hij : j = i := by
      apply (List.getElem?_inj ?_ h.nodup).mp
      · simp [hc, hd, he]
      · simpa using (List.getElem?_eq_some_iff.mp hd).1
    exact hna (hij ▸ ha)
  next ha => exact (h.entry _ i).mpr ⟨ha, c, hc, rfl⟩

theorem Inv.eventProcess {s : System} (h : Inv s) {i : Nat} {c : Call} {data : Json}
    {registry : Registry} (hc : s.registry.calls[i]? = some c)
    (hr : s.registry.eventProcess c.echoCode (.ok data) = .ok registry) :
    registry = if i ∈ s.answered then s.registry else
      ⟨s.registry.calls.set i (c.answered data), s.registry.callbacks.erase c.echoCode⟩ := by
  unfold Registry.eventProcess at hr
  rw [h.lookup_code hc] at hr
  split
  next ha => simpa [ha, eq_comm] using hr
  next ha =>
    simp only [ha, if_false, ok_bind, hc, bind_eq_ok] at hr
    obtain ⟨c', hc', hr⟩ := hr
    rw [echoFunction_eq_ok hc'] at hr
    simpa [pure, Except.pure, eq_comm] using hr

theorem Inv.echo {s : System} (h : Inv s) (r : Reading) (type : ApiType)
    (hr : r.echoCode ∉ s.registry.calls.map Call.echoCode) :
    Inv { s with registry := s.registry.echo r type } := by
  have hnew : s.registry.calls.length ∉ s.answered := fun ha => absurd (h.known _ ha) (by simp)
  constructor
  · simpa [Registry.echo, List.nodup_append, h.nodup] using hr
  · intro code i
    simp only [Registry.echo, lookup_insert_eq]
    by_cases hcode : code = r.echoCode
    · subst hcode
      simp only [if_true, Option.some.injEq]
      constructor
      · rintro rfl
        exact ⟨hnew, _, List.getElem?_concat_length, rfl⟩
      · rintro ⟨_, c, hc, he⟩
        rcases getElem?_snoc.mp hc with hold | ⟨hi, _⟩
        · exact absurd (List.mem_map.mpr ⟨c, List.mem_of_getElem? hold, he⟩) hr
        · exact hi.symm
    · simp only [hcode, if_false, h.entry code i]
      refine and_congr_right fun _ => exists_congr fun c => and_congr_left fun he => ?_
      rw [getElem?_snoc]
      refine (or_iff_left ?_).symm
      rintro ⟨_, rfl⟩
      exact hcode he.symm
  · intro i c hc
    rcases getElem?_snoc.mp hc with hold | ⟨_, rfl⟩
    · exact h.values i c hold
    · exact ⟨Nat.zero_le _, fun _ => rfl⟩
  · intro i hi
    have := h.known i hi
    simp only [Registry.echo, List.length_append]
    omega

theorem getElem?_expire (s : Registry) (i j : Nat) :
    (s.expire i).calls[j]? =
      (s.calls[j]?).map (fun c => if i = j then { c with alive := false } else c) :=
  List.getElem?_modify _ _ _ _

theorem codes_expire (s : Registry) (i : Nat) :
    (s.expire i).calls.map Call.echoCode = s.calls.map Call.echoCode := by
  apply List.ext_getElem?
  intro j
  simp only [List.getElem?_map, getElem?_expire, Option.map_map]
  congr 1
  funext c
  by_cases hij : i = j <;> simp [hij]

theorem Inv.expire {s : System} (h : Inv s) (i : Nat) :
    Inv { s with registry := s.registry.expire i } := by
  constructor
  · simpa only [codes_expire] using h.nodup
  · intro code j
    rw [show (s.registry.expire i).callbacks = s.registry.callbacks from rfl, h.entry code j]
    refine and_congr_right fun _ => ?_
    simp only [getElem?_expire, Option.map_eq_some_iff]
    constructor
    · rintro ⟨c, hc, he⟩
      exact ⟨_, ⟨c, hc, rfl⟩, by split <;> exact he⟩
    · rintro ⟨_, ⟨c, hc, rfl⟩, he⟩
      exact ⟨c, hc, by split at he <;> exact he⟩
  · intro j c hc
    simp only [getElem?_expire, Option.map_eq_some_iff] at hc
    obtain ⟨d, hd, rfl⟩ := hc
    have hv := h.values j d hd
    split <;> exact hv
  · intro j hj
    simpa [Registry.expire] using h.known j hj

theorem answered_values (c : Call) (data : Json) (h : c.values = []) :
    (c.answered data).values.length ≤ 1 := by
  unfold Call.answered
  cases c.alive with
  | false => simp [h]
  | true => cases answer c.type data <;> simp [h, Call.setValue]

theorem Inv.response {s : System} (h : Inv s) {i : Nat} {c : Call} {data : Json}
    {registry : Registry} (hc : s.registry.calls[i]? = some c)
    (hr : s.registry.eventProcess c.echoCode (.ok data) = .ok registry) :
    Inv ⟨registry, s.sent, i :: s.answered⟩ := by
  have hi := (List.getElem?_eq_some_iff.mp hc).1
  rw [h.eventProcess hc hr]
  by_cases ha : i ∈ s.answered
  · simp only [ha, if_true]
    have hmem (j : Nat) : j ∈ i :: s.answered ↔ j ∈ s.answered := by
      simp only [List.mem_cons, or_iff_right_iff_imp]
      rintro rfl
      exact ha
    exact ⟨h.nodup, fun code j => by rw [h.entry code j]; simp only [hmem],
      fun j d hd => by simpa only [hmem] using h.values j d hd,
      fun j hj => h.known j ((hmem j).mp hj)⟩
  · simp only [ha, if_false]
    have hcodes := map_code_set hc (answered_code c data)
    constructor
    · simpa only [hcodes] using h.nodup
    · intro code j
      simp only [lookup_erase_eq, List.mem_cons, not_or]
      by_cases hij : j = i
      · subst hij
        simp only [not_true_eq_false, false_and, iff_false]
        split
        next hcode => simp
        next hcode =>
          intro hl
          obtain ⟨_, d, hd, he⟩ := (h.entry code j).mp hl
          rw [hc] at hd
          cases hd
          exact hcode he.symm
      · have hne : i ≠ j := fun he => hij he.symm
        simp only [hij, not_false_eq_true, true_and, List.getElem?_set_ne hne]
        rw [← h.entry code j]
        split
        next hcode =>
          subst hcode
          rw [h.lookup_code hc]
          simp [ha, hne]
        next hcode => rfl
    · intro j d hd
      by_cases hij : i = j
      · subst hij
        simp only [List.getElem?_set_self hi, Option.some.injEq] at hd
        subst hd
        exact ⟨answered_values c data ((h.values i c hc).2 ha), fun hn => absurd (by simp) hn⟩
      · simp only [List.getElem?_set_ne hij] at hd
        refine ⟨(h.values j d hd).1, fun hn => (h.values j d hd).2 ?_⟩
        simp only [List.mem_cons, not_or] at hn
        exact hn.2
    · intro j hj
      simp only [List.length_set]
      rcases List.mem_cons.mp hj with rfl | hj
      · exact hi
      · exact h.known j hj

theorem Inv.step {s u : System} {a : Action} (h : Inv s) (hs : Step s a u)
    (hfresh : ∀ r type, a = .echo r type → r.echoCode ∉ s.registry.calls.map Call.echoCode) : Inv u := by
  cases hs with
  | echo r type => exact h.echo r type (hfresh r type rfl)
  | notify i hi => exact ⟨h.nodup, h.entry, h.values, h.known⟩
  | expire i hi => exact h.expire i
  | response i data c registry hi hc hr => exact h.response hc hr

theorem Inv.correlated {s u : System} {a : Action} (h : Inv s) (hs : Step s a u)
    (hfresh : ∀ r type, a = .echo r type → r.echoCode ∉ s.registry.calls.map Call.echoCode) :
    Correlated s a u := by
  cases hs with
  | echo r type =>
      intro i hi
      obtain ⟨_, c, hc, he⟩ := (h.entry _ i).mp hi
      exact absurd (List.mem_map.mpr ⟨c, List.mem_of_getElem? hc, he⟩) (hfresh r type rfl)
  | notify i hi => exact fun _ => rfl
  | expire i hi =>
      intro j
      simp only [getElem?_expire, Option.map_map]
      congr 1
      funext c
      by_cases hij : i = j <;> simp [hij]
  | response i data c registry hi hc hr =>
      have hlt := (List.getElem?_eq_some_iff.mp hc).1
      rw [h.eventProcess hc hr]
      by_cases ha : i ∈ s.answered
      · simp only [ha, if_true, Correlated]
        exact ⟨fun _ _ => trivial, fun hp => absurd ha hp.1, fun _ => trivial⟩
      · simp only [ha, if_false, Correlated]
        refine ⟨fun j hj => List.getElem?_set_ne (Ne.symm hj), ?_, ?_⟩
        · rintro ⟨_, d, hd, halive⟩ e v he hv
          rw [hc] at hd he
          cases hd
          cases he
          simp [hlt, Call.answered, halive, hv, Call.setValue, (h.values i c hc).2 ha]
        · intro hp
          have hdead : c.alive = false := by
            by_contra halive
            exact hp ⟨ha, c, hc, by simpa using halive⟩
          rw [hc]
          simp [hlt, Call.answered, hdead]

theorem Inv.step_codes {s u : System} {a : Action} (h : Inv s) (hs : Step s a u) :
    u.registry.calls.map Call.echoCode =
      s.registry.calls.map Call.echoCode ++ (readings [a]).map Reading.echoCode := by
  cases hs with
  | echo r type => simp [Registry.echo, readings]
  | notify i hi => simp [readings]
  | expire i hi =>
      simp only [readings, List.map_nil, List.append_nil]
      exact codes_expire s.registry i
  | response i data c registry hi hc hr =>
      simp only [readings, List.map_nil, List.append_nil]
      rw [h.eventProcess hc hr]
      split
      · rfl
      · exact map_code_set hc (answered_code c data)

theorem inv_init : Inv .init := by
  constructor
  · exact List.nodup_nil
  · intro code i
    simp [System.init, Registry.empty]
  · intro i c hc
    simp [System.init, Registry.empty] at hc
  · intro i hi
    simp [System.init] at hi

def codes (as : List Action) : List Int64 := (readings as).map Reading.echoCode

theorem codes_append (as bs : List Action) : codes (as ++ bs) = codes as ++ codes bs := by
  simp [codes, readings_append]

theorem fresh_of_nodup {as : List Action} {a : Action} {s : System}
    (hc : s.registry.calls.map Call.echoCode = codes as) (hn : (codes (as ++ [a])).Nodup) :
    ∀ r type, a = .echo r type → r.echoCode ∉ s.registry.calls.map Call.echoCode := by
  rintro r type rfl
  rw [codes_append, List.nodup_append] at hn
  rw [hc]
  intro hm
  exact hn.2.2 _ hm _ (by simp [codes, readings]) rfl

theorem run_inv {as : List Action} {s : System} (h : Run Step .init as s) (hn : (codes as).Nodup) :
    Inv s ∧ s.registry.calls.map Call.echoCode = codes as := by
  refine Run.history_invariant (fun past s => (codes past).Nodup →
    Inv s ∧ s.registry.calls.map Call.echoCode = codes past) ?_ h [] ?_ hn
  · intro past s a t ih hs hn
    obtain ⟨hi, hc⟩ := ih (by rw [codes_append] at hn; exact hn.of_append_left)
    refine ⟨hi.step hs (fresh_of_nodup hc hn), ?_⟩
    rw [hi.step_codes hs, hc, codes_append]
    rfl
  · exact fun _ => ⟨inv_init, rfl⟩

theorem correlation_of_nodup (rs : List Reading) (hn : (rs.map Reading.echoCode).Nodup) :
    Correlation rs := by
  intro as s a u hrun hs hpre
  have hn' : (codes (as ++ [a])).Nodup := hn.sublist (hpre.map Reading.echoCode).sublist
  have hn'' : (codes as).Nodup := by rw [codes_append] at hn'; exact hn'.of_append_left
  obtain ⟨hi, hc⟩ := run_inv hrun hn''
  have hfresh := fresh_of_nodup hc hn'
  refine ⟨hi.correlated hs hfresh, fun c hm => ?_⟩
  obtain ⟨i, hc⟩ := List.mem_iff_getElem?.mp hm
  exact ((hi.step hs hfresh).values i c hc).1

theorem echo_run (rs : List Reading) :
    ∃ s, Run Step .init (rs.map (fun r => .echo r .messageID)) s ∧ s.answered = [] ∧
      ∀ c ∈ s.registry.calls, c.alive = true := by
  induction rs using List.reverseRecOn with
  | nil => exact ⟨.init, .nil _, rfl, by simp [System.init, Registry.empty]⟩
  | append_singleton rs r ih =>
      obtain ⟨s, hrun, ha, hall⟩ := ih
      rw [List.map_append]
      refine ⟨_, hrun.snoc (.echo s r .messageID), ha, ?_⟩
      intro c hc
      rcases List.mem_append.mp hc with hc | hc
      · exact hall c hc
      · simp only [List.mem_singleton] at hc
        subst hc
        rfl

theorem readings_echo (rs : List Reading) :
    readings (rs.map (fun r => Action.echo r .messageID)) = rs := by
  induction rs with
  | nil => rfl
  | cons r rs ih => simp [readings, ih]

theorem collision_overwrites (rs : List Reading) (r : Reading) (hn : (rs.map Reading.echoCode).Nodup)
    (hr : r.echoCode ∈ rs.map Reading.echoCode) : ¬ Correlation (rs ++ [r]) := by
  intro hcor
  obtain ⟨s, hrun, ha, hall⟩ := echo_run rs
  have hcodes : codes (rs.map (fun r => .echo r .messageID)) = rs.map Reading.echoCode := by
    rw [codes, readings_echo]
  obtain ⟨hi, hc⟩ := run_inv hrun (by rwa [hcodes])
  have hstep := (hcor _ s (.echo r .messageID) _ hrun (.echo s r .messageID)
    (by rw [readings_append, readings_echo]; exact List.prefix_refl _)).1
  rw [hcodes] at hc
  rw [← hc] at hr
  obtain ⟨c, hm, he⟩ := List.mem_map.mp hr
  obtain ⟨i, hci⟩ := List.mem_iff_getElem?.mp hm
  have hna : i ∉ s.answered := by simp [ha]
  exact hstep i ((hi.entry _ i).mpr ⟨hna, c, hci, he⟩) ⟨hna, c, hci, hall c hm⟩

theorem Correlation.of_prefix {rs rs' : List Reading} (h : Correlation rs') (hp : rs <+: rs') :
    Correlation rs :=
  fun as s a u hrun hs hpre => h as s a u hrun hs (hpre.trans hp)

/-- Responses stay with their calls on every schedule of a sequence of calls
exactly when the clock readings and draws give pairwise distinct codes. -/
theorem correlation_iff_nodup (rs : List Reading) :
    Correlation rs ↔ (rs.map Reading.echoCode).Nodup := by
  refine ⟨fun h => ?_, correlation_of_nodup rs⟩
  induction rs using List.reverseRecOn with
  | nil => exact List.nodup_nil
  | append_singleton rs r ih =>
      have hn := ih (h.of_prefix (List.prefix_append _ _))
      rw [List.map_append, List.nodup_append]
      refine ⟨hn, List.nodup_singleton _, ?_⟩
      rintro a ha b hb rfl
      have hb' : a = r.echoCode := by simpa using hb
      exact collision_overwrites rs r hn (hb' ▸ ha) h

theorem colliding_readings :
    ¬ Correlation [⟨1650633329000000, 1, by decide, by decide⟩,
      ⟨1650633329010000, 0, by decide, by decide⟩] :=
  collision_overwrites [⟨1650633329000000, 1, by decide, by decide⟩]
    ⟨1650633329010000, 0, by decide, by decide⟩ (by decide) (by decide)

end MigangBot.EchoCorrelation
