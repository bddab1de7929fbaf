import MigangBot.CronNext
import MigangBot.CronExpression

namespace MigangBot.CronGrammar

open Lib.Tokens Text Digits Scheduling CronSearch CronExactness CronNext CronExpression

section Parsed

variable {α β : Type}

theorem bind_eq_pure {x : Parsed α} {f : α → Parsed β} {b : β} :
    x >>= f = pure b ↔ ∃ a, x = pure a ∧ f a = pure b := by
  constructor
  · intro h
    match x, h with
    | some (.ok a), h => exact ⟨a, rfl, h⟩
  · rintro ⟨a, rfl, h⟩
    exact h

theorem throw_ne_pure {m : Bytes} {a : α} : (throw m : Parsed α) ≠ pure a := by
  intro h
  cases h

/-- The evaluation comes to a value or to an exception. -/
def Ends (x : Parsed α) : Prop := x ≠ ExceptT.mk none

theorem ends_pure (a : α) : Ends (pure a : Parsed α) := by
  intro h
  cases h

theorem ends_throw (m : Bytes) : Ends (throw m : Parsed α) := by
  intro h
  cases h

theorem ends_bind {x : Parsed α} {f : α → Parsed β} (hx : Ends x) (hf : ∀ a, x = pure a → Ends (f a)) :
    Ends (x >>= f) := by
  match x, hx, hf with
  | none, hx, _ => exact absurd rfl hx
  | some (.error m), _, _ => exact ends_throw m
  | some (.ok a), _, hf => exact hf a rfl

theorem ends_foldlM {f : β → α → Parsed β} (hf : ∀ b a, Ends (f b a)) (as : List α) (b : β) :
    Ends (as.foldlM f b) := by
  induction as generalizing b with
  | nil => exact ends_pure b
  | cons a as ih =>
      rw [List.foldlM_cons]
      exact ends_bind (hf b a) fun b' _ => ih b'

end Parsed

section Bits

variable {n : Nat} {bound delta i : CronInt} {target target' : BitVec n}

theorem getLsbD_setBit (target : BitVec n) (i k : Nat) :
    (setBit target i).getLsbD k = true ↔ target.getLsbD k = true ∨ (k = i ∧ k < n) := by
  rw [setBit, BitVec.getLsbD_or, Bool.or_eq_true, BitVec.getLsbD_twoPow, Bool.and_eq_true, decide_eq_true_eq,
    decide_eq_true_eq]
  refine or_congr Iff.rfl ?_
  constructor
  · rintro ⟨hlt, rfl⟩
    exact ⟨rfl, hlt⟩
  · rintro ⟨rfl, hlt⟩
    exact ⟨hlt, rfl⟩

/-- The counter after some turns. -/
def visit (delta : CronInt) : Nat → CronInt → CronInt
  | 0, i => i
  | j + 1, i => visit delta j (i + delta)

/-- The loop comes to the turn. -/
def Visited (bound delta : CronInt) : Nat → CronInt → Prop
  | 0, i => i ≤ bound
  | j + 1, i => i ≤ bound ∧ Visited bound delta j (i + delta)

theorem setBits_mem {turns : Nat} (h : setBits bound delta turns target i = pure target') (k : Nat) :
    target'.getLsbD k = true ↔
      target.getLsbD k = true ∨ (k < n ∧ ∃ j, Visited bound delta j i ∧ k = (visit delta j i).toNat) := by
  induction turns generalizing target i with
  | zero =>
      rw [setBits] at h
      split at h
      · cases h
      · next hbound =>
          cases h
          refine (or_iff_left ?_).symm
          rintro ⟨_, j, hj, _⟩
          cases j with
          | zero => exact hbound hj
          | succ j => exact hbound hj.1
  | succ turns ih =>
      rw [setBits] at h
      split at h
      · next hbound =>
          rw [ih h, getLsbD_setBit, or_assoc]
          refine or_congr Iff.rfl ?_
          constructor
          · rintro (⟨rfl, hlt⟩ | ⟨hlt, j, hj, hk⟩)
            · exact ⟨hlt, 0, hbound, rfl⟩
            · exact ⟨hlt, j + 1, ⟨hbound, hj⟩, hk⟩
          · rintro ⟨hlt, j, hj, hk⟩
            cases j with
            | zero => exact .inl ⟨hk, hlt⟩
            | succ j => exact .inr ⟨hlt, j, hj.2, hk⟩
      · next hbound =>
          cases h
          refine (or_iff_left ?_).symm
          rintro ⟨_, j, hj, _⟩
          cases j with
          | zero => exact hbound hj
          | succ j => exact hbound hj.1

theorem add_toNat (i delta : CronInt) :
    (i + delta).toNat = i.toNat + delta.toNat ∨
      ((i + delta).toNat + 256 = i.toNat + delta.toNat ∧ 256 ≤ i.toNat + delta.toNat) := by
  have hi := i.toNat_lt
  have hd := delta.toNat_lt
  rw [UInt8.toNat_add]
  omega

/-- A small step climbs, a large one, being a step back, descends: either leaves
the range in the end. -/
theorem setBits_ends (hbound : bound < 128) (hdelta : 0 < delta) {turns : Nat}
    (hturns : (delta < 128 → 128 ≤ turns + i.toNat) ∧ (128 ≤ delta → i ≤ bound → i.toNat < turns)) :
    ∃ target', setBits bound delta turns target i = pure target' := by
  rw [UInt8.lt_iff_toNat_lt] at hbound hdelta
  rw [UInt8.lt_iff_toNat_lt, UInt8.le_iff_toNat_le, UInt8.le_iff_toNat_le] at hturns
  have h128 : (128 : UInt8).toNat = 128 := rfl
  have h0 : (0 : UInt8).toNat = 0 := rfl
  induction turns generalizing target i with
  | zero =>
      rw [setBits]
      split
      · next hle =>
          rw [UInt8.le_iff_toNat_le] at hle
          have hsmall := hturns.1
          have hlarge := hturns.2
          omega
      · exact ⟨target, rfl⟩
  | succ turns ih =>
      rw [setBits]
      split
      · next hle =>
          rw [UInt8.le_iff_toNat_le] at hle
          have hadd := add_toNat i delta
          have hstep := delta.toNat_lt
          refine ih ⟨fun hsmall => ?_, fun hlarge hnext => ?_⟩
          · have hleft := hturns.1 hsmall
            omega
          · have hleft := hturns.2 hlarge hle
            omega
      · exact ⟨target, rfl⟩

/-- While the counter does not wrap, the loop is an arithmetic progression. -/
theorem visited_iff (hwrap : bound.toNat + delta.toNat < 256) (i : CronInt) (k : Nat) :
    (∃ j, Visited bound delta j i ∧ k = (visit delta j i).toNat) ↔
      ∃ j, k = i.toNat + j * delta.toNat ∧ k ≤ bound.toNat := by
  constructor
  · rintro ⟨j, hj, rfl⟩
    refine ⟨j, ?_⟩
    induction j generalizing i with
    | zero =>
        rw [Visited, UInt8.le_iff_toNat_le] at hj
        exact ⟨by rw [visit]; omega, hj⟩
    | succ j ih =>
        obtain ⟨hi, hj⟩ := hj
        rw [UInt8.le_iff_toNat_le] at hi
        have hadd := add_toNat i delta
        obtain ⟨hk, hle⟩ := ih (i + delta) hj
        refine ⟨?_, hle⟩
        rw [visit, hk, Nat.succ_mul]
        omega
  · rintro ⟨j, rfl, hle⟩
    refine ⟨j, ?_⟩
    induction j generalizing i with
    | zero =>
        rw [Nat.zero_mul, Nat.add_zero] at hle
        exact ⟨UInt8.le_iff_toNat_le.mpr hle, by rw [visit]; omega⟩
    | succ j ih =>
        rw [Nat.succ_mul] at hle
        have hadd := add_toNat i delta
        have hnext : (i + delta).toNat = i.toNat + delta.toNat := by omega
        obtain ⟨hvisited, hk⟩ := ih (i + delta) (by rw [hnext]; omega)
        refine ⟨⟨UInt8.le_iff_toNat_le.mpr (by omega), hvisited⟩, ?_⟩
        rw [visit, ← hk, hnext, Nat.succ_mul]
        omega

end Bits

section Fields

variable {minval maxval : CronInt}

theorem ends_toCronInt (text : Bytes) : Ends (toCronInt text) := by
  rw [toCronInt]
  split
  · exact ends_pure _
  · exact ends_throw _

theorem makeRange_bounds {field : Bytes} {first last : CronInt}
    (h : makeRange field minval maxval = pure (first, last)) : minval ≤ first ∧ first ≤ last ∧ last ≤ maxval := by
  rw [makeRange, bind_eq_pure] at h
  obtain ⟨⟨a, b⟩, _, h⟩ := h
  dsimp only at h
  split at h
  · exact absurd h throw_ne_pure
  · next hmax =>
      split at h
      · exact absurd h throw_ne_pure
      · next hmin =>
          split at h
          · exact absurd h throw_ne_pure
          · next hle =>
              cases h
              rw [not_or] at hmax hmin
              exact ⟨UInt8.not_lt.mp hmin.1, UInt8.not_lt.mp hle, UInt8.not_lt.mp hmax.2⟩

theorem ends_makeRange (field : Bytes) : Ends (makeRange field minval maxval) := by
  rw [makeRange]
  refine ends_bind ?_ fun p _ => ?_
  · rw [rangeEnds]
    split
    · exact ends_pure _
    · split
      · exact ends_bind (ends_toCronInt _) fun _ _ => ends_pure _
      · split
        · exact ends_bind (ends_toCronInt _) fun _ _ => ends_bind (ends_toCronInt _) fun _ _ => ends_pure _
        · exact ends_throw _
  · dsimp only
    split
    · exact ends_throw _
    · split
      · exact ends_throw _
      · split
        · exact ends_throw _
        · exact ends_pure _

theorem makeSteps_bounds {field : Bytes} {first last delta : CronInt}
    (h : makeSteps field minval maxval = pure (first, last, delta)) :
    minval ≤ first ∧ first ≤ last ∧ last ≤ maxval ∧ 0 < delta := by
  rw [makeSteps] at h
  split at h
  · rw [bind_eq_pure] at h
    obtain ⟨⟨a, b⟩, hrange, h⟩ := h
    cases h
    obtain ⟨hlow, hle, hhigh⟩ := makeRange_bounds hrange
    exact ⟨hlow, hle, hhigh, by decide⟩
  · split at h
    · rw [bind_eq_pure] at h
      obtain ⟨⟨a, b⟩, hrange, h⟩ := h
      obtain ⟨hlow, hle, hhigh⟩ := makeRange_bounds hrange
      dsimp only at h
      rw [bind_eq_pure] at h
      obtain ⟨delta', _, h⟩ := h
      split at h
      · exact absurd h throw_ne_pure
      · next hdelta =>
          cases h
          refine ⟨hlow, ?_, ?_, UInt8.not_le.mp hdelta⟩
          · split
            · exact UInt8.le_trans hle hhigh
            · exact hle
          · split
            · exact UInt8.le_refl _
            · exact hhigh
    · exact absurd h throw_ne_pure

theorem ends_makeSteps (field : Bytes) : Ends (makeSteps field minval maxval) := by
  rw [makeSteps]
  split
  · exact ends_bind (ends_makeRange field) fun _ _ => ends_pure _
  · split
    · refine ends_bind (ends_makeRange _) fun _ _ => ends_bind (ends_toCronInt _) fun _ _ => ?_
      split
      · exact ends_throw _
      · exact ends_pure _
    · exact ends_throw _

variable {n : Nat} {target target' : BitVec n}

theorem sub_toNat {a b : CronInt} (h : b ≤ a) : (a - b).toNat = a.toNat - b.toNat :=
  UInt8.toNat_sub_of_le a b h

/-- The values of a field are as many as the bits it is kept in. -/
structure Fits (minval maxval : CronInt) (n : Nat) : Prop where
  bits : maxval.toNat - minval.toNat < n
  small : maxval < 128

/-- The loop over an accepted range ends. -/
theorem setBits_of_steps (hfits : Fits minval maxval n) {field : Bytes} {first last delta : CronInt}
    (hsteps : makeSteps field minval maxval = pure (first, last, delta)) (target : BitVec n) :
    ∃ target', setBits (last - minval) delta 256 target (first - minval) = pure target' := by
  obtain ⟨hlow, hle, hhigh, hdelta⟩ := makeSteps_bounds hsteps
  have hsmall := UInt8.lt_iff_toNat_lt.mp hfits.small
  have h128 : (128 : UInt8).toNat = 128 := rfl
  have hlow' := UInt8.le_iff_toNat_le.mp hlow
  have hle' := UInt8.le_iff_toNat_le.mp hle
  have hhigh' := UInt8.le_iff_toNat_le.mp hhigh
  have hbound := sub_toNat (UInt8.le_trans hlow hle)
  refine setBits_ends ?_ hdelta ⟨fun _ => by omega, fun _ hturn => ?_⟩
  · rw [UInt8.lt_iff_toNat_lt]
    omega
  · have hturn' := UInt8.le_iff_toNat_le.mp hturn
    omega

theorem ends_setOneField (hfits : Fits minval maxval n) (target : BitVec n) (field : Bytes) :
    Ends (setOneField minval maxval target field) := by
  rw [setOneField]
  refine ends_bind (ends_makeSteps field) fun p hp => ?_
  obtain ⟨target', heq⟩ := setBits_of_steps hfits hp target
  dsimp only
  rw [heq]
  exact ends_pure target'

/-- A field of a list that is accepted adds values and takes none away. -/
theorem setOneField_grows (hfits : Fits minval maxval n) {field : Bytes}
    (h : setOneField minval maxval target field = pure target') :
    (∀ k, target.getLsbD k = true → target'.getLsbD k = true) ∧ ∃ k, target'.getLsbD k = true := by
  rw [setOneField, bind_eq_pure] at h
  obtain ⟨⟨first, last, delta⟩, hsteps, h⟩ := h
  obtain ⟨hlow, hle, hhigh, _⟩ := makeSteps_bounds hsteps
  have hlow' := UInt8.le_iff_toNat_le.mp hlow
  have hle' := UInt8.le_iff_toNat_le.mp hle
  have hhigh' := UInt8.le_iff_toNat_le.mp hhigh
  have hbits := hfits.bits
  have hfirst := sub_toNat hlow
  have hlast := sub_toNat (UInt8.le_trans hlow hle)
  refine ⟨fun k hk => (setBits_mem h k).mpr (.inl hk), (first - minval).toNat, (setBits_mem h _).mpr (.inr ?_)⟩
  refine ⟨by omega, 0, ?_, rfl⟩
  rw [Visited, UInt8.le_iff_toNat_le]
  omega

theorem ends_setCronField (hfits : Fits minval maxval n) (value : Bytes) (target : BitVec n) :
    Ends (setCronField value target minval maxval) := by
  rw [setCronField]
  split
  · exact ends_throw _
  · split
    · exact ends_throw _
    · exact ends_foldlM (ends_setOneField hfits) _ _

theorem foldlM_grows (hfits : Fits minval maxval n) {fields : List Bytes}
    (h : fields.foldlM (setOneField minval maxval) target = pure target') :
    (∀ k, target.getLsbD k = true → target'.getLsbD k = true) ∧
      (fields ≠ [] → ∃ k, target'.getLsbD k = true) := by
  induction fields generalizing target with
  | nil =>
      cases h
      exact ⟨fun k hk => hk, fun hne => absurd rfl hne⟩
  | cons field fields ih =>
      rw [List.foldlM_cons, bind_eq_pure] at h
      obtain ⟨next, hone, h⟩ := h
      obtain ⟨hkeeps, k, hk⟩ := setOneField_grows hfits hone
      obtain ⟨hkeeps', _⟩ := ih h
      exact ⟨fun k hk => hkeeps' k (hkeeps k hk), fun _ => ⟨k, hkeeps' k hk⟩⟩

theorem setCronField_nonempty (hfits : Fits minval maxval n) {value : Bytes}
    (h : setCronField value target minval maxval = pure target') : ∃ k, target'.getLsbD k = true := by
  rw [setCronField] at h
  split at h
  · exact absurd h throw_ne_pure
  · split at h
    · exact absurd h throw_ne_pure
    · next hne => exact (foldlM_grows hfits h).2 hne

/-- What a field of a list adds, when its step keeps the counter from wrapping. -/
theorem setOneField_mem (hfits : Fits minval maxval n) {field : Bytes} {first last delta : CronInt}
    (hsteps : makeSteps field minval maxval = pure (first, last, delta))
    (hwrap : maxval.toNat - minval.toNat + delta.toNat < 256) (target : BitVec n) :
    ∃ target', setOneField minval maxval target field = pure target' ∧
      ∀ k, target'.getLsbD k = true ↔ target.getLsbD k = true ∨
        ∃ j, k + minval.toNat = first.toNat + j * delta.toNat ∧ k + minval.toNat ≤ last.toNat := by
  obtain ⟨hlow, hle, hhigh, hdelta⟩ := makeSteps_bounds hsteps
  have hlow' := UInt8.le_iff_toNat_le.mp hlow
  have hle' := UInt8.le_iff_toNat_le.mp hle
  have hhigh' := UInt8.le_iff_toNat_le.mp hhigh
  have hfirst := sub_toNat hlow
  have hlast := sub_toNat (UInt8.le_trans hlow hle)
  have hbits := hfits.bits
  have heq : setOneField minval maxval target field = setBits (last - minval) delta 256 target (first - minval) := by
    rw [setOneField, hsteps]
    rfl
  obtain ⟨target', htarget⟩ := setBits_of_steps hfits hsteps target
  refine ⟨target', heq.trans htarget, fun k => ?_⟩
  rw [setBits_mem htarget, visited_iff (by omega)]
  refine or_congr Iff.rfl ?_
  rw [hfirst, hlast]
  constructor
  · rintro ⟨_, j, hk, hbound⟩
    exact ⟨j, by omega, by omega⟩
  · rintro ⟨j, hk, hbound⟩
    exact ⟨by omega, j, by omega, by omega⟩

/-- A star allows everything. -/
theorem setCronField_star (hfits : Fits minval maxval n) (hle : minval ≤ maxval)
    (h : setCronField [char '*'] target minval maxval = pure target') {k : Nat}
    (hk : k + minval.toNat ≤ maxval.toNat) : target'.getLsbD k = true := by
  have hsteps : makeSteps [char '*'] minval maxval = pure (minval, maxval, 1) := by
    have hends : rangeEnds [char '*'] minval maxval = pure (minval, maxval) := by
      rw [rangeEnds, if_pos rfl]
    rw [makeSteps, if_pos (by decide), makeRange, hends]
    simp [pure_bind, UInt8.not_lt.mpr hle]
  have hsmall := UInt8.lt_iff_toNat_lt.mp hfits.small
  have h128 : (128 : UInt8).toNat = 128 := rfl
  have h1 : (1 : UInt8).toNat = 1 := rfl
  obtain ⟨all, hall, hmem⟩ := setOneField_mem hfits hsteps (by omega) target
  have hsame : setCronField [char '*'] target minval maxval = pure all := by
    rw [setCronField, if_neg (by decide), if_neg (by decide),
      show split [char '*'] (char ',') = [[char '*']] by decide, List.foldlM_cons, hall, pure_bind, List.foldlM_nil]
  cases hsame.symm.trans h
  exact (hmem k).mpr (.inr ⟨k, by rw [h1, Nat.mul_one]; omega, hk⟩)

end Fields

section Expressions

theorem fits_seconds : Fits 0 59 60 := ⟨by decide, by decide⟩

theorem fits_hours : Fits 0 23 24 := ⟨by decide, by decide⟩

theorem fits_daysOfWeek : Fits 0 6 7 := ⟨by decide, by decide⟩

theorem fits_daysOfMonth : Fits 1 31 31 := ⟨by decide, by decide⟩

theorem fits_months : Fits 1 12 12 := ⟨by decide, by decide⟩

/-- The six fields of an expression, with the seconds that are put in front of
five. -/
def fieldsOf (expr : Bytes) : List Bytes :=
  let fields := (split expr (char ' ')).filter (· ≠ [])
  if fields.length = 5 then bytes "0" :: fields else fields

theorem makeCron_ends (expr : Bytes) : Ends (makeCron expr) := by
  rw [makeCron]
  split
  · exact ends_throw _
  · dsimp only
    split
    · refine ends_bind (ends_setCronField fits_seconds _ _) fun _ _ => ?_
      refine ends_bind (ends_setCronField fits_seconds _ _) fun _ _ => ?_
      refine ends_bind (ends_setCronField fits_hours _ _) fun _ _ => ?_
      refine ends_bind (ends_setCronField fits_daysOfWeek _ _) fun _ _ => ?_
      refine ends_bind (ends_setCronField fits_daysOfMonth _ _) fun _ _ => ?_
      exact ends_bind (ends_setCronField fits_months _ _) fun _ _ => ends_pure _
    · exact ends_throw _

/-- What an accepted expression was read from, field by field. -/
structure ReadFrom (cex : CronExpr) (second minute hour dayOfMonth month dayOfWeek : Bytes) : Prop where
  seconds : setCronField second 0 0 59 = pure cex.seconds
  minutes : setCronField minute 0 0 59 = pure cex.minutes
  hours : setCronField hour 0 0 23 = pure cex.hours
  daysOfWeek : setCronDaysOfWeek dayOfWeek 0 = pure cex.daysOfWeek
  daysOfMonth : setCronDaysOfMonth dayOfMonth 0 = pure cex.daysOfMonth
  months : setCronMonth month 0 = pure cex.months

theorem makeCron_fields {expr : Bytes} {cex : CronExpr} (h : makeCron expr = pure cex) :
    ∃ second minute hour dayOfMonth month dayOfWeek,
      fieldsOf expr = [second, minute, hour, dayOfMonth, month, dayOfWeek] ∧
      ReadFrom cex second minute hour dayOfMonth month dayOfWeek ∧ cex.expr = expr := by
  rw [makeCron] at h
  split at h
  · exact absurd h throw_ne_pure
  · dsimp only at h
    split at h
    · next second minute hour dayOfMonth month dayOfWeek hfields =>
        simp only [bind_eq_pure] at h
        obtain ⟨seconds, hseconds, minutes, hminutes, hours, hhours, daysOfWeek, hdaysOfWeek, daysOfMonth,
          hdaysOfMonth, months, hmonths, h⟩ := h
        cases h
        exact ⟨second, minute, hour, dayOfMonth, month, dayOfWeek, hfields,
          ⟨hseconds, hminutes, hhours, hdaysOfWeek, hdaysOfMonth, hmonths⟩, rfl⟩
    · exact absurd h throw_ne_pure

/-- A day field that allows every day. -/
def Star (field : Bytes) : Prop := field = [char '*'] ∨ field = [char '?']

/-- In an accepted expression every field allows something, and a star among the
day fields is one that allows everything. -/
theorem oneDayField_of_accepted {expr : Bytes} {cex : CronExpr} (h : makeCron expr = pure cex)
    (hstar : ∃ second minute hour dayOfMonth month dayOfWeek,
      fieldsOf expr = [second, minute, hour, dayOfMonth, month, dayOfWeek] ∧ (Star dayOfMonth ∨ Star dayOfWeek)) :
    OneDayField cex := by
  obtain ⟨second, minute, hour, dayOfMonth, month, dayOfWeek, hfields, hread, _⟩ := makeCron_fields h
  refine ⟨setCronField_nonempty fits_seconds hread.seconds, setCronField_nonempty fits_seconds hread.minutes,
    setCronField_nonempty fits_hours hread.hours, setCronField_nonempty fits_months hread.months,
    setCronField_nonempty fits_daysOfMonth hread.daysOfMonth, setCronField_nonempty fits_daysOfWeek hread.daysOfWeek,
    ?_⟩
  obtain ⟨second', minute', hour', dayOfMonth', month', dayOfWeek', hfields', hday⟩ := hstar
  cases hfields.symm.trans hfields'
  rcases hday with hday | hday
  · have hread : setCronField [char '*'] 0 1 31 = pure cex.daysOfMonth := by
      rcases hday with rfl | rfl <;> exact hread.daysOfMonth
    exact .inl fun i hi => setCronField_star fits_daysOfMonth (by decide) hread (Nat.succ_le_of_lt hi)
  · have hsame : ∀ field, Star field → anyDay (replaceOrdinals (field.map toupper) cronDays) = [char '*'] := by
      rintro _ (rfl | rfl) <;> decide
    have hread := hread.daysOfWeek
    rw [setCronDaysOfWeek, hsame _ hday] at hread
    exact .inr fun i hi => setCronField_star fits_daysOfWeek (by decide) hread (Nat.le_of_lt_succ hi)

/-- Whatever the text, its reading ends; and what is accepted with a star among its
day fields is searched to an end from every instant. -/
theorem accepted_searched (expr : Bytes) : Ends (makeCron expr) ∧ ∀ cex, makeCron expr = pure cex →
    (∃ second minute hour dayOfMonth month dayOfWeek,
      fieldsOf expr = [second, minute, hour, dayOfMonth, month, dayOfWeek] ∧ (Star dayOfMonth ∨ Star dayOfWeek)) →
    ∀ utcOffset t : Int, 0 ≤ t → ∃ r, cronNext utcOffset searchFuel cex t = some (.ok r) ∧
      (r = invalidTime ∨ (t < r ∧ Matching cex (r + utcOffset))) := by
  refine ⟨makeCron_ends expr, fun cex h hstar utcOffset t ht => ?_⟩
  obtain ⟨r, heq, hnext⟩ := cronNext_spec (oneDayField_of_accepted h hstar).searchable ht
    (Nat.le_refl searchFuel)
  refine ⟨r, heq, ?_⟩
  cases hnext with
  | found later matching _ => exact .inr ⟨later, matching⟩
  | none invalid _ _ => exact .inl invalid

theorem accepted_searched_daily : ∃ cex, makeCron (bytes "8 8 * * *") = pure cex ∧
    ∃ r, cronNext 28800 searchFuel cex 1700000000 = some (.ok r) ∧
      (r = invalidTime ∨ (1700000000 < r ∧ Matching cex (r + 28800))) := by
  have hread : makeCron (bytes "8 8 * * *") = pure daily := rfl
  have hfields : fieldsOf (bytes "8 8 * * *") =
      [bytes "0", bytes "8", bytes "8", [char '*'], [char '*'], [char '*']] := by decide
  exact ⟨daily, hread, (accepted_searched (bytes "8 8 * * *")).2 daily hread
    ⟨_, _, _, _, _, _, hfields, .inl (.inl rfl)⟩ 28800 1700000000 (by decide)⟩

end Expressions

end MigangBot.CronGrammar
