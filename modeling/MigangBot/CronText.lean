import MigangBot.CronGrammar
import Mathlib.Data.List.TakeWhile

namespace MigangBot.CronText

open Lib.Tokens Text Digits CronSearch CronExpression CronGrammar

/-- The values one entry of a list names. -/
inductive Span
  | all
  | one (a : CronInt)
  | range (a b : CronInt)

structure Item where
  span : Span
  step : Option CronInt

def numeral (v : CronInt) : Bytes := decimal (UInt64.ofNat v.toNat)

def Span.text : Span → Bytes
  | .all => [char '*']
  | .one a => numeral a
  | .range a b => numeral a ++ char '-' :: numeral b

def Item.text (item : Item) : Bytes := item.span.text ++ item.step.elim [] (fun d => char '/' :: numeral d)

def listText (items : List Item) : Bytes := [char ','].intercalate (items.map Item.text)

section Values

variable (minval maxval : CronInt)

def Span.ends : Span → CronInt × CronInt
  | .all => (minval, maxval)
  | .one a => (a, a)
  | .range a b => (a, b)

/-- With a step a single value is the first of those up to the end. -/
def Item.last (item : Item) : CronInt :=
  match item.span, item.step with
  | .one _, some _ => maxval
  | span, _ => (span.ends minval maxval).2

/-- The values an entry allows. -/
def Item.Allows (item : Item) (v : Nat) : Prop :=
  ∃ j, v = (item.span.ends minval maxval).1.toNat + j * (item.step.getD 1).toNat ∧ v ≤ (item.last minval maxval).toNat

/-- An entry that is in the bounds of its field; the step does not make a counter
of eight bits wrap. -/
structure Item.Proper (item : Item) : Prop where
  low : minval ≤ (item.span.ends minval maxval).1
  order : (item.span.ends minval maxval).1 ≤ (item.span.ends minval maxval).2
  high : (item.span.ends minval maxval).2 ≤ maxval
  step : 0 < item.step.getD 1
  wrap : maxval.toNat - minval.toNat + (item.step.getD 1).toNat < 256

end Values

section Numerals

variable (v : CronInt)

theorem isdigit_of_mem {c : UInt8} (h : c ∈ numeral v) : isdigit c = true := by
  rw [numeral, decimal, List.mem_map] at h
  obtain ⟨x, hx, rfl⟩ := h
  obtain ⟨hlow, hhigh⟩ := toNat_of_mem_toDigits hx
  have hchar := char_toNat (c := x) (by omega)
  rw [isdigit, decide_eq_true_eq, UInt8.le_iff_toNat_le, UInt8.le_iff_toNat_le, hchar]
  exact ⟨hlow, hhigh⟩

theorem numeral_ne_nil : numeral v ≠ [] := by
  rw [numeral, decimal]
  simp

theorem not_mem_numeral {c : UInt8} (h : isdigit c = false) : c ∉ numeral v := by
  intro hmem
  rw [isdigit_of_mem v hmem] at h
  cases h

theorem stoul_numeral : stoul (numeral v) = some v.toNat := by
  have hdigits : (numeral v).takeWhile isdigit = numeral v :=
    List.takeWhile_eq_self_iff.mpr fun c hc => isdigit_of_mem v hc
  have hvalue : digitsValue (numeral v) = v.toNat := by
    have hlt := v.toNat_lt
    rw [numeral, digitsValue_decimal, UInt64.toNat_ofNat']
    omega
  obtain ⟨c, s, hs⟩ := List.exists_cons_of_ne_nil (numeral_ne_nil v)
  have hc : isdigit c = true := isdigit_of_mem v (hs ▸ List.mem_cons_self)
  have hspace : isspace c = false := by
    revert hc
    rw [isdigit, isspace]
    grind
  have hblank : (numeral v).dropWhile isspace = numeral v := by
    rw [hs, List.dropWhile_cons_of_neg (by simp [hspace])]
  have hminus : c ≠ char '-' := by
    rintro rfl
    exact absurd hc (by decide)
  have hplus : c ≠ char '+' := by
    rintro rfl
    exact absurd hc (by decide)
  have hlt := v.toNat_lt
  rw [stoul, hblank]
  simp only [hs, List.head?_cons, Option.some.injEq, hminus, hplus, or_self, if_false]
  rw [← hs, hdigits, hvalue, if_neg]
  rintro (h | h)
  · exact numeral_ne_nil v h
  · omega

theorem toCronInt_numeral : toCronInt (numeral v) = pure v := by
  rw [toCronInt, stoul_numeral]
  simp

end Numerals

section Texts

variable {minval maxval : CronInt}

/-- The characters of an entry. -/
def plain (c : UInt8) : Bool := isdigit c || c == char '*' || c == char '-' || c == char '/'

theorem plain_span {span : Span} {c : UInt8} (h : c ∈ span.text) : isdigit c = true ∨ c = char '*' ∨ c = char '-' := by
  cases span with
  | all => exact .inr (.inl (List.mem_singleton.mp h))
  | one a => exact .inl (isdigit_of_mem a h)
  | range a b =>
      rw [Span.text, List.mem_append, List.mem_cons] at h
      rcases h with h | h | h
      · exact .inl (isdigit_of_mem a h)
      · exact .inr (.inr h)
      · exact .inl (isdigit_of_mem b h)

theorem plain_item {item : Item} {c : UInt8} (h : c ∈ item.text) : plain c = true := by
  rw [Item.text, List.mem_append] at h
  rw [plain]
  rcases h with h | h
  · rcases plain_span h with h | rfl | rfl <;> simp [*]
  · cases hstep : item.step with
    | none =>
        rw [hstep] at h
        cases h
    | some d =>
        rw [hstep] at h
        rcases List.mem_cons.mp h with rfl | h
        · simp
        · simp [isdigit_of_mem d h]

theorem span_ne_nil (span : Span) : span.text ≠ [] := by
  cases span with
  | all => exact List.cons_ne_nil _ _
  | one a => exact numeral_ne_nil a
  | range a b => simp [Span.text]

theorem item_ne_nil (item : Item) : item.text ≠ [] := by
  rw [Item.text, ne_eq, List.append_eq_nil_iff, not_and]
  exact fun h => absurd h (span_ne_nil item.span)

theorem split_pair {s t : Bytes} {d : UInt8} (hs : d ∉ s) (ht : d ∉ t) (hne : t ≠ [])
    (hzero : ∀ c ∈ s ++ d :: t, c ≠ 0) : split (s ++ d :: t) d = [s, t] := by
  have hwhole : (s ++ d :: t).takeWhile (· != 0) = s ++ d :: t :=
    List.takeWhile_eq_self_iff.mpr fun c hc => by simpa using hzero c hc
  rw [split, hwhole, tokens_append hs, tokens_of_not_mem ht hne]

theorem rangeEnds_span (span : Span) : rangeEnds span.text minval maxval = pure (span.ends minval maxval) := by
  cases span with
  | all => rfl
  | one a =>
      have hstar : numeral a ≠ [char '*'] := by
        intro h
        exact not_mem_numeral a (c := char '*') (by decide) (h ▸ List.mem_singleton_self _)
      have hdash : contains (numeral a) (char '-') = false :=
        decide_eq_false (not_mem_numeral a (by decide))
      rw [rangeEnds, Span.text, if_neg hstar, hdash, toCronInt_numeral]
      rfl
  | range a b =>
      have hdash : contains (numeral a ++ char '-' :: numeral b) (char '-') = true := decide_eq_true (by simp)
      have hstar : numeral a ++ char '-' :: numeral b ≠ [char '*'] := by
        intro h
        rw [h] at hdash
        exact absurd hdash (by decide)
      have hsplit : split (numeral a ++ char '-' :: numeral b) (char '-') = [numeral a, numeral b] := by
        refine split_pair (not_mem_numeral a (by decide)) (not_mem_numeral b (by decide)) (numeral_ne_nil b) ?_
        rintro c hc rfl
        have hspan : (0 : UInt8) ∈ (Span.range a b).text := hc
        rcases plain_span hspan with h | h | h <;> exact absurd h (by decide)
      rw [rangeEnds, Span.text, if_neg hstar, hdash, hsplit]
      simp only [Bool.not_true, Bool.false_eq_true, if_false, toCronInt_numeral, pure_bind]
      rfl

theorem makeRange_span {item : Item} (h : item.Proper minval maxval) :
    makeRange item.span.text minval maxval = pure (item.span.ends minval maxval) := by
  have hlow := UInt8.le_iff_toNat_le.mp h.low
  have horder := UInt8.le_iff_toNat_le.mp h.order
  have hhigh := UInt8.le_iff_toNat_le.mp h.high
  rw [makeRange, rangeEnds_span, pure_bind]
  dsimp only
  rw [if_neg, if_neg, if_neg (UInt8.not_lt.mpr h.order)]
  · rw [not_or, UInt8.not_lt, UInt8.not_lt]
    exact ⟨h.low, UInt8.le_trans h.low h.order⟩
  · rw [not_or]
    exact ⟨UInt8.not_lt.mpr (UInt8.le_trans h.order h.high), UInt8.not_lt.mpr h.high⟩

theorem makeSteps_item {item : Item} (h : item.Proper minval maxval) :
    makeSteps item.text minval maxval =
      pure ((item.span.ends minval maxval).1, item.last minval maxval, item.step.getD 1) := by
  have hslash : char '/' ∉ item.span.text := by
    intro hmem
    rcases plain_span hmem with h | h | h <;> exact absurd h (by decide)
  have hrange := makeRange_span h
  cases hstep : item.step with
  | none =>
      have htext : item.text = item.span.text := by
        rw [Item.text, hstep]
        exact List.append_nil _
      have hlast : item.last minval maxval = (item.span.ends minval maxval).2 := by
        rw [Item.last, hstep]
        cases item.span <;> rfl
      rw [makeSteps, htext, contains, decide_eq_false hslash, hrange, hlast]
      rfl
  | some d =>
      have htext : item.text = item.span.text ++ char '/' :: numeral d := by
        rw [Item.text, hstep]
        rfl
      have hzero : ∀ c ∈ item.span.text ++ char '/' :: numeral d, c ≠ 0 := by
        rintro c hc rfl
        rw [← htext] at hc
        exact absurd (plain_item hc) (by decide)
      have hsplit := split_pair hslash (not_mem_numeral d (by decide)) (numeral_ne_nil d) hzero
      have hpositive := h.step
      rw [hstep, Option.getD_some] at hpositive
      have hlast : (if !contains item.span.text (char '-') then maxval else (item.span.ends minval maxval).2) =
          item.last minval maxval := by
        rw [Item.last, hstep]
        cases hspan : item.span with
        | all => simp [contains, Span.text, Span.ends]
        | one a => simp [contains, Span.text, not_mem_numeral a (c := char '-') (by decide)]
        | range a b => simp [contains, Span.text]
      have hcontains : contains item.text (char '/') = true := by
        rw [htext]
        exact decide_eq_true (by simp)
      rw [makeSteps, hcontains, htext, hsplit]
      simp only [Bool.not_true, Bool.false_eq_true, if_false, hrange, pure_bind, toCronInt_numeral, hlast,
        UInt8.not_le.mpr hpositive, Option.getD_some]

end Texts

section Lists

variable {minval maxval : CronInt} {n : Nat}

theorem plain_list {items : List Item} {c : UInt8} (h : c ∈ listText items) : plain c = true ∨ c = char ',' := by
  rcases mem_intercalate h with h | ⟨t, ht, hc⟩
  · exact .inr h
  · obtain ⟨item, _, rfl⟩ := List.mem_map.mp ht
    exact .inl (plain_item hc)

theorem not_mem_list {items : List Item} {c : UInt8} (hplain : plain c = false) (hcomma : c ≠ char ',') :
    c ∉ listText items := by
  intro h
  rcases plain_list h with h | h
  · rw [hplain] at h
    cases h
  · exact hcomma h

theorem pieces_proper (items : List Item) : ∀ t ∈ items.map Item.text, char ',' ∉ t ∧ t ≠ [] := by
  intro t ht
  obtain ⟨item, _, rfl⟩ := List.mem_map.mp ht
  exact ⟨fun h => absurd (plain_item h) (by decide), item_ne_nil item⟩

theorem takeWhile_nonzero {s : Bytes} (h : (0 : UInt8) ∉ s) : s.takeWhile (· != 0) = s := by
  refine List.takeWhile_eq_self_iff.mpr fun c hc => ?_
  rw [bne_iff_ne]
  rintro rfl
  exact h hc

theorem split_list (items : List Item) : split (listText items) (char ',') = items.map Item.text := by
  rw [split, takeWhile_nonzero (not_mem_list (by decide) (by decide)), listText,
    tokens_intercalate (pieces_proper items)]

theorem foldlM_items (hfits : Fits minval maxval n) {items : List Item} (h : ∀ item ∈ items, item.Proper minval maxval)
    (target : BitVec n) :
    ∃ target', (items.map Item.text).foldlM (setOneField minval maxval) target = pure target' ∧
      ∀ k, target'.getLsbD k = true ↔
        target.getLsbD k = true ∨ ∃ item ∈ items, item.Allows minval maxval (k + minval.toNat) := by
  induction items generalizing target with
  | nil => exact ⟨target, rfl, fun k => by simp⟩
  | cons item items ih =>
      obtain ⟨next, hone, hbits⟩ :=
        setOneField_mem hfits (makeSteps_item (h item List.mem_cons_self)) (h item List.mem_cons_self).wrap target
      obtain ⟨target', hrest, hbits'⟩ := ih (fun item hi => h item (List.mem_cons_of_mem _ hi)) next
      refine ⟨target', ?_, fun k => ?_⟩
      · rw [List.map_cons, List.foldlM_cons, hone, pure_bind, hrest]
      · rw [hbits', hbits, or_assoc, List.exists_mem_cons_iff]
        rfl

theorem setCronField_list (hfits : Fits minval maxval n) {items : List Item} (hne : items ≠ [])
    (h : ∀ item ∈ items, item.Proper minval maxval) :
    ∃ target : BitVec n, setCronField (listText items) 0 minval maxval = pure target ∧
      ∀ k, target.getLsbD k = true ↔ ∃ item ∈ items, item.Allows minval maxval (k + minval.toNat) := by
  obtain ⟨target, hfold, hbits⟩ := foldlM_items hfits h 0
  refine ⟨target, ?_, fun k => ?_⟩
  · have hlast : (listText items).getLast? ≠ some (char ',') := getLast?_intercalate (pieces_proper items)
    rw [setCronField, if_neg hlast, split_list, if_neg (by simpa using hne), hfold]
  · rw [hbits]
    simp

end Lists

section Schedules

/-- The lists of an expression; without one for the seconds it has five. -/
structure Schedule where
  seconds : Option (List Item)
  minutes : List Item
  hours : List Item
  daysOfMonth : List Item
  months : List Item
  daysOfWeek : List Item

def Schedule.lists (s : Schedule) : List (List Item) :=
  s.seconds.toList ++ [s.minutes, s.hours, s.daysOfMonth, s.months, s.daysOfWeek]

def Schedule.text (s : Schedule) : Bytes := [char ' '].intercalate (s.lists.map listText)

/-- The seconds that are put in front of five fields. -/
def Schedule.secondItems (s : Schedule) : List Item := s.seconds.getD [⟨.one 0, none⟩]

def ProperList (minval maxval : CronInt) (items : List Item) : Prop :=
  items ≠ [] ∧ ∀ item ∈ items, item.Proper minval maxval

structure Schedule.Proper (s : Schedule) : Prop where
  seconds : ProperList 0 59 s.secondItems
  minutes : ProperList 0 59 s.minutes
  hours : ProperList 0 23 s.hours
  daysOfMonth : ProperList 1 31 s.daysOfMonth
  months : ProperList 1 12 s.months
  daysOfWeek : ProperList 0 6 s.daysOfWeek

/-- The bits are the values some entry of the list allows. -/
def Means {n : Nat} (minval maxval : CronInt) (items : List Item) (target : BitVec n) : Prop :=
  ∀ k, target.getLsbD k = true ↔ ∃ item ∈ items, item.Allows minval maxval (k + minval.toNat)

structure Denotes (s : Schedule) (cex : CronExpr) : Prop where
  seconds : Means 0 59 s.secondItems cex.seconds
  minutes : Means 0 59 s.minutes cex.minutes
  hours : Means 0 23 s.hours cex.hours
  daysOfMonth : Means 1 31 s.daysOfMonth cex.daysOfMonth
  months : Means 1 12 s.months cex.months
  daysOfWeek : Means 0 6 s.daysOfWeek cex.daysOfWeek

theorem lt_of_mem_list {items : List Item} {c : UInt8} (h : c ∈ listText items) : c.toNat < 58 := by
  rcases plain_list h with h | rfl
  · simp only [plain, isdigit, Bool.or_eq_true, decide_eq_true_eq, beq_iff_eq, UInt8.le_iff_toNat_le] at h
    rcases h with ((h | rfl) | rfl) | rfl
    · exact Nat.lt_succ_of_le h.2
    · decide
    · decide
    · decide
  · decide

theorem toupper_list (items : List Item) : (listText items).map toupper = listText items := by
  have hsame : ∀ c ∈ listText items, toupper c = c := by
    intro c hc
    have hlt := lt_of_mem_list hc
    rw [toupper, if_neg]
    rintro ⟨hlow, _⟩
    have hlow' := UInt8.le_iff_toNat_le.mp hlow
    have h97 : (97 : UInt8).toNat = 97 := rfl
    omega
  rw [List.map_congr_left hsame, List.map_id']

theorem find_of_not_mem {s t : Bytes} {c : UInt8} (h : c ∉ s) : find s (c :: t) = npos := by
  have hnone : (List.range (s.length + 1)).find? (fun i => (c :: t).isPrefixOf (s.drop i)) = none := by
    rw [List.find?_eq_none]
    intro i _ hstart
    rw [List.isPrefixOf_iff_prefix] at hstart
    exact h (List.mem_of_mem_drop (hstart.subset List.mem_cons_self))
  rw [find, hnone]
  rfl

/-- Names begin with a letter. -/
theorem replaceOrdinals_list {names : List Bytes} (hnames : ∀ name ∈ names, ∃ c t, name = c :: t ∧ 58 ≤ c.toNat)
    (items : List Item) : replaceOrdinals (listText items) names = listText items := by
  have hfold : ∀ rs : List (Bytes × Nat), (∀ r ∈ rs, ∃ c t, r.1 = c :: t ∧ 58 ≤ c.toNat) →
      rs.foldl replaceOrdinal (listText items) = listText items := by
    intro rs hrs
    induction rs with
    | nil => rfl
    | cons r rs ih =>
        obtain ⟨c, t, hr, hc⟩ := hrs r List.mem_cons_self
        have hnot : c ∉ listText items := fun hmem => Nat.not_lt.mpr hc (lt_of_mem_list hmem)
        have hkeep : replaceOrdinal (listText items) r = listText items := by
          rw [replaceOrdinal, hr, find_of_not_mem hnot]
          rfl
        rw [List.foldl_cons, hkeep, ih fun r hr => hrs r (List.mem_cons_of_mem _ hr)]
  refine hfold _ fun r hr => hnames r.1 ?_
  obtain ⟨name, i⟩ := r
  exact (List.mem_zipIdx' hr).2 ▸ List.getElem_mem _

theorem anyDay_list (items : List Item) : anyDay (listText items) = listText items := by
  rw [anyDay, if_neg]
  intro h
  have hmem : char '?' ∈ listText items := h ▸ List.mem_singleton_self _
  exact absurd (lt_of_mem_list hmem) (by decide)

theorem cronDays_letters : ∀ name ∈ cronDays, ∃ c t, name = c :: t ∧ 58 ≤ c.toNat := by
  intro name hname
  simp only [cronDays, List.mem_cons, List.not_mem_nil, or_false] at hname
  rcases hname with rfl | rfl | rfl | rfl | rfl | rfl | rfl <;> exact ⟨_, _, rfl, by decide⟩

theorem cronMonths_letters : ∀ name ∈ cronMonths, ∃ c t, name = c :: t ∧ 58 ≤ c.toNat := by
  intro name hname
  simp only [cronMonths, List.mem_cons, List.not_mem_nil, or_false] at hname
  rcases hname with rfl | rfl | rfl | rfl | rfl | rfl | rfl | rfl | rfl | rfl | rfl | rfl | rfl <;>
    exact ⟨_, _, rfl, by decide⟩

variable {n : Nat} {minval maxval : CronInt} {items : List Item}

theorem setCronField_means (hfits : Fits minval maxval n) (h : ProperList minval maxval items) :
    ∃ target : BitVec n, setCronField (listText items) 0 minval maxval = pure target ∧
      Means minval maxval items target :=
  setCronField_list hfits h.1 h.2

theorem list_ne_nil (h : items ≠ []) : listText items ≠ [] := by
  intro hnil
  have hsplit := split_list items
  rw [hnil] at hsplit
  exact h (List.map_eq_nil_iff.mp hsplit.symm)

/-- The text comes apart again into the lists. -/
theorem split_text {lists : List (List Item)} (h : ∀ items ∈ lists, items ≠ []) :
    (split ([char ' '].intercalate (lists.map listText)) (char ' ')).filter (· ≠ []) = lists.map listText := by
  have hpieces : ∀ t ∈ lists.map listText, char ' ' ∉ t ∧ t ≠ [] := by
    intro t ht
    obtain ⟨items, hitems, rfl⟩ := List.mem_map.mp ht
    exact ⟨not_mem_list (by decide) (by decide), list_ne_nil (h items hitems)⟩
  have hzero : (0 : UInt8) ∉ [char ' '].intercalate (lists.map listText) := by
    intro hmem
    rcases mem_intercalate hmem with hblank | ⟨t, ht, hc⟩
    · exact absurd hblank (by decide)
    · obtain ⟨items, _, rfl⟩ := List.mem_map.mp ht
      exact not_mem_list (by decide) (by decide) hc
  rw [split, takeWhile_nonzero hzero, tokens_intercalate hpieces, List.filter_eq_self]
  exact fun t ht => by simpa using (hpieces t ht).2

theorem fieldsOf_text {s : Schedule} (h : s.Proper) : fieldsOf s.text =
    [listText s.secondItems, listText s.minutes, listText s.hours, listText s.daysOfMonth, listText s.months,
      listText s.daysOfWeek] := by
  have hne : ∀ items ∈ s.lists, items ≠ [] := by
    intro items hitems
    rw [Schedule.lists, List.mem_append] at hitems
    rcases hitems with hitems | hitems
    · rw [Option.mem_toList] at hitems
      have hseconds := h.seconds.1
      rw [Schedule.secondItems, hitems] at hseconds
      exact hseconds
    · simp only [List.mem_cons, List.not_mem_nil, or_false] at hitems
      rcases hitems with rfl | rfl | rfl | rfl | rfl
      · exact h.minutes.1
      · exact h.hours.1
      · exact h.daysOfMonth.1
      · exact h.months.1
      · exact h.daysOfWeek.1
  rw [fieldsOf, Schedule.text, split_text hne]
  cases hseconds : s.seconds with
  | none =>
      have hzero : bytes "0" = listText [⟨.one 0, none⟩] := by decide
      simp [Schedule.lists, Schedule.secondItems, hseconds, hzero]
  | some items => simp [Schedule.lists, Schedule.secondItems, hseconds]

theorem text_ne_nil {s : Schedule} (h : s.Proper) : s.text ≠ [] := by
  intro hnil
  have hfields := fieldsOf_text h
  rw [hnil] at hfields
  exact absurd hfields (by simp [fieldsOf, split])

/-- Written out and read again, a schedule is what it was. -/
theorem makeCron_text (s : Schedule) (h : s.Proper) :
    ∃ cex, makeCron s.text = pure cex ∧ Denotes s cex ∧ cex.expr = s.text := by
  obtain ⟨seconds, hseconds, hs⟩ := setCronField_means fits_seconds h.seconds
  obtain ⟨minutes, hminutes, hm⟩ := setCronField_means fits_seconds h.minutes
  obtain ⟨hours, hhours, hh⟩ := setCronField_means fits_hours h.hours
  obtain ⟨daysOfMonth, hdaysOfMonth, hdm⟩ := setCronField_means fits_daysOfMonth h.daysOfMonth
  obtain ⟨months, hmonths, hmo⟩ := setCronField_means fits_months h.months
  obtain ⟨daysOfWeek, hdaysOfWeek, hdw⟩ := setCronField_means fits_daysOfWeek h.daysOfWeek
  refine ⟨⟨seconds, minutes, hours, daysOfWeek, daysOfMonth, months, s.text⟩, ?_,
    ⟨hs, hm, hh, hdm, hmo, hdw⟩, rfl⟩
  have hfields := fieldsOf_text h
  rw [fieldsOf] at hfields
  have hdays : setCronDaysOfWeek (listText s.daysOfWeek) 0 = pure daysOfWeek := by
    rw [setCronDaysOfWeek, toupper_list, replaceOrdinals_list cronDays_letters, anyDay_list, hdaysOfWeek]
  have hday : setCronDaysOfMonth (listText s.daysOfMonth) 0 = pure daysOfMonth := by
    rw [setCronDaysOfMonth, anyDay_list, hdaysOfMonth]
  have hmonth : setCronMonth (listText s.months) 0 = pure months := by
    rw [setCronMonth, toupper_list, replaceOrdinals_list cronMonths_letters, hmonths]
  rw [makeCron, if_neg (text_ne_nil h)]
  dsimp only
  rw [hfields]
  simp only [hseconds, hminutes, hhours, hdays, hday, hmonth, pure_bind]

/-- Every quarter of an hour from eight to six, from Monday to Friday. -/
def quarters : Schedule :=
  ⟨some [⟨.one 0, none⟩], [⟨.all, some 15⟩], [⟨.range 8 18, none⟩], [⟨.all, none⟩], [⟨.all, none⟩], [⟨.range 1 5, none⟩]⟩

instance (minval maxval : CronInt) (item : Item) : Decidable (item.Proper minval maxval) :=
  decidable_of_iff (minval ≤ (item.span.ends minval maxval).1 ∧
      (item.span.ends minval maxval).1 ≤ (item.span.ends minval maxval).2 ∧
      (item.span.ends minval maxval).2 ≤ maxval ∧ 0 < item.step.getD 1 ∧
      maxval.toNat - minval.toNat + (item.step.getD 1).toNat < 256)
    ⟨fun ⟨low, order, high, step, wrap⟩ => ⟨low, order, high, step, wrap⟩,
      fun h => ⟨h.low, h.order, h.high, h.step, h.wrap⟩⟩

theorem makeCron_text_quarters : ∃ cex, makeCron (bytes "0 */15 8-18 * * 1-5") = pure cex ∧
    Denotes quarters cex ∧ cex.expr = bytes "0 */15 8-18 * * 1-5" := by
  have hproper : quarters.Proper := by
    constructor <;> exact ⟨List.cons_ne_nil _ _, fun item h => by cases List.mem_singleton.mp h; decide⟩
  have htext : quarters.text = bytes "0 */15 8-18 * * 1-5" := by decide
  rw [← htext]
  exact makeCron_text quarters hproper

end Schedules

end MigangBot.CronText
