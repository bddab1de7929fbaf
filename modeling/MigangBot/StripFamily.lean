import MigangBot.MessageUtility

namespace MigangBot.StripFamily

open Lib.Exceptions Text MessageUtility

section Code

/-- LStrip on a string. -/
def lStripString (str : Bytes) (ch : UInt8) : Outcome Bytes := noexcept do
  cutFront str (min (findFirstNotOf ch str) str.length)

/-- RStrip on a view, without the step back from the last character that stays. -/
def rStripView (str : Bytes) (ch : UInt8) : Outcome Bytes := noexcept do
  cutBack str (min (sizeSub str.length (findLastNotOf ch str)) str.length)

/-- Strip on a view. -/
def stripView (str : Bytes) (ch : UInt8) : Outcome Bytes := noexcept do
  let str ← cutFront str (min (findFirstNotOf ch str) str.length)
  cutBack str (min (sizeSub (sizeSub str.length (findLastNotOf ch str)) 1) str.length)

end Code

inductive Side
  | left
  | right
  | both

/-- The overload on a view: what the view shows afterwards. -/
def Side.view : Side → Bytes → UInt8 → Outcome Bytes
  | .left => lStrip
  | .right => rStripView
  | .both => stripView

def Side.string : Side → Bytes → UInt8 → Outcome Bytes
  | .left => lStripString
  | .right => rStrip
  | .both => strip

/-- The text without the whole run of a character at a side. -/
def Side.remove : Side → Bytes → UInt8 → Bytes
  | .left, s, ch => s.dropWhile (· == ch)
  | .right, s, ch => s.rdropWhile (· == ch)
  | .both, s, ch => trim s ch

section Runs

variable {α : Type} (p : α → Bool)

theorem rdropWhile_cons (a : α) (s : List α) : (a :: s).rdropWhile p =
    if s.rdropWhile p = [] then (if p a then [] else [a]) else a :: s.rdropWhile p := by
  simp only [List.rdropWhile, List.reverse_cons, List.dropWhile_append, List.isEmpty_iff, List.reverse_eq_nil_iff]
  by_cases hs : s.reverse.dropWhile p = []
  · rw [if_pos hs, if_pos hs]
    by_cases ha : p a = true
    · simp [ha]
    · simp [ha]
  · rw [if_neg hs, if_neg hs, List.reverse_append]
    rfl

theorem dropWhile_rdropWhile (s : List α) : (s.rdropWhile p).dropWhile p = (s.dropWhile p).rdropWhile p := by
  induction s with
  | nil => rfl
  | cons a s ih =>
      rw [rdropWhile_cons]
      by_cases ha : p a = true
      · rw [List.dropWhile_cons_of_pos ha, ← ih]
        split
        next hs => rw [hs]
        next => rw [List.dropWhile_cons_of_pos ha]
      · rw [List.dropWhile_cons_of_neg ha, rdropWhile_cons]
        split
        · exact List.dropWhile_cons_of_neg ha
        · rw [List.dropWhile_cons_of_neg ha]

end Runs

section Strip

variable {s : Bytes} {ch : UInt8}

theorem findLastNotOf_all (h : ∀ a ∈ s, a = ch) : findLastNotOf ch s = npos := by
  have hnone : s.reverse.findIdx? (· != ch) = none := by
    rw [List.findIdx?_eq_none_iff]
    intro a ha
    simpa using h a (List.mem_reverse.mp ha)
  rw [findLastNotOf, hnone]

theorem sizeSub_npos {n : Nat} (h : n < npos) : sizeSub n npos = n + 1 := by
  rw [sizeSub]
  unfold npos at h ⊢
  split <;> omega

theorem rStrip_eq (hs : s.length < npos) (ch : UInt8) : rStrip s ch = .ok (s.rdropWhile (· == ch)) := by
  rw [rStrip, cutBack_min]
  by_cases hall : ∀ a ∈ s, a = ch
  · have hsize : sizeSub (s.length + 1) 1 = s.length := by
      rw [sizeSub]
      split <;> omega
    have hempty : s.rdropWhile (· == ch) = [] :=
      List.rdropWhile_eq_nil_iff.mpr fun a ha => beq_iff_eq.mpr (hall a ha)
    rw [findLastNotOf_all hall, sizeSub_npos hs, hsize, hempty, Nat.min_self, Nat.sub_self, List.take_zero]
    rfl
  · rw [take_findLastNotOf ch fun _ => by simpa using hall]
    rfl

/-- The view loses the last character that was to stay. -/
theorem rStripView_eq (h : ∃ a ∈ s, a ≠ ch) : rStripView s ch = .ok (s.rdropWhile (· == ch)).dropLast := by
  rw [← take_findLastNotOf ch fun _ => h, rStripView, cutBack_min]
  obtain ⟨a, ha, hne⟩ := h
  cases hfind : s.reverse.findIdx? (· != ch) with
  | none =>
      rw [List.findIdx?_eq_none_iff] at hfind
      have := hfind a (List.mem_reverse.mpr ha)
      simp [hne] at this
  | some i =>
      obtain ⟨hi, _⟩ := List.findIdx?_eq_some_iff_findIdx_eq.mp hfind
      rw [List.length_reverse] at hi
      have hlast : findLastNotOf ch s = s.length - 1 - i := by
        rw [findLastNotOf, hfind]
      have hsize : sizeSub s.length (s.length - 1 - i) = i + 1 := by
        rw [sizeSub]
        split <;> omega
      have hone : sizeSub (i + 1) 1 = i := by
        rw [sizeSub]
        split <;> omega
      have hshort : (s.take (s.length - i)).length - 1 = s.length - (i + 1) := by
        rw [List.length_take]
        omega
      rw [hlast, hsize, hone, Nat.min_eq_left hi.le, Nat.min_eq_left hi, List.dropLast_eq_take, hshort,
        List.take_take, Nat.min_eq_left (by omega)]
      rfl

theorem rStripView_all (h : ∀ a ∈ s, a = ch) (hs : s.length < npos) : rStripView s ch = .ok [] := by
  rw [rStripView, findLastNotOf_all h, sizeSub_npos hs, Nat.min_eq_right (Nat.le_succ _), cutBack,
    if_pos (Nat.le_refl _), Nat.sub_self, List.take_zero]
  rfl

end Strip

section Family

variable {s : Bytes} {ch : UInt8}

theorem string_eq (hs : s.length < npos) (side : Side) (ch : UInt8) : side.string s ch = .ok (side.remove s ch) := by
  cases side with
  | left => exact lStrip_eq hs ch
  | right => exact rStrip_eq hs ch
  | both => exact strip_eq_trim hs ch

theorem length_remove_le (side : Side) (s : Bytes) (ch : UInt8) : (side.remove s ch).length ≤ s.length := by
  cases side with
  | left => exact (List.dropWhile_suffix _).length_le
  | right => exact (List.rdropWhile_prefix _ s).length_le
  | both => exact (List.rdropWhile_prefix _ _).length_le.trans (List.dropWhile_suffix _).length_le

theorem remove_remove (side : Side) (s : Bytes) (ch : UInt8) :
    side.remove (side.remove s ch) ch = side.remove s ch := by
  cases side with
  | left => exact List.dropWhile_idempotent _ s
  | right => exact List.rdropWhile_idempotent _ s
  | both =>
      have hleft : (trim s ch).dropWhile (· == ch) = trim s ch := by
        rw [trim, dropWhile_rdropWhile, List.dropWhile_idempotent]
      rw [Side.remove, Side.remove, trim, hleft, trim, List.rdropWhile_idempotent]

theorem string_string (hs : s.length < npos) (side : Side) (ch : UInt8) :
    (do side.string (← side.string s ch) ch) = side.string s ch := by
  have hshort := Nat.lt_of_le_of_lt (length_remove_le side s ch) hs
  rw [string_eq hs, ok_bind, string_eq hshort, remove_remove]

theorem strip_left_right (hs : s.length < npos) (ch : UInt8) :
    strip s ch = (do rStrip (← lStripString s ch) ch) := by
  have hleft : lStripString s ch = .ok (s.dropWhile (· == ch)) := string_eq hs .left ch
  have hshort : (s.dropWhile (· == ch)).length < npos := Nat.lt_of_le_of_lt (length_remove_le .left s ch) hs
  rw [hleft, ok_bind, rStrip_eq hshort, strip_eq_trim hs, trim]

theorem strip_right_left (hs : s.length < npos) (ch : UInt8) :
    strip s ch = (do lStripString (← rStrip s ch) ch) := by
  have hshort : (s.rdropWhile (· == ch)).length < npos := Nat.lt_of_le_of_lt (length_remove_le .right s ch) hs
  have hleft : lStripString (s.rdropWhile (· == ch)) ch = .ok ((s.rdropWhile (· == ch)).dropWhile (· == ch)) :=
    string_eq hshort .left ch
  rw [rStrip_eq hs, ok_bind, hleft, strip_eq_trim hs, trim, dropWhile_rdropWhile]

/-- What the overloads are to have in common, for a text and a character. -/
structure FamilyAgrees (s : Bytes) (ch : UInt8) : Prop where
  overloads : ∀ side : Side, side.view s ch = side.string s ch
  maximal : ∀ side : Side, side.string s ch = .ok (side.remove s ch)
  left_right : strip s ch = (do rStrip (← lStripString s ch) ch)
  right_left : strip s ch = (do lStripString (← rStrip s ch) ch)
  view_left_right : stripView s ch = (do rStripView (← lStrip s ch) ch)
  view_right_left : stripView s ch = (do lStrip (← rStripView s ch) ch)
  idempotent : ∀ side : Side, (do side.string (← side.string s ch) ch) = side.string s ch
  view_idempotent : ∀ side : Side, (do side.view (← side.view s ch) ch) = side.view s ch

theorem remove_of_all (h : ∀ a ∈ s, a = ch) (side : Side) : side.remove s ch = [] := by
  have hleft : s.dropWhile (· == ch) = [] := List.dropWhile_eq_nil_iff.mpr fun a ha => beq_iff_eq.mpr (h a ha)
  cases side with
  | left => exact hleft
  | right => exact List.rdropWhile_eq_nil_iff.mpr fun a ha => beq_iff_eq.mpr (h a ha)
  | both => rw [Side.remove, trim, hleft, List.rdropWhile_nil]

theorem view_of_all (h : ∀ a ∈ s, a = ch) (hs : s.length < npos) (side : Side) : side.view s ch = .ok [] := by
  have hstring := string_eq hs side ch
  rw [remove_of_all h] at hstring
  cases side with
  | left => exact hstring
  | right => exact rStripView_all h hs
  | both => exact hstring

theorem family_agrees_iff (s : Bytes) (ch : UInt8) (hs : s.length < npos) :
    FamilyAgrees s ch ↔ ∀ a ∈ s, a = ch := by
  constructor
  · intro h
    by_contra hall
    have hother : ∃ a ∈ s, a ≠ ch := by simpa using hall
    have hview : rStripView s ch = rStrip s ch := h.overloads .right
    rw [rStripView_eq hother, rStrip_eq hs] at hview
    have hlength := congrArg List.length (Except.ok.inj hview)
    rw [List.length_dropLast] at hlength
    have hempty : s.rdropWhile (· == ch) = [] := List.eq_nil_of_length_eq_zero (by omega)
    exact hall fun a ha => beq_iff_eq.mp (List.rdropWhile_eq_nil_iff.mp hempty a ha)
  · intro h
    have hview := view_of_all h hs
    have hnil : ∀ side : Side, side.view [] ch = .ok [] :=
      view_of_all (fun a ha => absurd ha List.not_mem_nil) (Nat.lt_of_le_of_lt (Nat.zero_le _) hs)
    have hleft : lStrip s ch = .ok [] := hview .left
    have hright : rStripView s ch = .ok [] := hview .right
    have hboth : stripView s ch = .ok [] := hview .both
    refine ⟨fun side => ?_, fun side => string_eq hs side ch, strip_left_right hs ch, strip_right_left hs ch, ?_, ?_,
      fun side => string_string hs side ch, fun side => ?_⟩
    · rw [hview, string_eq hs, remove_of_all h]
    · rw [hboth, hleft, ok_bind]
      exact (hnil .right).symm
    · rw [hboth, hright, ok_bind]
      exact (hnil .left).symm
    · rw [hview, ok_bind, hnil]

theorem family_agrees_spaces : FamilyAgrees (bytes "   ") (char ' ') :=
  (family_agrees_iff (bytes "   ") (char ' ') (by decide)).mpr (by decide +kernel)

/-- The last letter goes with the blank. -/
theorem rStripView_letter : rStripView (bytes "ab ") (char ' ') = .ok (bytes "a") ∧
    rStrip (bytes "ab ") (char ' ') = .ok (bytes "ab") ∧ ¬ FamilyAgrees (bytes "ab ") (char ' ') := by
  refine ⟨by decide, by decide, fun h => ?_⟩
  exact absurd (h.overloads .right) (by decide)

end Family

end MigangBot.StripFamily
