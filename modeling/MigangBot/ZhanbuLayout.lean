import MigangBot.Utf8Conversion

namespace MigangBot.ZhanbuLayout

open Lib.Exceptions (throwing ok_bind mapM_eq_map returns_mapM)
open Lib.Utf16 Utf8Conversion
open Text (Bytes sizeSub)

section Code

def substr (text : U16String) (pos count : Nat) : Outcome U16String :=
  if pos ≤ text.length then .ok ((text.drop pos).take count) else throwing .outOfRange

def substrFrom (text : U16String) (pos : Nat) : Outcome U16String :=
  if pos ≤ text.length then .ok (text.drop pos) else throwing .outOfRange

def spaces (n : Nat) : U16String := List.replicate n 32

def cardinality : Nat := 9

def numberOfSlices (length : Nat) : Nat :=
  if length % cardinality = 0 then length / cardinality else length / cardinality + 1

def decrement (u : Utfcpp) (textU8 : Bytes) : Outcome (List U16String) := do
  let text ← u.utf8to16 textU8
  let length := text.length
  if 4 * cardinality < length then return []
  else if numberOfSlices length = 2 then
    if length % 2 = 1 then
      let fillSpace := spaces (sizeSub cardinality ((length + 1) / 2))
      return [(← substr text 0 ((length + 1) / 2)) ++ fillSpace,
        fillSpace ++ (spaces 1 ++ (← substrFrom text ((length + 1) / 2)))]
    else
      let fillSpace := spaces (sizeSub cardinality (length / 2))
      return [(← substr text 0 (length / 2)) ++ fillSpace, fillSpace ++ (← substrFrom text (length / 2))]
  else (List.range (numberOfSlices length)).mapM fun i => substr text (i * cardinality) cardinality

end Code

section Slices

variable {w : U16String} {n : Nat}

theorem substr_of_le {pos : Nat} (h : pos ≤ w.length) (count : Nat) :
    substr w pos count = .ok ((w.drop pos).take count) := if_pos h

theorem substrFrom_of_le {pos : Nat} (h : pos ≤ w.length) : substrFrom w pos = .ok (w.drop pos) := if_pos h

/-- The pieces of nine units from the start on. -/
def pieces (w : U16String) (n : Nat) : List U16String :=
  (List.range n).map fun i => (w.drop (i * cardinality)).take cardinality

theorem pieces_succ (w : U16String) (n : Nat) :
    pieces w (n + 1) = pieces w n ++ [(w.drop (n * cardinality)).take cardinality] := by
  rw [pieces, List.range_succ, List.map_append]
  rfl

theorem length_pieces (w : U16String) (n : Nat) : (pieces w n).length = n := by
  rw [pieces, List.length_map, List.length_range]

theorem flatten_pieces (w : U16String) (n : Nat) : (pieces w n).flatten = w.take (n * cardinality) := by
  induction n with
  | zero => rw [Nat.zero_mul]; rfl
  | succ n ih =>
      rw [pieces_succ, List.flatten_append, ih, List.flatten_singleton, Nat.succ_mul, List.take_add]

theorem mem_pieces {piece : U16String} (h : piece ∈ pieces w n) : piece.length ≤ cardinality := by
  obtain ⟨i, _, rfl⟩ := List.mem_map.mp h
  exact List.length_take_le _ _

theorem length_full {piece : U16String} (hn : n * cardinality ≤ w.length) (h : piece ∈ pieces w n) :
    piece.length = cardinality := by
  obtain ⟨i, hi, rfl⟩ := List.mem_map.mp h
  have hle := Nat.mul_le_mul_right cardinality (Nat.succ_le_of_lt (List.mem_range.mp hi))
  rw [Nat.succ_mul] at hle
  rw [List.length_take, List.length_drop]
  omega

theorem mapM_substr (h : ∀ i < n, i * cardinality ≤ w.length) :
    (List.range n).mapM (fun i => substr w (i * cardinality) cardinality) = .ok (pieces w n) := by
  have hreturns : Lib.Exceptions.Returns
      ((List.range n).mapM fun i => substr w (i * cardinality) cardinality) :=
    returns_mapM.mpr fun i hi => ⟨_, substr_of_le (h i (List.mem_range.mp hi)) cardinality⟩
  obtain ⟨slices, hslices⟩ := hreturns
  rw [hslices]
  refine congrArg Except.ok (mapM_eq_map (fun i slice hslice => ?_) hslices)
  rw [substr] at hslice
  split at hslice
  · exact (Except.ok.inj hslice).symm
  · cases hslice

end Slices

section Layout

/-- A slice as it was made: units of the text, with padding around them. -/
structure Part where
  before : Nat
  text : U16String
  after : Nat

def Part.shown (part : Part) : U16String := spaces part.before ++ (part.text ++ spaces part.after)

def Centred (length : Nat) : Prop := 10 ≤ length ∧ length ≤ 18

/-- What the columns of a text are to be. -/
structure Layout (w : U16String) (slices : List U16String) : Prop where
  empty_iff : slices = [] ↔ w.length = 0 ∨ 36 < w.length
  kept : slices ≠ [] → ∃ parts : List Part, slices = parts.map Part.shown ∧ (parts.map Part.text).flatten = w ∧
    (¬ Centred w.length → ∀ part ∈ parts, part.before = 0 ∧ part.after = 0)
  short : ∀ slice ∈ slices, slice.length ≤ 9
  few : slices.length ≤ 4
  centred : Centred w.length → slices = [w.take ((w.length + 1) / 2) ++ spaces (9 - (w.length + 1) / 2),
      spaces (9 - w.length / 2) ++ w.drop ((w.length + 1) / 2)] ∧ ∀ slice ∈ slices, slice.length = 9
  full : ¬ Centred w.length → ∀ slice ∈ slices.dropLast, slice.length = 9

variable {w : U16String}

theorem numberOfSlices_eq_two {length : Nat} : numberOfSlices length = 2 ↔ Centred length := by
  rw [numberOfSlices, Centred, cardinality]
  split <;> omega

/-- What is subtracted from for the padding is never the smaller number. -/
def NoWrap (length : Nat) : Prop :=
  numberOfSlices length = 2 → (length + 1) / 2 ≤ cardinality ∧ length / 2 ≤ cardinality

theorem noWrap (length : Nat) : NoWrap length := by
  intro h
  obtain ⟨_, hle⟩ := numberOfSlices_eq_two.mp h
  rw [cardinality]
  omega

theorem le_slices (length : Nat) : length ≤ numberOfSlices length * cardinality := by
  rw [numberOfSlices, cardinality]
  split <;> omega

theorem lt_of_lt_slices {length i : Nat} (h : i < numberOfSlices length) : i * cardinality < length := by
  rw [numberOfSlices] at h
  unfold cardinality at h ⊢
  split at h <;> omega

section Run

variable {u : Utfcpp} {cs : List Char}

theorem decrement_long (h : 36 < (utf16 cs).length) : decrement u (utf8 cs) = .ok [] := by
  rw [decrement, u.utf8to16_utf8, ok_bind]
  exact if_pos h

theorem sizeSub_cardinality {n : Nat} (h : n ≤ cardinality) : sizeSub cardinality n = 9 - n := if_pos h

theorem decrement_centred (h : Centred (utf16 cs).length) : decrement u (utf8 cs) =
    .ok [(utf16 cs).take (((utf16 cs).length + 1) / 2) ++ spaces (9 - ((utf16 cs).length + 1) / 2),
      spaces (9 - (utf16 cs).length / 2) ++ (utf16 cs).drop (((utf16 cs).length + 1) / 2)] := by
  have htwo := numberOfSlices_eq_two.mpr h
  obtain ⟨hodd, heven⟩ := noWrap _ htwo
  rw [decrement, u.utf8to16_utf8, ok_bind]
  dsimp only
  rw [if_neg (by obtain ⟨_, _⟩ := h; unfold cardinality; omega), if_pos htwo, sizeSub_cardinality hodd,
    sizeSub_cardinality heven]
  split
  next hmod =>
    have hpad : 9 - (utf16 cs).length / 2 = 9 - ((utf16 cs).length + 1) / 2 + 1 := by
      unfold cardinality at hodd
      omega
    rw [substr_of_le (Nat.zero_le _), substrFrom_of_le (by omega), hpad, spaces, spaces, spaces,
      List.replicate_add, List.append_assoc]
    rfl
  next hmod =>
    have hhalf : ((utf16 cs).length + 1) / 2 = (utf16 cs).length / 2 := by omega
    rw [substr_of_le (Nat.zero_le _), substrFrom_of_le (by omega), hhalf]
    rfl

theorem decrement_plain (hle : (utf16 cs).length ≤ 36) (h : ¬ Centred (utf16 cs).length) :
    decrement u (utf8 cs) = .ok (pieces (utf16 cs) (numberOfSlices (utf16 cs).length)) := by
  rw [decrement, u.utf8to16_utf8, ok_bind]
  dsimp only
  rw [if_neg (by unfold cardinality; omega), if_neg (mt numberOfSlices_eq_two.mp h)]
  exact mapM_substr fun i hi => Nat.le_of_lt (lt_of_lt_slices hi)

end Run

theorem layout_long (h : 36 < w.length) : Layout w [] where
  empty_iff := iff_of_true rfl (.inr h)
  kept hne := absurd rfl hne
  short _ hslice := absurd hslice List.not_mem_nil
  few := Nat.zero_le 4
  centred hcentred := by
    obtain ⟨_, hle⟩ := hcentred
    omega
  full _ _ hslice := absurd hslice List.not_mem_nil

theorem layout_centred (h : Centred w.length) :
    Layout w [w.take ((w.length + 1) / 2) ++ spaces (9 - (w.length + 1) / 2),
      spaces (9 - w.length / 2) ++ w.drop ((w.length + 1) / 2)] := by
  have hlengths : ∀ slice ∈ [w.take ((w.length + 1) / 2) ++ spaces (9 - (w.length + 1) / 2),
      spaces (9 - w.length / 2) ++ w.drop ((w.length + 1) / 2)], slice.length = 9 := by
    obtain ⟨_, hle⟩ := h
    intro slice hslice
    rcases List.mem_cons.mp hslice with rfl | hslice
    · rw [List.length_append, List.length_take, spaces, List.length_replicate]
      omega
    · cases List.mem_singleton.mp hslice
      rw [List.length_append, List.length_drop, spaces, List.length_replicate]
      omega
  refine ⟨?_, fun _ => ?_, fun slice hslice => Nat.le_of_eq (hlengths slice hslice), by simp, fun _ => ⟨rfl, hlengths⟩,
    fun hnot => absurd h hnot⟩
  · obtain ⟨_, _⟩ := h
    exact iff_of_false (List.cons_ne_nil _ _) (by omega)
  · refine ⟨[⟨0, w.take ((w.length + 1) / 2), 9 - (w.length + 1) / 2⟩,
      ⟨9 - w.length / 2, w.drop ((w.length + 1) / 2), 0⟩], ?_, ?_, fun hnot => absurd h hnot⟩
    · simp [Part.shown, spaces]
    · simp

theorem layout_plain (hle : w.length ≤ 36) (h : ¬ Centred w.length) :
    Layout w (pieces w (numberOfSlices w.length)) := by
  have hmost := le_slices w.length
  have hcount : numberOfSlices w.length ≤ 4 := by
    by_contra hmore
    have := @lt_of_lt_slices w.length 4 (by omega)
    unfold cardinality at this
    omega
  refine ⟨?_, fun _ => ?_, fun _ => mem_pieces, ?_, fun hcentred => absurd hcentred h, fun _ slice hslice => ?_⟩
  · rw [← List.length_eq_zero_iff, length_pieces]
    constructor
    · intro hzero
      rw [hzero, Nat.zero_mul] at hmost
      exact .inl (Nat.le_zero.mp hmost)
    · intro hempty
      have hzero : w.length = 0 := by omega
      rw [hzero]
      rfl
  · refine ⟨(pieces w (numberOfSlices w.length)).map fun text => ⟨0, text, 0⟩, ?_, ?_, fun _ part hpart => ?_⟩
    · rw [List.map_map]
      refine (List.map_id' _).symm.trans (List.map_congr_left fun text _ => ?_)
      simp [Part.shown, spaces]
    · rw [List.map_map]
      have hid : (Part.text ∘ fun text => (⟨0, text, 0⟩ : Part)) = id := rfl
      rw [hid, List.map_id, flatten_pieces, List.take_of_length_le hmost]
    · obtain ⟨text, _, rfl⟩ := List.mem_map.mp hpart
      exact ⟨rfl, rfl⟩
  · rw [length_pieces]
    exact hcount
  · cases hn : numberOfSlices w.length with
    | zero =>
        rw [hn] at hslice
        exact absurd hslice List.not_mem_nil
    | succ n =>
        rw [hn, pieces_succ, List.dropLast_concat] at hslice
        have hbefore := @lt_of_lt_slices w.length n (by omega)
        exact length_full (Nat.le_of_lt hbefore) hslice

theorem decrement_layout (u : Utfcpp) (cs : List Char) :
    ∃ slices, decrement u (utf8 cs) = .ok slices ∧ Layout (utf16 cs) slices ∧ NoWrap (utf16 cs).length := by
  rcases Nat.lt_or_ge 36 (utf16 cs).length with hlong | hle
  · exact ⟨_, decrement_long hlong, layout_long hlong, noWrap _⟩
  · by_cases h : Centred (utf16 cs).length
    · exact ⟨_, decrement_centred h, layout_centred h, noWrap _⟩
    · exact ⟨_, decrement_plain hle h, layout_plain hle h, noWrap _⟩

theorem decrement_layout_greeting : ∃ slices, decrement exact (utf8 "今日は大吉です、おめでとう".toList) = .ok slices ∧
    Layout (utf16 "今日は大吉です、おめでとう".toList) slices ∧ NoWrap (utf16 "今日は大吉です、おめでとう".toList).length :=
  decrement_layout exact "今日は大吉です、おめでとう".toList

end Layout

end MigangBot.ZhanbuLayout
