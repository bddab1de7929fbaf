import MigangBot.JsonValue
import MigangBot.Lib.Rewriting
import Mathlib.Data.List.DropRight

namespace MigangBot.MessageUtility

open Lib.Exceptions Lib.Rewriting Text JsonValue

/-- std::regex_replace with a pattern of ordinary characters: its matches, from
left to right, are replaced. -/
def regexReplace (str pattern replacement : Bytes) : Bytes := rewrite [(pattern, replacement)] str

def unescape (str : Bytes) : Bytes :=
  let ret := regexReplace str (bytes "&#44;") (bytes ",")
  let ret := regexReplace ret (bytes "&#91;") (bytes "[")
  let ret := regexReplace ret (bytes "&#93;") (bytes "]")
  regexReplace ret (bytes "&amp;") (bytes "&")

def removeCommand (view : Bytes) (commandSize : Int) : Outcome Bytes :=
  if commandSize = 0 then .ok view
  else if commandSize > 0 then cutFront view commandSize.toNat
  else cutBack view (-commandSize).toNat

def extraPlainText (event : Object) : Outcome Bytes := noexcept do
  let msgRawStr ← (← event.constIndex "message").getString
  let view := unescape msgRawStr
  if event.contains "__command_size__" then
    let commandSize ← (← event.constIndex "__command_size__").getShort
    removeCommand view commandSize
  else return view

def strip (str : Bytes) (ch : UInt8) : Outcome Bytes := noexcept do
  let view ← cutFront str (min (findFirstNotOf ch str) str.length)
  cutBack view (min (sizeSub (sizeSub view.length (findLastNotOf ch view)) 1) view.length)

/-- LStrip on a view. -/
def lStrip (str : Bytes) (ch : UInt8) : Outcome Bytes := noexcept do
  cutFront str (min (findFirstNotOf ch str) str.length)

/-- RStrip on a string. -/
def rStrip (str : Bytes) (ch : UInt8) : Outcome Bytes := noexcept do
  cutBack str (min (sizeSub (sizeSub str.length (findLastNotOf ch str)) 1) str.length)

theorem extraPlainText_whole {event : Object} {m : Bytes}
    (hm : event.find "message" = some (.string m)) (hs : event.contains "__command_size__" = false) :
    extraPlainText event = .ok (unescape m) := by
  simp only [extraPlainText, Object.constIndex, hm, ok_bind, Json.getString, hs,
    Bool.false_eq_true, if_false, noexcept_eq_ok]
  rfl

theorem extraPlainText_command {event : Object} {m : Bytes} {n : UInt64}
    (hm : event.find "message" = some (.string m))
    (hs : event.find "__command_size__" = some (.numberUnsigned n)) :
    extraPlainText event = noexcept (removeCommand (unescape m) ((n.toNat : Int).bmod 65536)) := by
  have hc : event.contains "__command_size__" = true := (Object.contains_iff _ _).mpr ⟨_, hs⟩
  rw [extraPlainText, Object.constIndex_eq_ok.mpr hm, ok_bind, Json.getString, ok_bind, if_pos hc,
    Object.constIndex_eq_ok.mpr hs, ok_bind, Json.getShort_unsigned, ok_bind]

def entities : List (Rule UInt8) :=
  [(bytes "&#44;", bytes ","), (bytes "&#91;", bytes "["), (bytes "&#93;", bytes "]"),
    (bytes "&amp;", bytes "&")]

theorem marked_entities : Marked (char '&') entities := by
  refine ⟨fun r hr => ⟨r.1.tail, ?_⟩, by decide⟩
  revert r
  decide

theorem outputs_entities : ∀ r ∈ entities.take 3, r.2 ≠ [] ∧ char '&' ∉ r.2 ∧
    ∀ r' ∈ entities, List.Disjoint r.2 r'.1 := by
  have h : ∀ r ∈ entities.take 3, r.2 ≠ [] ∧ char '&' ∉ r.2 ∧ ∀ r' ∈ entities, ∀ a ∈ r.2, a ∉ r'.1 := by
    decide +kernel
  exact fun r hr => ⟨(h r hr).1, (h r hr).2.1, fun r' hr' a ha hb => (h r hr).2.2 r' hr' a ha hb⟩

/-- The passes one after the other decode all entities at once. -/
theorem unescape_eq_rewrite (str : Bytes) : unescape str = rewrite entities str := by
  have hpass (rules : List (Rule UInt8)) (r : Rule UInt8) (hr : rules ⊆ entities.take 3)
      (hr' : rules ++ [r] ⊆ entities) (w : Bytes) :
      rewrite [r] (rewrite rules w) = rewrite (rules ++ [r]) w := by
    apply (marked_entities.mono hr').rewrite_rewrite
    intro r₁ h₁
    obtain ⟨hne, hmark, hdis⟩ := outputs_entities r₁ (hr h₁)
    exact ⟨hne, hmark, fun r₂ h₂ => hdis r₂ (hr' (List.mem_append_right _ h₂))⟩
  simp only [unescape, regexReplace]
  rw [hpass _ (bytes "&#91;", bytes "[") (by decide) (by decide),
    hpass _ (bytes "&#93;", bytes "]") (by decide) (by decide),
    hpass _ (bytes "&amp;", bytes "&") (by decide) (by decide)]
  rfl

theorem cutFront_min (s : Bytes) (n : Nat) : cutFront s (min n s.length) = .ok (s.drop (min n s.length)) :=
  if_pos (min_le_right _ _)

theorem cutBack_min (s : Bytes) (n : Nat) :
    cutBack s (min n s.length) = .ok (s.take (s.length - min n s.length)) :=
  if_pos (min_le_right _ _)

theorem strip_eq (s : Bytes) (c : UInt8) : strip s c =
    .ok (let view := s.drop (min (findFirstNotOf c s) s.length)
      view.take (view.length -
        min (sizeSub (sizeSub view.length (findLastNotOf c view)) 1) view.length)) := by
  rw [strip, cutFront_min, ok_bind, cutBack_min]
  rfl

theorem findFirstNotOf_cons {c d : UInt8} (s : Bytes) (h : d ≠ c) : findFirstNotOf c (d :: s) = 0 := by
  rw [findFirstNotOf, List.findIdx?_cons, if_pos (by simpa using h)]
  rfl

theorem findLastNotOf_solid {c : UInt8} {s : Bytes} (hs : c ∉ s) (hne : s ≠ []) :
    findLastNotOf c s = s.length - 1 := by
  obtain ⟨d, t, ht⟩ := List.exists_cons_of_ne_nil (List.reverse_ne_nil_iff.mpr hne)
  have hd : d ≠ c := by
    rintro rfl
    exact hs (List.mem_reverse.mp (ht ▸ List.mem_cons_self))
  rw [findLastNotOf, ht, List.findIdx?_cons, if_pos (by simpa using hd)]
  rfl

theorem strip_solid {s : Bytes} {c : UInt8} (hs : c ∉ s) (hne : s ≠ []) : strip s c = .ok s := by
  have hfirst : findFirstNotOf c s = 0 := by
    obtain ⟨d, t, rfl⟩ := List.exists_cons_of_ne_nil hne
    exact findFirstNotOf_cons t (fun h => hs (h ▸ List.mem_cons_self))
  have hlen : 0 < s.length := List.length_pos_of_ne_nil hne
  have hback : sizeSub (sizeSub s.length (s.length - 1)) 1 = 0 := by
    rw [sizeSub, sizeSub]
    split <;> split <;> omega
  simp only [strip_eq, hfirst, Nat.zero_min, List.drop_zero, findLastNotOf_solid hs hne, hback, Nat.sub_zero,
    List.take_length]

theorem drop_findFirstNotOf {s : Bytes} (hs : s.length < npos) (c : UInt8) :
    s.drop (min (findFirstNotOf c s) s.length) = s.dropWhile (· == c) := by
  rw [List.dropWhile_eq_drop_findIdx_not, findFirstNotOf]
  cases h : s.findIdx? (· != c) with
  | none =>
      rw [List.findIdx?_eq_none_iff] at h
      have hall : s.findIdx (fun a => !(a == c)) = s.length := List.findIdx_eq_length.mpr h
      rw [Option.getD_none, Nat.min_eq_right hs.le, hall]
  | some i =>
      obtain ⟨hi, _⟩ := List.findIdx?_eq_some_iff_findIdx_eq.mp h
      rw [Option.getD_some, Nat.min_eq_left hi.le]
      exact congrArg (s.drop ·) (List.findIdx?_eq_some_iff_findIdx_eq.mp h).2.symm

theorem lStrip_eq {s : Bytes} (hs : s.length < npos) (c : UInt8) : lStrip s c = .ok (s.dropWhile (· == c)) := by
  rw [lStrip, cutFront_min, drop_findFirstNotOf hs]
  rfl

/-- A text without the characters at its ends. -/
def trim (s : Bytes) (c : UInt8) : Bytes := (s.dropWhile (· == c)).rdropWhile (· == c)

theorem take_findLastNotOf (c : UInt8) {s : Bytes} (h : s ≠ [] → ∃ a ∈ s, a ≠ c) :
    s.take (s.length - min (sizeSub (sizeSub s.length (findLastNotOf c s)) 1) s.length) = s.rdropWhile (· == c) := by
  rw [List.rdropWhile, List.dropWhile_eq_drop_findIdx_not, List.drop_reverse, List.reverse_reverse, findLastNotOf]
  cases hfind : s.reverse.findIdx? (· != c) with
  | none =>
      have hnil : s = [] := by
        by_contra hne
        obtain ⟨a, ha, hac⟩ := h hne
        rw [List.findIdx?_eq_none_iff] at hfind
        have := hfind a (List.mem_reverse.mpr ha)
        simp [hac] at this
      subst hnil
      rfl
  | some i =>
      obtain ⟨hi, hidx⟩ := List.findIdx?_eq_some_iff_findIdx_eq.mp hfind
      rw [List.length_reverse] at hi
      have hskip : sizeSub (sizeSub s.length (s.length - 1 - i)) 1 = i := by
        rw [sizeSub, sizeSub]
        split <;> split <;> omega
      change s.take (s.length - min (sizeSub (sizeSub s.length (s.length - 1 - i)) 1) s.length) = _
      rw [hskip, Nat.min_eq_left hi.le]
      exact congrArg (fun n => s.take (s.length - n)) hidx.symm

theorem strip_eq_trim {s : Bytes} (hs : s.length < npos) (c : UInt8) : strip s c = .ok (trim s c) := by
  rw [strip_eq, drop_findFirstNotOf hs, trim]
  apply congrArg Except.ok
  apply take_findLastNotOf
  intro hne
  exact ⟨_, List.head_mem hne, by simpa using List.head_dropWhile_not (· == c) hne⟩

theorem returns_strip (s : Bytes) (c : UInt8) : Returns (strip s c) := ⟨_, strip_eq s c⟩

end MigangBot.MessageUtility
