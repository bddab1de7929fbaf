import MigangBot.Lib.Cuts
import MigangBot.MessageSplit

namespace MigangBot.ReplaceAll

open Text Feedback MessageSplit Lib.Rewriting Lib.Cuts

variable {fromText toText str done rest x : Bytes} {pieces : List Bytes} {turns : Nat}

/-- The loop of ReplaceAll over the string that it changes, or none if it is still
running after so many turns. -/
def replaceFrom (fromText toText : Bytes) : Nat → Bytes → Nat → Option Bytes
  | 0, _, _ => none
  | turns + 1, str, startPos =>
      match findFrom str fromText startPos with
      | none => some str
      | some startPos =>
          replaceFrom fromText toText turns
            (str.take startPos ++ (toText ++ str.drop (startPos + fromText.length))) (startPos + toText.length)

def replaceAll (turns : Nat) (str fromText toText : Bytes) : Option Bytes :=
  if fromText.isEmpty then some str else replaceFrom fromText toText turns str 0

theorem find_behind_none (h : ¬ fromText <:+: rest) : findFrom (done ++ rest) fromText done.length = none := by
  cases hfind : findFrom (done ++ rest) fromText done.length with
  | none => rfl
  | some k =>
      obtain ⟨hk, hstart, _⟩ := findFrom_some hfind
      rw [← Nat.add_sub_cancel' hk, List.drop_length_add_append] at hstart
      exact absurd (hstart.isInfix.trans (List.drop_suffix _ rest).isInfix) h

/-- The search from behind what is done finds what is first in the rest. -/
theorem find_behind (h : First fromText x rest) :
    findFrom (done ++ (x ++ (fromText ++ rest))) fromText done.length = some (done.length + x.length) := by
  cases hfind : findFrom (done ++ (x ++ (fromText ++ rest))) fromText done.length with
  | none =>
      have hno := findFrom_none (by simp) hfind
      rw [List.drop_left] at hno
      exact absurd (infix_found fromText x rest) hno
  | some k =>
      obtain ⟨hk, hstart, hfirst⟩ := findFrom_some hfind
      have hle : k ≤ done.length + x.length := by
        by_contra hlt
        apply hfirst (done.length + x.length) (Nat.le_add_right _ _) (Nat.lt_of_not_le hlt)
        rw [List.drop_length_add_append, List.drop_left]
        exact List.prefix_append fromText rest
      have hge : done.length + x.length ≤ k := by
        by_contra hlt
        rw [← Nat.add_sub_cancel' hk, List.drop_length_add_append] at hstart
        exact h (k - done.length) (by omega) hstart
      rw [Nat.le_antisymm hle hge]

/-- The string is what is done followed by a rest of the original, and the search
goes on where the rest begins. -/
theorem replaceFrom_cut (hd : fromText ≠ []) (h : Cut fromText rest pieces) (toText done : Bytes)
    (hturns : rest.length < turns) :
    replaceFrom fromText toText turns (done ++ rest) done.length =
      some (done ++ toText.intercalate pieces) := by
  induction h generalizing done turns with
  | last hs =>
      obtain ⟨turns, rfl⟩ := Nat.exists_eq_add_one_of_ne_zero (Nat.ne_zero_of_lt hturns)
      rw [replaceFrom, find_behind_none hs, List.intercalate_singleton]
  | @found x rest pieces hx hr ih =>
      obtain ⟨turns, rfl⟩ := Nat.exists_eq_add_one_of_ne_zero (Nat.ne_zero_of_lt hturns)
      have hpositive := List.length_pos_iff.mpr hd
      rw [List.length_append, List.length_append] at hturns
      have hhead : (done ++ (x ++ (fromText ++ rest))).take (done.length + x.length) = done ++ x := by
        rw [← List.append_assoc, ← List.length_append, List.take_left]
      have htail : (done ++ (x ++ (fromText ++ rest))).drop (done.length + x.length + fromText.length) = rest := by
        rw [Nat.add_assoc, List.drop_length_add_append, List.drop_length_add_append, List.drop_left]
      have hdone : done.length + x.length + toText.length = (done ++ (x ++ toText)).length := by
        rw [List.length_append, List.length_append, Nat.add_assoc]
      have hnext : replaceFrom fromText toText turns (done ++ (x ++ toText) ++ rest) (done ++ (x ++ toText)).length =
          some (done ++ (x ++ toText) ++ toText.intercalate pieces) := ih _ (by omega)
      rw [replaceFrom, find_behind hx]
      dsimp only
      rw [hhead, htail, hdone, intercalate_cons _ _ hr.ne_nil]
      simpa only [List.append_assoc] using hnext

/-- The loop ends, and what it ends with is the original cut at the occurrences
of fromText, greedily from the left, with toText put in their places. -/
theorem replaceAll_cut (str fromText : Bytes) (hd : fromText ≠ []) :
    ∃ pieces, Cut fromText str pieces ∧ (∀ pieces', Cut fromText str pieces' → pieces' = pieces) ∧
      fromText.intercalate pieces = str ∧
      ∀ toText turns, str.length < turns →
        replaceAll turns str fromText toText = some (toText.intercalate pieces) := by
  obtain ⟨pieces, hcut⟩ := exists_cut hd str
  refine ⟨pieces, hcut, fun pieces' hcut' => hcut.unique hcut', hcut.intercalate_eq, ?_⟩
  intro toText turns hturns
  rw [replaceAll, if_neg (by simpa using hd)]
  exact replaceFrom_cut hd hcut toText [] hturns

example : replaceAll 6 (bytes "aaaaa") (bytes "aa") (bytes "aab") = some (bytes "aabaaba") := by decide

theorem replaceAll_cut_amp :
    ∃ pieces, Cut (bytes "&") (bytes "a&&amp;b") pieces ∧
      ∀ turns, 8 < turns → replaceAll turns (bytes "a&&amp;b") (bytes "&") (bytes "&amp;") =
        some ((bytes "&amp;").intercalate pieces) := by
  obtain ⟨pieces, hcut, _, _, hrun⟩ := replaceAll_cut (bytes "a&&amp;b") (bytes "&") (by decide)
  exact ⟨pieces, hcut, hrun (bytes "&amp;")⟩

theorem replaceAll_eq_rewrite (hd : fromText ≠ []) (hturns : str.length < turns) :
    replaceAll turns str fromText toText = some (rewrite [(fromText, toText)] str) := by
  obtain ⟨pieces, hcut⟩ := exists_cut hd str
  rw [replaceAll, if_neg (by simpa using hd), hcut.rewrite_eq hd toText]
  exact replaceFrom_cut hd hcut toText [] hturns

/-- What ParseWeibo does to a text before the text is read as HTML. -/
def parseText (turns : Nat) (textBody : Bytes) : Option Bytes := do
  let textBody ← replaceAll turns textBody (bytes "\u200b") []
  let textBody ← replaceAll turns textBody (bytes "<br/>") (bytes "\n")
  let textBody ← replaceAll turns textBody (bytes "<br />") (bytes "\n")
  replaceAll turns textBody (bytes "&") (bytes "&amp;")

def broken (textBody : Bytes) : Bytes :=
  rewrite [(bytes "<br />", bytes "\n")] (rewrite [(bytes "<br/>", bytes "\n")]
    (rewrite [(bytes "\u200b", [])] textBody))

theorem parseText_eq {textBody : Bytes} (hturns : textBody.length < turns) :
    parseText turns textBody = some (rewrite [(bytes "&", bytes "&amp;")] (broken textBody)) := by
  have hspace : (rewrite [(bytes "\u200b", [])] textBody).length < turns :=
    (length_rewrite_le (by decide) (by decide) _).trans_lt hturns
  have hshort : (rewrite [(bytes "<br/>", bytes "\n")] (rewrite [(bytes "\u200b", [])] textBody)).length < turns :=
    (length_rewrite_le (by decide) (by decide) _).trans_lt hspace
  have hlong : (broken textBody).length < turns :=
    (length_rewrite_le (by decide) (by decide) _).trans_lt hshort
  rw [parseText, replaceAll_eq_rewrite (by decide) hturns, Option.bind_eq_bind, Option.bind_some,
    replaceAll_eq_rewrite (by decide) hspace, Option.bind_some,
    replaceAll_eq_rewrite (by decide) hshort, Option.bind_some,
    ← broken, replaceAll_eq_rewrite (by decide) hlong]

/-- Reading the entity as the character gives the text back, whatever entities
were in it before. -/
theorem read_amp (text : Bytes) :
    rewrite [(bytes "&amp;", bytes "&")] (rewrite [(bytes "&", bytes "&amp;")] text) = text := by
  have hamp : bytes "&" = [char '&'] := by decide
  have hentity : bytes "&amp;" = char '&' :: bytes "amp;" := by decide
  induction text with
  | nil => rfl
  | cons c text ih =>
      by_cases hc : c = char '&'
      · have hcons : c :: text = bytes "&" ++ text := by
          rw [hc, hamp]
          rfl
        rw [hcons, rewrite_rule (by decide), rewrite_rule (by decide), ih]
      · have hone : ¬ bytes "&" <+: c :: text := by
          rw [hamp, List.cons_prefix_cons]
          exact fun h => hc h.1.symm
        have hentire : ∀ t, ¬ bytes "&amp;" <+: c :: t := by
          intro t
          rw [hentity, List.cons_prefix_cons]
          exact fun h => hc h.1.symm
        rw [rewrite_copy (firstMatch_rule hone), rewrite_copy (firstMatch_rule (hentire _)), ih]

end MigangBot.ReplaceAll
