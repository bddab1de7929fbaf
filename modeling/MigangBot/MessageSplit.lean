import MigangBot.Feedback

namespace MigangBot.MessageSplit

open Text Feedback

section Search

variable {s d : Bytes} {pos k : Nat}

theorem infix_iff_drop : d <:+: s ↔ ∃ i, i ≤ s.length ∧ d <+: s.drop i := by
  constructor
  · intro h
    obtain ⟨x, y, rfl⟩ := h
    refine ⟨x.length, by simp, ?_⟩
    rw [List.append_assoc, List.drop_left]
    exact List.prefix_append d y
  · intro h
    obtain ⟨i, _, hstart⟩ := h
    exact hstart.isInfix.trans (List.drop_suffix i s).isInfix

theorem findFrom_some (h : findFrom s d pos = some k) :
    pos ≤ k ∧ d <+: s.drop k ∧ ∀ i, pos ≤ i → i < k → ¬ d <+: s.drop i := by
  rw [findFrom, List.find?_range_eq_some] at h
  obtain ⟨hk, _, hfirst⟩ := h
  rw [Bool.and_eq_true, decide_eq_true_eq, List.isPrefixOf_iff_prefix] at hk
  refine ⟨hk.1, hk.2, fun i hi hlt hstart => ?_⟩
  have hno := hfirst i hlt
  rw [decide_eq_true hi, List.isPrefixOf_iff_prefix.mpr hstart] at hno
  exact absurd hno (by decide)

theorem infix_of_found (h : findFrom s d pos = some k) : d <:+: s :=
  (findFrom_some h).2.1.isInfix.trans (List.drop_suffix k s).isInfix

theorem findFrom_none (hpos : pos ≤ s.length) (h : findFrom s d pos = none) : ¬ d <:+: s.drop pos := by
  rw [findFrom, List.find?_eq_none] at h
  rw [infix_iff_drop]
  intro hinfix
  obtain ⟨i, hi, hstart⟩ := hinfix
  rw [List.length_drop] at hi
  rw [List.drop_drop] at hstart
  apply h (pos + i) (List.mem_range.mpr (by omega))
  rw [decide_eq_true (Nat.le_add_right pos i), List.isPrefixOf_iff_prefix.mpr hstart]
  rfl

/-- A find is inside the text, and so is where the loop goes on. -/
theorem lt_of_found (hd : d ≠ []) (h : findFrom s d pos = some k) : k < s.length := by
  have hlength := (findFrom_some h).2.1.length_le
  have hpositive := List.length_pos_iff.mpr hd
  rw [List.length_drop] at hlength
  omega

/-- What is cut off in front of the first find has no delimiter in it. -/
theorem not_infix_take (h : findFrom s d pos = some k) (hd : d ≠ []) :
    ¬ d <:+: (s.drop pos).take (k - pos) := by
  obtain ⟨_, _, hfirst⟩ := findFrom_some h
  rw [infix_iff_drop]
  intro hinfix
  obtain ⟨i, _, hstart⟩ := hinfix
  have hlength := hstart.length_le
  have hpositive := List.length_pos_iff.mpr hd
  rw [List.length_drop, List.length_take] at hlength
  rw [List.drop_take, List.drop_drop] at hstart
  exact hfirst (pos + i) (Nat.le_add_right pos i) (by omega) (hstart.trans (List.take_prefix _ _))

end Search

section Split

variable {s d : Bytes} {n pos : Nat}

def join (pieces : List Bytes) (d : Bytes) : Bytes := d.intercalate pieces

/-- Joining the pieces gives the text back, and no piece has the delimiter in it. -/
def Lossless (s d : Bytes) : Prop := join (split s d) d = s ∧ ∀ piece ∈ split s d, ¬ d <:+: piece

@[simp] theorem join_singleton (piece : Bytes) : join [piece] d = piece := List.intercalate_singleton

theorem join_cons (piece : Bytes) {pieces : List Bytes} (h : pieces ≠ []) :
    join (piece :: pieces) d = piece ++ (d ++ join pieces d) := by
  rw [join, List.intercalate_cons_of_ne_nil h, List.append_assoc]
  rfl

/-- Every find makes the joined text longer by what the loop does not go past. -/
theorem length_join (hd : d ≠ []) (hpos : pos ≤ s.length) (hn : s.length < n + pos) :
    (join (splitFrom s d n pos) d).length =
      s.length - pos + (d.length - 1) * ((splitFrom s d n pos).length - 1) := by
  induction n generalizing pos with
  | zero => omega
  | succ n ih =>
      rw [splitFrom]
      cases hfind : findFrom s d pos with
      | none => simp
      | some k =>
          obtain ⟨hk, _⟩ := findFrom_some hfind
          have hlt := lt_of_found hd hfind
          have hpositive := List.length_pos_iff.mpr hd
          have hne := splitFrom_ne_nil s d n (k + 1)
          have hpieces := List.length_pos_iff.mpr hne
          have hstep : (d.length - 1) * (splitFrom s d n (k + 1)).length =
              (d.length - 1) * ((splitFrom s d n (k + 1)).length - 1) + (d.length - 1) := by
            rw [← Nat.mul_succ, Nat.succ_eq_add_one, Nat.sub_add_cancel hpieces]
          dsimp only
          rw [join_cons _ hne, List.length_append, List.length_append, ih (by omega) (by omega), List.length_cons,
            Nat.add_sub_cancel, hstep, List.length_take, List.length_drop]
          omega

theorem join_split_one {c : UInt8} (hpos : pos ≤ s.length) (hn : s.length < n + pos) :
    join (splitFrom s [c] n pos) [c] = s.drop pos := by
  induction n generalizing pos with
  | zero => omega
  | succ n ih =>
      rw [splitFrom]
      cases hfind : findFrom s [c] pos with
      | none => exact join_singleton _
      | some k =>
          obtain ⟨hk, ⟨rest, hrest⟩, _⟩ := findFrom_some hfind
          have hlt := lt_of_found (List.cons_ne_nil c []) hfind
          have hnext : s.drop (k + 1) = rest := by
            rw [← List.drop_drop, ← hrest]
            rfl
          dsimp only
          rw [join_cons _ (splitFrom_ne_nil s [c] n (k + 1)), ih (by omega) (by omega), hnext, hrest]
          have hend : s.drop k = (s.drop pos).drop (k - pos) := by
            rw [List.drop_drop, Nat.add_sub_cancel' hk]
          rw [hend, List.take_append_drop]

theorem not_infix_piece (hd : d ≠ []) (hpos : pos ≤ s.length) (hn : s.length < n + pos) :
    ∀ piece ∈ splitFrom s d n pos, ¬ d <:+: piece := by
  induction n generalizing pos with
  | zero => omega
  | succ n ih =>
      rw [splitFrom]
      intro piece hpiece
      cases hfind : findFrom s d pos with
      | none =>
          rw [hfind] at hpiece
          cases List.mem_singleton.mp hpiece
          exact findFrom_none hpos hfind
      | some k =>
          rw [hfind] at hpiece
          rcases List.mem_cons.mp hpiece with rfl | hpiece
          · exact not_infix_take hfind hd
          · obtain ⟨hk, _⟩ := findFrom_some hfind
            have hlt := lt_of_found hd hfind
            exact ih (by omega) (by omega) piece hpiece

theorem split_free (h : ¬ d <:+: s) : split s d = [s] := by
  rw [split, splitFrom]
  cases hfind : findFrom s d 0 with
  | none => rfl
  | some k => exact absurd (infix_of_found hfind) h

/-- Only a text without the delimiter is one piece. -/
theorem free_of_length_split (h : (split s d).length = 1) : ¬ d <:+: s := by
  rw [split, splitFrom] at h
  cases hfind : findFrom s d 0 with
  | none => exact findFrom_none (Nat.zero_le _) hfind
  | some k =>
      have hne := List.length_pos_iff.mpr (splitFrom_ne_nil s d s.length (k + 1))
      rw [hfind] at h
      dsimp only at h
      rw [List.length_cons] at h
      omega

theorem split_lossless_iff (s d : Bytes) (hd : d ≠ []) : Lossless s d ↔ d.length = 1 ∨ ¬ d <:+: s := by
  have hpieces : ∀ piece ∈ split s d, ¬ d <:+: piece :=
    not_infix_piece hd (Nat.zero_le s.length) (Nat.lt_succ_self s.length)
  rw [Lossless, and_iff_left hpieces]
  constructor
  · intro h
    have hlength : (join (split s d) d).length = s.length - 0 + (d.length - 1) * ((split s d).length - 1) :=
      length_join hd (Nat.zero_le s.length) (Nat.lt_succ_self s.length)
    rw [h, Nat.sub_zero, Nat.left_eq_add, Nat.mul_eq_zero] at hlength
    have hpositive := List.length_pos_iff.mpr hd
    have hne : 0 < (split s d).length := List.length_pos_iff.mpr (splitFrom_ne_nil s d _ 0)
    rcases hlength with hone | hone
    · exact .inl (by omega)
    · exact .inr (free_of_length_split (by omega))
  · intro h
    rcases h with hone | hfree
    · obtain ⟨c, rfl⟩ := List.length_eq_one_iff.mp hone
      exact join_split_one (Nat.zero_le s.length) (Nat.lt_succ_self s.length)
    · rw [split_free hfree, join_singleton]

/-- Delimiters at both ends and next to each other. -/
theorem split_lossless_commas : Lossless (bytes ",a,,b,") (bytes ",") :=
  (split_lossless_iff (bytes ",a,,b,") (bytes ",") (by decide)).mpr (.inl rfl)

/-- The end of a delimiter is left in the next piece. -/
theorem split_colons : split (bytes "a::b") (bytes "::") = [bytes "a", bytes ":b"] ∧
    ¬ Lossless (bytes "a::b") (bytes "::") := by
  refine ⟨by decide, fun h => ?_⟩
  exact absurd h.1 (by decide)

end Split

end MigangBot.MessageSplit
