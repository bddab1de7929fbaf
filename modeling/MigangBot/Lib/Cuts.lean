import MigangBot.Lib.Rewriting

namespace MigangBot.Lib.Cuts

open Rewriting

variable {α : Type} {d s x y rest rest' : List α} {pieces pieces' : List (List α)}

/-- No occurrence begins before the one that x is cut off at, not even one that
overlaps it. -/
def First (d x rest : List α) : Prop := ∀ i < x.length, ¬ d <+: (x ++ (d ++ rest)).drop i

/-- What lies between the occurrences of a word, taken greedily from the left. -/
inductive Cut (d : List α) : List α → List (List α) → Prop
  | last {s : List α} (hs : ¬ d <:+: s) : Cut d s [s]
  | found {x rest : List α} {pieces : List (List α)} (hx : First d x rest) (hr : Cut d rest pieces) :
      Cut d (x ++ (d ++ rest)) (x :: pieces)

theorem Cut.ne_nil (h : Cut d s pieces) : pieces ≠ [] := by
  cases h <;> exact List.cons_ne_nil _ _

theorem intercalate_cons (o x : List α) (h : pieces ≠ []) :
    o.intercalate (x :: pieces) = x ++ (o ++ o.intercalate pieces) := by
  rw [List.intercalate_cons_of_ne_nil h, List.append_assoc]

theorem Cut.intercalate_eq (h : Cut d s pieces) : d.intercalate pieces = s := by
  induction h with
  | last hs => exact List.intercalate_singleton
  | found hx hr ih => rw [intercalate_cons _ _ hr.ne_nil, ih]

theorem infix_found (d x rest : List α) : d <:+: x ++ (d ++ rest) :=
  ⟨x, rest, List.append_assoc x d rest⟩

theorem First.length_le (h : First d x rest) (he : x ++ (d ++ rest) = y ++ (d ++ rest')) :
    x.length ≤ y.length := by
  by_contra hlt
  apply h y.length (Nat.lt_of_not_le hlt)
  rw [he, List.drop_left]
  exact List.prefix_append d rest'

theorem First.unique (h : First d x rest) (h' : First d y rest') (he : x ++ (d ++ rest) = y ++ (d ++ rest')) :
    x = y ∧ rest = rest' := by
  have hlength := Nat.le_antisymm (h.length_le he) (h'.length_le he.symm)
  obtain ⟨hxy, htail⟩ := List.append_inj he hlength
  exact ⟨hxy, List.append_cancel_left htail⟩

theorem cut_iff : Cut d s pieces ↔ (¬ d <:+: s ∧ pieces = [s]) ∨
    ∃ x rest tail, s = x ++ (d ++ rest) ∧ First d x rest ∧ Cut d rest tail ∧ pieces = x :: tail := by
  constructor
  · intro h
    cases h with
    | last hs => exact .inl ⟨hs, rfl⟩
    | found hx hr => exact .inr ⟨_, _, _, rfl, hx, hr, rfl⟩
  · rintro (⟨hs, rfl⟩ | ⟨x, rest, tail, rfl, hx, hr, rfl⟩)
    · exact .last hs
    · exact .found hx hr

theorem Cut.unique (h : Cut d s pieces) (h' : Cut d s pieces') : pieces' = pieces := by
  induction h generalizing pieces' with
  | last hs =>
      rcases cut_iff.mp h' with ⟨_, rfl⟩ | ⟨y, rest', tail, rfl, _, _, _⟩
      · rfl
      · exact absurd (infix_found d y rest') hs
  | found hx hr ih =>
      rcases cut_iff.mp h' with ⟨hs, _⟩ | ⟨y, rest', tail, he, hy, hr', rfl⟩
      · exact absurd (infix_found d _ _) hs
      · obtain ⟨rfl, rfl⟩ := hx.unique hy he
        rw [ih hr']

/-- A word that occurs has a first occurrence. -/
theorem exists_first (h : d <:+: s) : ∃ x rest, s = x ++ (d ++ rest) ∧ First d x rest := by
  induction s with
  | nil => exact ⟨[], [], by simpa using h, fun i hi => absurd hi (Nat.not_lt_zero i)⟩
  | cons a s ih =>
      by_cases hp : d <+: a :: s
      · obtain ⟨rest, hrest⟩ := hp
        exact ⟨[], rest, hrest.symm, fun i hi => absurd hi (Nat.not_lt_zero i)⟩
      · have htail : d <:+: s := (List.infix_cons_iff.mp h).resolve_left hp
        obtain ⟨x, rest, rfl, hx⟩ := ih htail
        refine ⟨a :: x, rest, rfl, ?_⟩
        intro i hi
        cases i with
        | zero => exact hp
        | succ i => exact hx i (Nat.lt_of_succ_lt_succ hi)

theorem exists_cut (hd : d ≠ []) (s : List α) : ∃ pieces, Cut d s pieces := by
  induction hn : s.length using Nat.strong_induction_on generalizing s with
  | _ n ih =>
      by_cases h : d <:+: s
      · obtain ⟨x, rest, rfl, hx⟩ := exists_first h
        have hlt : rest.length < n := by
          have hpositive := List.length_pos_iff.mpr hd
          rw [← hn, List.length_append, List.length_append]
          omega
        obtain ⟨pieces, hr⟩ := ih _ hlt rest rfl
        exact ⟨x :: pieces, .found hx hr⟩
      · exact ⟨[s], .last h⟩

theorem Cut.length_intercalate_le {o : List α} (ho : o.length ≤ d.length) (h : Cut d s pieces) :
    (o.intercalate pieces).length ≤ s.length := by
  induction h with
  | last hs => rw [List.intercalate_singleton]
  | found hx hr ih =>
      rw [intercalate_cons _ _ hr.ne_nil]
      simp only [List.length_append]
      omega

variable [DecidableEq α]

theorem firstMatch_rule {o w : List α} (h : ¬ d <+: w) : firstMatch [(d, o)] w = none := by
  rw [firstMatch_eq_none]
  intro r hr
  cases List.mem_singleton.mp hr
  exact h

theorem First.rewrite_eq (o : List α) (h : First d x rest) :
    rewrite [(d, o)] (x ++ (d ++ rest)) = x ++ rewrite [(d, o)] (d ++ rest) := by
  induction x with
  | nil => rfl
  | cons a x ih =>
      have hnone : firstMatch [(d, o)] (a :: (x ++ (d ++ rest))) = none :=
        firstMatch_rule (h 0 (Nat.succ_pos _))
      rw [List.cons_append, rewrite_copy hnone, ih, List.cons_append]
      intro i hi
      exact h (i + 1) (Nat.succ_lt_succ hi)

theorem rewrite_absent (o : List α) (h : ¬ d <:+: s) : rewrite [(d, o)] s = s := by
  induction s with
  | nil => rfl
  | cons a s ih =>
      have hnone : firstMatch [(d, o)] (a :: s) = none := firstMatch_rule fun hp => h hp.isInfix
      rw [rewrite_copy hnone, ih fun ht => h (List.infix_cons ht)]

theorem rewrite_rule (hd : d ≠ []) (o rest : List α) :
    rewrite [(d, o)] (d ++ rest) = o ++ rewrite [(d, o)] rest := by
  apply rewrite_match (r := (d, o)) hd
  rw [firstMatch, List.find?_cons_of_pos]
  exact List.isPrefixOf_iff_prefix.mpr (List.prefix_append d rest)

/-- A pass with one rule puts the new word between the pieces. -/
theorem Cut.rewrite_eq (hd : d ≠ []) (o : List α) (h : Cut d s pieces) :
    rewrite [(d, o)] s = o.intercalate pieces := by
  induction h with
  | last hs => rw [rewrite_absent o hs, List.intercalate_singleton]
  | found hx hr ih =>
      rw [hx.rewrite_eq, rewrite_rule hd, ih, intercalate_cons _ _ hr.ne_nil]

theorem length_rewrite_le (hd : d ≠ []) {o : List α} (ho : o.length ≤ d.length) (s : List α) :
    (rewrite [(d, o)] s).length ≤ s.length := by
  obtain ⟨pieces, hcut⟩ := exists_cut hd s
  rw [hcut.rewrite_eq hd o]
  exact hcut.length_intercalate_le ho

end MigangBot.Lib.Cuts
