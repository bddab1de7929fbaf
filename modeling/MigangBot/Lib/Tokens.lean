import Mathlib.Data.List.Basic

namespace MigangBot.Lib.Tokens

variable {α : Type} [DecidableEq α]

/-- The lines of a text whose line end is a symbol of one's choice: a symbol at
the end begins no further line. -/
def tokens (d : α) : List α → List (List α)
  | [] => []
  | c :: s =>
      if c = d then [] :: tokens d s
      else
        match tokens d s with
        | [] => [[c]]
        | t :: ts => (c :: t) :: ts

variable {d : α}

@[simp] theorem tokens_nil : tokens d [] = [] := rfl

@[simp] theorem tokens_cons_self (s : List α) : tokens d (d :: s) = [] :: tokens d s := by
  rw [tokens, if_pos rfl]

/-- A token without the symbol, and what follows it. -/
theorem tokens_append {t : List α} (h : d ∉ t) (s : List α) : tokens d (t ++ d :: s) = t :: tokens d s := by
  induction t with
  | nil => simp
  | cons c t ih =>
      rw [List.mem_cons, not_or] at h
      rw [List.cons_append, tokens, if_neg (Ne.symm h.1), ih h.2]

theorem tokens_of_not_mem {t : List α} (h : d ∉ t) (hne : t ≠ []) : tokens d t = [t] := by
  induction t with
  | nil => exact absurd rfl hne
  | cons c t ih =>
      rw [List.mem_cons, not_or] at h
      rw [tokens, if_neg (Ne.symm h.1)]
      cases t with
      | nil => rfl
      | cons c' t => rw [ih h.2 (List.cons_ne_nil c' t)]

theorem tokens_intercalate {ts : List (List α)} (h : ∀ t ∈ ts, d ∉ t ∧ t ≠ []) :
    tokens d ([d].intercalate ts) = ts := by
  induction ts with
  | nil => rfl
  | cons t ts ih =>
      obtain ⟨ht, hne⟩ := h t List.mem_cons_self
      rcases eq_or_ne ts [] with rfl | hts
      · rw [List.intercalate_singleton]
        exact tokens_of_not_mem ht hne
      · rw [List.intercalate_cons_of_ne_nil hts, List.append_assoc, List.singleton_append, tokens_append ht,
          ih fun t ht => h t (List.mem_cons_of_mem _ ht)]

omit [DecidableEq α] in
theorem mem_intercalate {ts : List (List α)} {c : α} (h : c ∈ [d].intercalate ts) : c = d ∨ ∃ t ∈ ts, c ∈ t := by
  induction ts with
  | nil => cases h
  | cons t ts ih =>
      rcases eq_or_ne ts [] with rfl | hts
      · rw [List.intercalate_singleton] at h
        exact .inr ⟨t, List.mem_cons_self, h⟩
      · rw [List.intercalate_cons_of_ne_nil hts, List.append_assoc, List.singleton_append, List.mem_append,
          List.mem_cons] at h
        rcases h with h | h | h
        · exact .inr ⟨t, List.mem_cons_self, h⟩
        · exact .inl h
        · rcases ih h with h | ⟨t', ht', hc⟩
          · exact .inl h
          · exact .inr ⟨t', List.mem_cons_of_mem _ ht', hc⟩

omit [DecidableEq α] in
theorem getLast?_intercalate {ts : List (List α)} (h : ∀ t ∈ ts, d ∉ t ∧ t ≠ []) :
    ([d].intercalate ts).getLast? ≠ some d := by
  induction ts with
  | nil => simp
  | cons t ts ih =>
      obtain ⟨ht, hne⟩ := h t List.mem_cons_self
      rcases eq_or_ne ts [] with rfl | hts
      · rw [List.intercalate_singleton]
        exact fun hlast => ht (List.mem_of_getLast? hlast)
      · have hrest := ih fun t ht => h t (List.mem_cons_of_mem _ ht)
        rw [List.intercalate_cons_of_ne_nil hts, List.getLast?_append]
        cases hlast : ([d].intercalate ts).getLast? with
        | some c => simpa [hlast] using hrest
        | none =>
            rw [List.getLast?_eq_none_iff] at hlast
            obtain ⟨t', ts, rfl⟩ := List.exists_cons_of_ne_nil hts
            have ht' := (h t' (List.mem_cons_of_mem _ List.mem_cons_self)).2
            rcases eq_or_ne ts [] with rfl | hts'
            · rw [List.intercalate_singleton] at hlast
              exact absurd hlast ht'
            · rw [List.intercalate_cons_of_ne_nil hts', List.append_assoc] at hlast
              exact absurd (List.append_eq_nil_iff.mp hlast).1 ht'

end MigangBot.Lib.Tokens
