import Mathlib.Data.List.AList

namespace MigangBot.Lib.Maps

abbrev FiniteMap (K V : Type) := AList (fun _ : K => V)

variable {K V : Type} [DecidableEq K]

theorem lookup_insert_eq (m : FiniteMap K V) (k k' : K) (v : V) :
    (m.insert k v).lookup k' = if k' = k then some v else m.lookup k' := by
  by_cases h : k' = k
  · subst h
    simp
  · simp [h, AList.lookup_insert_ne h]

theorem lookup_erase_eq (m : FiniteMap K V) (k k' : K) :
    (m.erase k).lookup k' = if k' = k then none else m.lookup k' := by
  by_cases h : k' = k
  · subst h
    simp
  · simp [h, AList.lookup_erase_ne h]

/-- Inserting without overwriting. -/
def emplace (m : FiniteMap K V) (k : K) (v : V) : FiniteMap K V :=
  match m.lookup k with
  | none => m.insert k v
  | some _ => m

theorem emplace_new {m : FiniteMap K V} {k : K} (v : V) (h : m.lookup k = none) :
    emplace m k v = m.insert k v := by
  rw [emplace, h]

theorem emplace_present {m : FiniteMap K V} {k : K} {v' : V} (v : V) (h : m.lookup k = some v') :
    emplace m k v = m := by
  rw [emplace, h]

theorem emplace_eq_iff {m : FiniteMap K V} {k : K} {v : V} : emplace m k v = m ↔ (m.lookup k).isSome := by
  cases h : m.lookup k with
  | some v' => simp [emplace_present v h]
  | none =>
      rw [emplace_new v h]
      refine iff_of_false (fun heq => ?_) (by simp)
      have hk := congrArg (AList.lookup k) heq
      rw [AList.lookup_insert, h] at hk
      cases hk

theorem isSome_lookup_emplace (m : FiniteMap K V) (k k' : K) (v : V) :
    ((emplace m k v).lookup k').isSome ↔ k' = k ∨ (m.lookup k').isSome := by
  cases hm : m.lookup k with
  | none =>
      rw [emplace_new v hm, lookup_insert_eq]
      by_cases hk : k' = k <;> simp [hk]
  | some v' =>
      rw [emplace_present v hm]
      constructor
      · exact .inr
      · intro h
        rcases h with rfl | h
        · simp [hm]
        · exact h

theorem isSome_lookup_foldl_emplace {α : Type} (key : α → K) (value : α → V) (rows : List α)
    (m : FiniteMap K V) (k : K) :
    ((rows.foldl (fun m row => emplace m (key row) (value row)) m).lookup k).isSome ↔
      (m.lookup k).isSome ∨ ∃ row ∈ rows, key row = k := by
  induction rows generalizing m with
  | nil => simp
  | cons row rows ih =>
      rw [List.foldl_cons, ih, isSome_lookup_emplace]
      simp only [List.mem_cons, exists_eq_or_imp]
      rw [eq_comm (a := k), or_assoc, or_left_comm]

theorem lookup_foldl_emplace {α : Type} (key : α → K) (value : α → V) (rows : List α)
    (m : FiniteMap K V) (k : K) : (rows.foldl (fun m row => emplace m (key row) (value row)) m).lookup k =
      (m.lookup k).or ((rows.find? fun row => key row = k).map value) := by
  induction rows generalizing m with
  | nil => simp
  | cons row rows ih =>
      rw [List.foldl_cons, ih, List.find?_cons]
      cases hm : m.lookup (key row) with
      | some v =>
          rw [emplace_present _ hm]
          by_cases hk : key row = k
          · rw [← hk, hm]
            rfl
          · simp [hk]
      | none =>
          rw [emplace_new _ hm, lookup_insert_eq]
          by_cases hk : key row = k
          · subst hk
            simp [hm]
          · simp [hk, Ne.symm hk]

section Pushing

/-- Putting one more behind what a key holds; the entry is made if there is none. -/
def push (m : FiniteMap K (List V)) (k : K) (v : V) : FiniteMap K (List V) := m.insert k ((m.lookup k).getD [] ++ [v])

theorem lookup_foldl_push (m : FiniteMap K (List V)) (k k' : K) (vs : List V) :
    (vs.foldl (fun m v => push m k v) m).lookup k' =
      if k' = k ∧ vs ≠ [] then some ((m.lookup k).getD [] ++ vs) else m.lookup k' := by
  induction vs generalizing m with
  | nil => simp
  | cons v vs ih =>
      rw [List.foldl_cons, ih, push, lookup_insert_eq, lookup_insert_eq]
      by_cases hk : k' = k
      · cases vs <;> simp [hk]
      · simp [hk]

end Pushing

theorem isSome_lookup_iff (m : FiniteMap K V) (k : K) :
    (m.lookup k).isSome ↔ ∃ e ∈ m.entries, e.1 = k := by
  rw [AList.lookup_isSome, AList.mem_keys, AList.keys, List.keys, List.mem_map]

theorem any_entries_iff (m : FiniteMap K V) (p : V → Bool) :
    m.entries.any (fun e => p e.2) = true ↔ ∃ k v, m.lookup k = some v ∧ p v = true := by
  simp only [List.any_eq_true]
  constructor
  · rintro ⟨⟨k, v⟩, he, hp⟩
    exact ⟨k, v, AList.mem_lookup_iff.mpr he, hp⟩
  · rintro ⟨k, v, hl, hp⟩
    exact ⟨⟨k, v⟩, AList.mem_lookup_iff.mp hl, hp⟩

def isEmpty (m : FiniteMap K V) : Bool := m.entries.isEmpty

theorem isEmpty_iff (m : FiniteMap K V) : isEmpty m = true ↔ ∀ k, m.lookup k = none := by
  simp only [isEmpty, List.isEmpty_iff, AList.lookup_eq_none, AList.mem_keys, AList.keys]
  constructor
  · intro h k
    simp [h]
  · intro h
    cases he : m.entries with
    | nil => rfl
    | cons e es =>
        have := h e.1
        simp [he] at this

@[simp] theorem isEmpty_insert (m : FiniteMap K V) (k : K) (v : V) : isEmpty (m.insert k v) = false := by
  rfl

section Rows

variable {L : Type} [DecidableEq L]

def find₂ (m : FiniteMap K (FiniteMap L V)) (k : K) (l : L) : Option V :=
  (m.lookup k).bind (fun row => row.lookup l)

def insert₂ (m : FiniteMap K (FiniteMap L V)) (k : K) (l : L) (v : V) : FiniteMap K (FiniteMap L V) :=
  m.insert k (((m.lookup k).getD ∅).insert l v)

def erase₂ (m : FiniteMap K (FiniteMap L V)) (k : K) (l : L) : FiniteMap K (FiniteMap L V) :=
  match m.lookup k with
  | some row => m.insert k (row.erase l)
  | none => m

theorem find₂_insert₂ (m : FiniteMap K (FiniteMap L V)) (k k' : K) (l l' : L) (v : V) :
    find₂ (insert₂ m k l v) k' l' = if k' = k ∧ l' = l then some v else find₂ m k' l' := by
  by_cases hk : k' = k
  · subst hk
    simp only [find₂, insert₂, AList.lookup_insert, Option.bind_some, lookup_insert_eq, true_and]
    cases hm : m.lookup k' <;> simp
  · simp [find₂, insert₂, hk]

theorem find₂_erase₂ (m : FiniteMap K (FiniteMap L V)) (k k' : K) (l l' : L) :
    find₂ (erase₂ m k l) k' l' = if k' = k ∧ l' = l then none else find₂ m k' l' := by
  by_cases hk : k' = k
  · subst hk
    cases hm : m.lookup k' <;> simp [find₂, erase₂, lookup_erase_eq, hm]
  · cases hm : m.lookup k <;> simp [find₂, erase₂, hm, hk]

theorem find₂_erase (m : FiniteMap K (FiniteMap L V)) (k k' : K) (l' : L) :
    find₂ (m.erase k) k' l' = if k' = k then none else find₂ m k' l' := by
  by_cases hk : k' = k <;> simp [find₂, lookup_erase_eq, hk]

end Rows

end MigangBot.Lib.Maps
