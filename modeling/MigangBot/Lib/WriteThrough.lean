import Mathlib.Data.Set.Insert
import Mathlib.Data.List.Induction

namespace MigangBot.Lib.WriteThrough

variable {κ : Type}

/-- What a cache holds and what the store behind it holds. -/
@[ext] structure Stores (κ : Type) where
  cached : Set κ
  stored : Set κ

inductive Op (κ : Type)
  | put (k : κ)
  | drop (k : κ)

/-- The store takes only what fits into it; the cache takes everything. -/
def apply (fits : Set κ) (s : Stores κ) : Op κ → Stores κ
  | .put k => ⟨insert k s.cached, s.stored ∪ ({k} ∩ fits)⟩
  | .drop k => ⟨s.cached \ {k}, s.stored \ {k}⟩

/-- Put at some time, and not dropped since. -/
def LastPut (ops : List (Op κ)) (k : κ) : Prop :=
  ∃ before after, ops = before ++ .put k :: after ∧ .drop k ∉ after

theorem not_lastPut_nil (k : κ) : ¬ LastPut [] k := by
  intro h
  obtain ⟨before, after, h, _⟩ := h
  simp at h

theorem lastPut_snoc {ops : List (Op κ)} {op : Op κ} {k : κ} :
    LastPut (ops ++ [op]) k ↔ op = .put k ∨ (LastPut ops k ∧ op ≠ .drop k) := by
  constructor
  · intro h
    obtain ⟨before, after, h, hdrop⟩ := h
    induction after using List.reverseRecOn with
    | nil =>
        left
        exact (List.append_inj' h rfl).2 |> List.singleton_inj.mp
    | append_singleton after op' _ =>
        right
        rw [← List.cons_append, ← List.append_assoc] at h
        obtain ⟨hops, hop⟩ := List.append_inj' h rfl
        rw [List.singleton_inj] at hop
        rw [List.mem_append, not_or, List.mem_singleton] at hdrop
        exact ⟨⟨before, after, hops, hdrop.1⟩, fun hd => hdrop.2 (hd.symm.trans hop)⟩
  · intro h
    rcases h with rfl | ⟨⟨before, after, rfl, hdrop⟩, hop⟩
    · exact ⟨ops, [], rfl, List.not_mem_nil⟩
    · refine ⟨before, after ++ [op], by simp, ?_⟩
      rw [List.mem_append, not_or, List.mem_singleton]
      exact ⟨hdrop, Ne.symm hop⟩

variable {fits : Set κ} {s : Stores κ}

theorem stored_subset (hs : s.stored ⊆ fits) (ops : List (Op κ)) :
    (ops.foldl (apply fits) s).stored ⊆ fits := by
  induction ops generalizing s with
  | nil => exact hs
  | cons op ops ih =>
      apply ih
      cases op with
      | put k => exact Set.union_subset hs Set.inter_subset_right
      | drop k => exact fun _ hk => hs hk.1

/-- The cache is ahead of the store by what was put last and does not fit. -/
theorem mem_cached (hs : s.cached = s.stored) (hfit : s.stored ⊆ fits) (ops : List (Op κ)) (k : κ) :
    k ∈ (ops.foldl (apply fits) s).cached ↔
      k ∈ (ops.foldl (apply fits) s).stored ∨ (k ∉ fits ∧ LastPut ops k) := by
  induction ops using List.reverseRecOn with
  | nil => simp [hs, not_lastPut_nil]
  | append_singleton ops op ih =>
      have hsub := stored_subset hfit ops
      rw [List.foldl_append, List.foldl_cons, List.foldl_nil, lastPut_snoc]
      cases op with
      | put k' =>
          simp only [apply, Set.mem_insert_iff, Set.mem_union, Set.mem_inter_iff, Set.mem_singleton_iff, ih,
            Op.put.injEq, ne_eq, reduceCtorEq, not_false_eq_true, and_true]
          by_cases hk : k = k'
          · subst hk
            by_cases hf : k ∈ fits <;> simp [hf]
          · simp [hk, Ne.symm hk]
      | drop k' =>
          simp only [apply, Set.mem_sdiff, Set.mem_singleton_iff, ih, ne_eq, reduceCtorEq, false_or,
            Op.drop.injEq, eq_comm (a := k')]
          by_cases hk : k = k' <;> simp [hk]

/-- Reading the store back gives what the cache holds, as long as everything put
last fits. -/
theorem cached_eq_stored_iff (hs : s.cached = s.stored) (hfit : s.stored ⊆ fits) (ops : List (Op κ)) :
    (ops.foldl (apply fits) s).cached = (ops.foldl (apply fits) s).stored ↔
      ∀ k, LastPut ops k → k ∈ fits := by
  have hsub := stored_subset hfit ops
  rw [Set.ext_iff]
  refine forall_congr' fun k => ?_
  rw [mem_cached hs hfit]
  constructor
  · intro h hlast
    by_contra hk
    exact hk (hsub (h.mp (.inr ⟨hk, hlast⟩)))
  · intro h
    constructor
    · intro hc
      rcases hc with hc | ⟨hk, hlast⟩
      · exact hc
      · exact absurd (h hlast) hk
    · exact .inl

end MigangBot.Lib.WriteThrough
