import Mathlib.Logic.Basic
import Mathlib.Data.List.Basic

namespace MigangBot.Lib.Runs

variable {σ α : Type}

/-- Finite runs of a labelled transition relation, with the labels in order. -/
inductive Run (step : σ → α → σ → Prop) : σ → List α → σ → Prop
  | nil (s : σ) : Run step s [] s
  | cons {s t u : σ} {a : α} {as : List α} : step s a t → Run step t as u → Run step s (a :: as) u

variable {step : σ → α → σ → Prop}

theorem Run.append {s t u : σ} {as bs : List α} (h : Run step s as t) (h' : Run step t bs u) :
    Run step s (as ++ bs) u := by
  induction h with
  | nil => exact h'
  | cons hs _ ih => exact .cons hs (ih h')

theorem Run.snoc {s t u : σ} {as : List α} {a : α} (h : Run step s as t) (hs : step t a u) :
    Run step s (as ++ [a]) u :=
  h.append (.cons hs (.nil u))

theorem Run.split {s u : σ} {as bs : List α} (h : Run step s (as ++ bs) u) :
    ∃ t, Run step s as t ∧ Run step t bs u := by
  induction as generalizing s with
  | nil => exact ⟨s, .nil s, h⟩
  | cons a as ih =>
      cases h with
      | cons hst hrun =>
          obtain ⟨t, hbefore, hafter⟩ := ih hrun
          exact ⟨t, .cons hst hbefore, hafter⟩

theorem Run.invariant (I : σ → Prop) (hstep : ∀ s a t, I s → step s a t → I t)
    {s t : σ} {as : List α} (h : Run step s as t) (hs : I s) : I t := by
  induction h with
  | nil => exact hs
  | cons hst _ ih => exact ih (hstep _ _ _ hs hst)

theorem Run.history_invariant (I : List α → σ → Prop)
    (hstep : ∀ past s a t, I past s → step s a t → I (past ++ [a]) t)
    {s t : σ} {as : List α} (h : Run step s as t) (past : List α) (hs : I past s) :
    I (past ++ as) t := by
  induction h generalizing past with
  | nil => simpa using hs
  | @cons s t u a as hst _ ih =>
      have := ih (past ++ [a]) (hstep past s a t hs hst)
      simpa using this

/-- A rank that the turns among the labels lower and the others do not raise, as long
as the goal is not reached. -/
theorem Run.within (I goal : σ → Prop) (rank : σ → Nat) (turn : α → Bool)
    (hgoal : ∀ s a t, goal s → step s a t → goal t)
    (hstep : ∀ s a t, I s → step s a t → goal t ∨ (I t ∧ rank t + (if turn a then 1 else 0) ≤ rank s))
    {s t : σ} {as : List α} (h : Run step s as t) (hs : I s) :
    goal t ∨ (I t ∧ rank t + as.countP turn ≤ rank s) := by
  induction h with
  | nil => exact .inr ⟨hs, Nat.le_refl _⟩
  | @cons s t u a as hst hrun ih =>
      rcases hstep _ _ _ hs hst with hg | ⟨ht, hrank⟩
      · exact .inl (hrun.invariant goal hgoal hg)
      · rcases ih ht with hg | ⟨hu, hrest⟩
        · exact .inl hg
        · refine .inr ⟨hu, ?_⟩
          rw [List.countP_cons]
          omega

/-- Every label of a run meets a condition on the labels before it. -/
def Along (P : List α → α → Prop) (as : List α) : Prop := ∀ pre a post, as = pre ++ a :: post → P pre a

section Histories

/-- One entry more: an old index keeps what it had, and the new one holds the
new entry. -/
theorem getElem?_snoc {l : List α} {a b : α} {i : Nat} :
    (l ++ [a])[i]? = some b ↔ l[i]? = some b ∨ (i = l.length ∧ b = a) := by
  rcases Nat.lt_trichotomy i l.length with hlt | rfl | hgt
  · rw [List.getElem?_append_left hlt]
    exact (or_iff_left fun h => absurd h.1 (Nat.ne_of_lt hlt)).symm
  · rw [List.getElem?_concat_length, List.getElem?_eq_none (Nat.le_refl _)]
    simp [eq_comm]
  · have hlength : (l ++ [a]).length ≤ i := by
      rw [List.length_append, List.length_singleton]
      exact hgt
    rw [List.getElem?_eq_none hlength, List.getElem?_eq_none (Nat.le_of_lt hgt)]
    simp [Nat.ne_of_gt hgt]

theorem getElem?_snoc_of_some {l : List α} {a b : α} {i : Nat} (h : l[i]? = some b) :
    (l ++ [a])[i]? = some b := getElem?_snoc.mpr (.inl h)

variable {P : List α → α → Prop}

theorem along_nil : Along P [] := by
  intro pre a post h
  exact absurd h.symm (List.append_ne_nil_of_right_ne_nil pre (List.cons_ne_nil a post))

theorem along_snoc {as : List α} {a : α} : Along P (as ++ [a]) ↔ Along P as ∧ P as a := by
  constructor
  · intro h
    refine ⟨fun pre b post hb => h pre b (post ++ [a]) ?_, h as a [] rfl⟩
    rw [hb, List.append_assoc, List.cons_append]
  · intro h pre b post hb
    rcases List.eq_nil_or_concat post with rfl | ⟨post, c, rfl⟩
    · obtain ⟨rfl, hab⟩ := List.append_inj' hb rfl
      cases hab
      exact h.2
    · rw [List.concat_eq_append, ← List.cons_append, ← List.append_assoc] at hb
      exact h.1 pre b post (List.append_inj' hb rfl).1

end Histories

def Guarded (step : σ → α → σ → Prop) (meets : σ → α → Prop) (s : σ) (a : α) (t : σ) : Prop :=
  meets s a ∧ step s a t

/-- The part of a state that only some of the labels change is folded over these
alone. -/
theorem foldl_part {φ β : Type} {get : σ → φ} {next : σ → α → σ} {pick : α → Option β} {turn : φ → β → φ}
    (h : ∀ s a, get (next s a) = (pick a).elim (get s) (turn (get s))) (as : List α) (s : σ) :
    get (as.foldl next s) = (as.filterMap pick).foldl turn (get s) := by
  induction as generalizing s with
  | nil => rfl
  | cons a as ih =>
      rw [List.foldl_cons, ih, h]
      cases hp : pick a <;> simp [hp]

end MigangBot.Lib.Runs
