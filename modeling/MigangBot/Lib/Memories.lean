import Mathlib.Data.List.Induction

namespace MigangBot.Lib.Memories

variable {σ ε : Type}

/-- Each event either puts a fixed item into a memory, or leaves it there unless
the event drops it. -/
def Remembers (step : σ → ε → σ) (holds : σ → Prop) (records : ε → Prop) (drops : σ → ε → Prop) : Prop :=
  ∀ s e, holds (step s e) ↔ records e ∨ holds s ∧ ¬ drops s e

variable {step : σ → ε → σ} {holds : σ → Prop} {records : ε → Prop} {drops : σ → ε → Prop}

theorem Remembers.stays_out (h : Remembers step holds records drops) {s : σ} {es : List ε} (hs : ¬ holds s)
    (hes : ∀ e ∈ es, ¬ records e) : ¬ holds (es.foldl step s) := by
  induction es generalizing s with
  | nil => exact hs
  | cons e es ih =>
      apply ih
      · rw [h s e]
        rintro (hr | ⟨hm, -⟩)
        · exact hes e List.mem_cons_self hr
        · exact hs hm
      · intro e' he'
        exact hes e' (List.mem_cons_of_mem _ he')

/-- An item that was in and is out was dropped by some event, and no event put it
back since. -/
theorem Remembers.forgotten (h : Remembers step holds records drops) {s : σ} {es : List ε} (hs : holds s)
    (hout : ¬ holds (es.foldl step s)) :
    ∃ pre e post, es = pre ++ e :: post ∧ holds (pre.foldl step s) ∧ drops (pre.foldl step s) e ∧
      ¬ records e ∧ ∀ e' ∈ post, ¬ records e' := by
  induction es using List.reverseRecOn with
  | nil => exact absurd hs hout
  | append_singleton es e ih =>
      rw [List.foldl_append, List.foldl_cons, List.foldl_nil, h] at hout
      have hr : ¬ records e := fun hr => hout (.inl hr)
      by_cases hm : holds (es.foldl step s)
      · have hd : drops (es.foldl step s) e := by
          by_contra hd
          exact hout (.inr ⟨hm, hd⟩)
        exact ⟨es, e, [], rfl, hm, hd, hr, by simp⟩
      · obtain ⟨pre, e', post, rfl, hin, hd, hr', hpost⟩ := ih hm
        refine ⟨pre, e', post ++ [e], by simp, hin, hd, hr', fun a ha => ?_⟩
        rcases List.mem_append.mp ha with ha | ha
        · exact hpost a ha
        · exact List.mem_singleton.mp ha ▸ hr

end MigangBot.Lib.Memories
