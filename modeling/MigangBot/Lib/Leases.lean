import Mathlib.Logic.Function.Basic
import Mathlib.Data.List.Nodup

namespace MigangBot.Lib.Leases

/-- Resources handed out from the front of a queue, at most one to a holder. -/
structure Ledger (κ ι : Type) where
  free : List ι
  held : κ → Option ι

variable {κ ι : Type} [DecidableEq κ]

def Ledger.take (l : Ledger κ ι) (c : κ) : Option (Ledger κ ι) :=
  match l.free with
  | [] => none
  | i :: free => some ⟨free, Function.update l.held c (some i)⟩

def Ledger.give (l : Ledger κ ι) (c : κ) (i : ι) : Ledger κ ι :=
  ⟨l.free ++ [i], Function.update l.held c none⟩

/-- Each resource of the given set is either free, once, or held, by one. -/
structure Ledger.Exact (l : Ledger κ ι) (ids : ι → Prop) : Prop where
  nodup : l.free.Nodup
  apart : ∀ c i, l.held c = some i → i ∉ l.free
  exclusive : ∀ c c' i, l.held c = some i → l.held c' = some i → c = c'
  all : ∀ i, ids i ↔ i ∈ l.free ∨ ∃ c, l.held c = some i

variable {l l' : Ledger κ ι} {ids : ι → Prop} {c : κ} {i : ι}

theorem Ledger.take_eq_some : l.take c = some l' ↔
    ∃ i free, l.free = i :: free ∧ l' = ⟨free, Function.update l.held c (some i)⟩ := by
  rw [Ledger.take]
  cases l.free with
  | nil => simp
  | cons i free => simp [eq_comm]

theorem update_eq_some {f : κ → Option ι} {o : Option ι} {c' : κ} {j : ι} :
    Function.update f c o c' = some j ↔ c' = c ∧ o = some j ∨ c' ≠ c ∧ f c' = some j := by
  by_cases h : c' = c
  · subst h
    simp
  · simp [h]

theorem Ledger.Exact.take (h : l.Exact ids) (hc : l.held c = none) (ht : l.take c = some l') : l'.Exact ids := by
  obtain ⟨i, free, hf, rfl⟩ := Ledger.take_eq_some.mp ht
  have hn := h.nodup
  rw [hf, List.nodup_cons] at hn
  have hother {c' : κ} (hi : l.held c' = some i) : False :=
    h.apart c' i hi (hf ▸ List.mem_cons_self)
  refine ⟨hn.2, fun c' j hj => ?_, fun c₁ c₂ j h₁ h₂ => ?_, fun j => ?_⟩
  · rcases update_eq_some.mp hj with ⟨-, hj⟩ | ⟨-, hj⟩
    · cases hj
      exact hn.1
    · exact fun hm => h.apart c' j hj (hf ▸ List.mem_cons_of_mem _ hm)
  · rcases update_eq_some.mp h₁ with ⟨hc₁, e₁⟩ | ⟨-, e₁⟩ <;> rcases update_eq_some.mp h₂ with ⟨hc₂, e₂⟩ | ⟨-, e₂⟩
    · exact hc₁.trans hc₂.symm
    · cases e₁
      exact (hother e₂).elim
    · cases e₂
      exact (hother e₁).elim
    · exact h.exclusive c₁ c₂ j e₁ e₂
  · rw [h.all j, hf, List.mem_cons]
    simp only [update_eq_some, Option.some.injEq]
    constructor
    · rintro ((rfl | hj) | ⟨c', hj⟩)
      · exact .inr ⟨c, .inl ⟨rfl, rfl⟩⟩
      · exact .inl hj
      · refine .inr ⟨c', .inr ⟨?_, hj⟩⟩
        rintro rfl
        cases hc.symm.trans hj
    · rintro (hj | ⟨c', ⟨-, rfl⟩ | ⟨-, hj⟩⟩)
      · exact .inl (.inr hj)
      · exact .inl (.inl rfl)
      · exact .inr ⟨c', hj⟩

theorem Ledger.Exact.give (h : l.Exact ids) (hc : l.held c = some i) : (l.give c i).Exact ids := by
  have hheld {c' : κ} {j : ι} : (l.give c i).held c' = some j ↔ c' ≠ c ∧ l.held c' = some j := by
    rw [Ledger.give, update_eq_some]
    simp
  refine ⟨?_, fun c' j hj => ?_, fun c₁ c₂ j h₁ h₂ => ?_, fun j => ?_⟩
  · refine List.nodup_append.mpr ⟨h.nodup, List.nodup_singleton i, fun a ha b hb => ?_⟩
    rw [List.mem_singleton.mp hb]
    rintro rfl
    exact h.apart c a hc ha
  · obtain ⟨hne, hj⟩ := hheld.mp hj
    intro hm
    rcases List.mem_append.mp hm with hm | hm
    · exact h.apart c' j hj hm
    · cases List.mem_singleton.mp hm
      exact hne (h.exclusive c' c i hj hc)
  · exact h.exclusive c₁ c₂ j (hheld.mp h₁).2 (hheld.mp h₂).2
  · rw [h.all j]
    simp only [hheld]
    simp only [Ledger.give, List.mem_append, List.mem_singleton]
    constructor
    · rintro (hj | ⟨c', hj⟩)
      · exact .inl (.inl hj)
      · by_cases hcc : c' = c
        · subst hcc
          exact .inl (.inr (Option.some.inj (hj.symm.trans hc)))
        · exact .inr ⟨c', hcc, hj⟩
    · rintro ((hj | rfl) | ⟨c', -, hj⟩)
      · exact .inl hj
      · exact .inr ⟨c, hc⟩
      · exact .inr ⟨c', hj⟩

end MigangBot.Lib.Leases
