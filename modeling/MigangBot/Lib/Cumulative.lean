import Mathlib.Algebra.BigOperators.Group.List.Basic
import Mathlib.Algebra.Order.BigOperators.Group.List
import Mathlib.Algebra.Order.Group.Int
import Mathlib.Data.Int.ConditionallyCompleteOrder
import Mathlib.Data.Int.Interval
import Mathlib.Order.ConditionallyCompleteLattice.Basic

namespace MigangBot.Lib.Cumulative

section Sums

variable {M : Type} [AddCommGroup M] [LinearOrder M] [IsOrderedAddMonoid M]

/-- The running sums of some weights. -/
def sums (acc : M) : List M → List M
  | [] => []
  | w :: ws => (acc + w) :: sums (acc + w) ws

omit [LinearOrder M] [IsOrderedAddMonoid M] in
@[simp] theorem length_sums (acc : M) (ws : List M) : (sums acc ws).length = ws.length := by
  induction ws generalizing acc with
  | nil => rfl
  | cons w ws ih => rw [sums, List.length_cons, ih, List.length_cons]

omit [LinearOrder M] [IsOrderedAddMonoid M] in
theorem getElem?_sums {acc : M} {ws : List M} {k : Nat} (hk : k < ws.length) :
    (sums acc ws)[k]? = some (acc + (ws.take (k + 1)).sum) := by
  induction ws generalizing acc k with
  | nil => cases hk
  | cons w ws ih =>
      cases k with
      | zero => simp [sums]
      | succ k =>
          rw [sums, List.getElem?_cons_succ, ih (Nat.lt_of_succ_lt_succ hk), List.take_succ_cons, List.sum_cons, add_assoc]

theorem le_of_mem_sums {acc a : M} {ws : List M} (hws : ∀ w ∈ ws, 0 ≤ w) (ha : a ∈ sums acc ws) : acc ≤ a := by
  induction ws generalizing acc with
  | nil => cases ha
  | cons w ws ih =>
      rw [List.forall_mem_cons] at hws
      have hw : acc ≤ acc + w := le_add_of_nonneg_right hws.1
      rcases List.mem_cons.mp ha with rfl | ha
      · exact hw
      · exact hw.trans (ih hws.2 ha)

theorem pairwise_sums {acc : M} {ws : List M} (hws : ∀ w ∈ ws, 0 ≤ w) : (sums acc ws).Pairwise (· ≤ ·) := by
  induction ws generalizing acc with
  | nil => exact .nil
  | cons w ws ih =>
      rw [List.forall_mem_cons] at hws
      exact .cons (fun a ha => le_of_mem_sums hws.2 ha) (ih hws.2)

/-- The first running sum above a target is the one whose weight the target falls
into. -/
theorem findIdx?_sums {acc t : M} {ws : List M} (hws : ∀ w ∈ ws, 0 ≤ w) (hacc : acc ≤ t) {k : Nat} :
    (sums acc ws).findIdx? (fun a => t < a) = some k ↔
      k < ws.length ∧ acc + (ws.take k).sum ≤ t ∧ t < acc + (ws.take (k + 1)).sum := by
  induction ws generalizing acc k with
  | nil => simp [sums]
  | cons w ws ih =>
      rw [List.forall_mem_cons] at hws
      rw [sums, List.findIdx?_cons]
      by_cases hlt : t < acc + w
      · rw [if_pos (by simpa using hlt)]
        cases k with
        | zero => simp [hacc, hlt]
        | succ k =>
            have hsum : 0 ≤ (ws.take k).sum := List.sum_nonneg fun a ha => hws.2 a (List.mem_of_mem_take ha)
            simp only [Option.some.injEq, Nat.zero_ne_add_one, false_iff, not_and, List.take_succ_cons, List.sum_cons,
              ← add_assoc]
            intro _ hle
            exact absurd (lt_of_lt_of_le hlt (le_add_of_nonneg_right hsum)) (not_lt.mpr hle)
      · rw [if_neg (by simpa using hlt)]
        cases k with
        | zero => simp [hlt]
        | succ k =>
            simp only [Option.map_eq_some_iff, Nat.add_right_cancel_iff, exists_eq_right, ih hws.2 (not_lt.mp hlt),
              List.length_cons, Nat.add_lt_add_iff_right, List.take_succ_cons, List.sum_cons, ← add_assoc]

end Sums

/-- As many targets choose a weight as it weighs. -/
theorem card_findIdx?_sums {ws : List Int} (hws : ∀ w ∈ ws, 0 ≤ w) {k : Nat} (hk : k < ws.length) :
    ((Finset.Ico 0 ws.sum).filter fun t => (sums 0 ws).findIdx? (fun a => t < a) = some k).card =
      ws[k].toNat := by
  have hlow : 0 ≤ (ws.take k).sum := List.sum_nonneg fun a ha => hws a (List.mem_of_mem_take ha)
  have hhigh : (ws.take (k + 1)).sum ≤ ws.sum := by
    have hrest : 0 ≤ (ws.drop (k + 1)).sum := List.sum_nonneg fun a ha => hws a (List.mem_of_mem_drop ha)
    have hsplit : (ws.take (k + 1) ++ ws.drop (k + 1)).sum = (ws.take (k + 1)).sum + (ws.drop (k + 1)).sum :=
      List.sum_append
    rw [List.take_append_drop] at hsplit
    omega
  have hset : ((Finset.Ico 0 ws.sum).filter fun t => (sums 0 ws).findIdx? (fun a => t < a) = some k) =
      Finset.Ico (ws.take k).sum (ws.take (k + 1)).sum := by
    ext t
    rw [Finset.mem_filter, Finset.mem_Ico, Finset.mem_Ico]
    constructor
    · intro h
      have := (findIdx?_sums hws h.1.1).mp h.2
      omega
    · intro h
      refine ⟨by omega, (findIdx?_sums hws (by omega)).mpr ⟨hk, by omega, by omega⟩⟩
  rw [hset, Int.card_Ico, List.sum_take_succ ws k hk]
  congr 1
  omega

end MigangBot.Lib.Cumulative
