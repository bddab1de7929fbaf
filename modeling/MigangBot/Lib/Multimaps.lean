import Mathlib.Order.Lattice
import Mathlib.Data.List.Perm.Basic
import Mathlib.Data.List.TakeWhile

namespace MigangBot.Lib.Multimaps

/-- An ordered map with repeated keys: equal keys stand in the order they came. -/
structure Multimap (K V : Type) [LinearOrder K] where
  entries : List (K × V)
  sorted : entries.Pairwise (fun a b => a.1 ≤ b.1)

variable {K V : Type} [LinearOrder K]

namespace Multimap

def empty : Multimap K V := ⟨[], .nil⟩

/-- The entries before the upper bound of a key, and the ones from it on. -/
def upTo (m : Multimap K V) (k : K) : List (K × V) := m.entries.takeWhile (fun e => decide (e.1 ≤ k))

def beyond (m : Multimap K V) (k : K) : List (K × V) := m.entries.dropWhile (fun e => decide (e.1 ≤ k))

theorem upTo_append_beyond (m : Multimap K V) (k : K) : m.upTo k ++ m.beyond k = m.entries :=
  List.takeWhile_append_dropWhile

theorem le_of_mem_upTo {m : Multimap K V} {k : K} {e : K × V} (h : e ∈ m.upTo k) : e.1 ≤ k := by
  simpa using List.mem_takeWhile_imp h

theorem lt_of_mem_dropWhile {es : List (K × V)} (hs : es.Pairwise (fun a b => a.1 ≤ b.1)) {k : K}
    {e : K × V} (h : e ∈ es.dropWhile (fun e => decide (e.1 ≤ k))) : k < e.1 := by
  induction es with
  | nil => cases h
  | cons a es ih =>
      rw [List.pairwise_cons] at hs
      by_cases ha : a.1 ≤ k
      · rw [List.dropWhile_cons_of_pos (by simpa using ha)] at h
        exact ih hs.2 h
      · rw [List.dropWhile_cons_of_neg (by simpa using ha), List.mem_cons] at h
        rcases h with rfl | h
        · exact lt_of_not_ge ha
        · exact lt_of_lt_of_le (lt_of_not_ge ha) (hs.1 e h)

theorem lt_of_mem_beyond {m : Multimap K V} {k : K} {e : K × V} (h : e ∈ m.beyond k) : k < e.1 :=
  lt_of_mem_dropWhile m.sorted h

theorem mem_upTo {m : Multimap K V} {k : K} {e : K × V} : e ∈ m.upTo k ↔ e ∈ m.entries ∧ e.1 ≤ k := by
  constructor
  · intro h
    exact ⟨List.takeWhile_subset _ h, le_of_mem_upTo h⟩
  · rintro ⟨h, hk⟩
    rw [← m.upTo_append_beyond k, List.mem_append] at h
    rcases h with h | h
    · exact h
    · exact absurd hk (not_le_of_gt (lt_of_mem_beyond h))

def emplace (m : Multimap K V) (k : K) (v : V) : Multimap K V where
  entries := m.upTo k ++ (k, v) :: m.beyond k
  sorted := by
    have h := m.sorted
    rw [← m.upTo_append_beyond k, List.pairwise_append] at h
    rw [List.pairwise_append, List.pairwise_cons]
    refine ⟨h.1, ⟨fun e he => (lt_of_mem_beyond he).le, h.2.1⟩, fun a ha b hb => ?_⟩
    rcases List.mem_cons.mp hb with rfl | hb
    · exact le_of_mem_upTo ha
    · exact h.2.2 a ha b hb

/-- Erasing from the beginning to the upper bound. -/
def eraseUpTo (m : Multimap K V) (k : K) : Multimap K V where
  entries := m.beyond k
  sorted := m.sorted.sublist (List.dropWhile_sublist _)

theorem emplace_perm (m : Multimap K V) (k : K) (v : V) :
    (m.emplace k v).entries.Perm ((k, v) :: m.entries) := by
  refine List.perm_middle.trans ?_
  rw [m.upTo_append_beyond]

theorem mem_emplace {m : Multimap K V} {k : K} {v : V} {e : K × V} :
    e ∈ (m.emplace k v).entries ↔ e = (k, v) ∨ e ∈ m.entries := by
  rw [(m.emplace_perm k v).mem_iff, List.mem_cons]

def emplaceAll (m : Multimap K V) (es : List (K × V)) : Multimap K V :=
  es.foldl (fun m e => m.emplace e.1 e.2) m

theorem emplaceAll_perm (m : Multimap K V) (es : List (K × V)) :
    (m.emplaceAll es).entries.Perm (es ++ m.entries) := by
  induction es generalizing m with
  | nil => exact .refl _
  | cons e es ih =>
      have h := ih (m.emplace e.1 e.2)
      have h' := ((m.emplace_perm e.1 e.2).append_left es).trans List.perm_middle
      exact h.trans h'

end Multimap

end MigangBot.Lib.Multimaps
