import MigangBot.Lib.Multimaps
import Mathlib.Data.List.Nodup

namespace MigangBot.Lib.OrderedMaps

open Multimaps

variable {K V : Type} [LinearOrder K]

section Sublists

/-- What a multimap holds of the values that pass a test, in the order it holds them. -/
def select (m : Multimap K V) (q : V → Bool) : Multimap K V where
  entries := m.entries.filter fun e => q e.2
  sorted := m.sorted.filter _

@[simp] theorem entries_select (m : Multimap K V) (q : V → Bool) :
    (select m q).entries = m.entries.filter fun e => q e.2 := rfl

@[simp] theorem entries_emplace (m : Multimap K V) (k : K) (v : V) :
    (m.emplace k v).entries = m.upTo k ++ (k, v) :: m.beyond k := rfl

theorem eq_of_entries {m m' : Multimap K V} (h : m.entries = m'.entries) : m = m' := by
  cases m
  cases m'
  cases h
  rfl

theorem upTo_eq_filter (m : Multimap K V) (k : K) : m.upTo k = m.entries.filter (fun e => decide (e.1 ≤ k)) := by
  have hupTo : (m.upTo k).filter (fun e => decide (e.1 ≤ k)) = m.upTo k :=
    List.filter_eq_self.mpr fun e he => decide_eq_true (Multimap.le_of_mem_upTo he)
  have hbeyond : (m.beyond k).filter (fun e => decide (e.1 ≤ k)) = [] :=
    List.filter_eq_nil_iff.mpr fun e he => by simpa using Multimap.lt_of_mem_beyond he
  conv_rhs => rw [← m.upTo_append_beyond k, List.filter_append, hupTo, hbeyond, List.append_nil]

theorem beyond_eq_filter (m : Multimap K V) (k : K) : m.beyond k = m.entries.filter (fun e => decide (k < e.1)) := by
  have hupTo : (m.upTo k).filter (fun e => decide (k < e.1)) = [] :=
    List.filter_eq_nil_iff.mpr fun e he => by simpa using Multimap.le_of_mem_upTo he
  have hbeyond : (m.beyond k).filter (fun e => decide (k < e.1)) = m.beyond k :=
    List.filter_eq_self.mpr fun e he => decide_eq_true (Multimap.lt_of_mem_beyond he)
  conv_rhs => rw [← m.upTo_append_beyond k, List.filter_append, hupTo, hbeyond, List.nil_append]

theorem upTo_select (m : Multimap K V) (q : V → Bool) (k : K) :
    (select m q).upTo k = (m.upTo k).filter fun e => q e.2 := by
  rw [upTo_eq_filter, upTo_eq_filter, entries_select, List.filter_comm]

theorem beyond_select (m : Multimap K V) (q : V → Bool) (k : K) :
    (select m q).beyond k = (m.beyond k).filter fun e => q e.2 := by
  rw [beyond_eq_filter, beyond_eq_filter, entries_select, List.filter_comm]

/-- A second map that is given the entries which pass the test stays a part of the first. -/
theorem select_emplace (m : Multimap K V) (q : V → Bool) (k : K) (v : V) : select (m.emplace k v) q =
    if q v then (select m q).emplace k v else select m q := by
  apply eq_of_entries
  rw [entries_select, entries_emplace, List.filter_append, List.filter_cons]
  split
  next => rw [entries_emplace, upTo_select, beyond_select]
  next => rw [← List.filter_append, m.upTo_append_beyond, entries_select]

end Sublists

section Unique

/-- An ordered map: no key stands twice. -/
structure OrderedMap (K V : Type) [LinearOrder K] where
  entries : List (K × V)
  sorted : entries.Pairwise (fun a b => a.1 < b.1)

namespace OrderedMap

def empty : OrderedMap K V := ⟨[], .nil⟩

def lookup (m : OrderedMap K V) (k : K) : Option V := (m.entries.find? fun e => e.1 = k).map Prod.snd

def contains (m : OrderedMap K V) (k : K) : Bool := (m.lookup k).isSome

def keys (m : OrderedMap K V) : List K := m.entries.map Prod.fst

def assign (m : OrderedMap K V) (k : K) (v : V) : OrderedMap K V where
  entries := m.entries.filter (fun e => decide (e.1 < k)) ++ (k, v) :: m.entries.filter (fun e => decide (k < e.1))
  sorted := by
    rw [List.pairwise_append, List.pairwise_cons]
    refine ⟨m.sorted.filter _, ⟨fun e he => ?_, m.sorted.filter _⟩, fun a ha b hb => ?_⟩
    · exact of_decide_eq_true (List.mem_filter.mp he).2
    · have hak : a.1 < k := of_decide_eq_true (List.mem_filter.mp ha).2
      rcases List.mem_cons.mp hb with rfl | hb
      · exact hak
      · exact hak.trans (of_decide_eq_true (List.mem_filter.mp hb).2)

variable {m : OrderedMap K V}

theorem keys_sorted (m : OrderedMap K V) : m.keys.Pairwise (· < ·) := List.pairwise_map.mpr m.sorted

theorem eq_of_key {a b : K × V} (ha : a ∈ m.entries) (hb : b ∈ m.entries) (h : a.1 = b.1) : a = b :=
  List.inj_on_of_nodup_map (m.keys_sorted.imp ne_of_lt) ha hb h

theorem lookup_eq_some_iff {k : K} {v : V} : m.lookup k = some v ↔ (k, v) ∈ m.entries := by
  rw [lookup, Option.map_eq_some_iff]
  constructor
  · rintro ⟨e, hfound, rfl⟩
    have hk : e.1 = k := by simpa using List.find?_some hfound
    rw [← hk]
    exact List.mem_of_find?_eq_some hfound
  · intro h
    cases hfound : m.entries.find? fun e => e.1 = k with
    | none => exact absurd (decide_eq_true rfl) (List.find?_eq_none.mp hfound (k, v) h)
    | some e =>
        have hk : e.1 = k := by simpa using List.find?_some hfound
        have he := eq_of_key (List.mem_of_find?_eq_some hfound) h hk
        exact ⟨e, rfl, congrArg Prod.snd he⟩

theorem mem_keys {k : K} : k ∈ m.keys ↔ m.contains k = true := by
  rw [keys, contains, Option.isSome_iff_exists, List.mem_map]
  constructor
  · rintro ⟨e, he, rfl⟩
    exact ⟨e.2, lookup_eq_some_iff.mpr he⟩
  · rintro ⟨v, hv⟩
    exact ⟨(k, v), lookup_eq_some_iff.mp hv, rfl⟩

theorem mem_assign {k : K} {v : V} {e : K × V} :
    e ∈ (m.assign k v).entries ↔ e = (k, v) ∨ e.1 ≠ k ∧ e ∈ m.entries := by
  simp only [assign, List.mem_append, List.mem_cons, List.mem_filter, decide_eq_true_eq, ne_eq]
  constructor
  · rintro (⟨he, hk⟩ | rfl | ⟨he, hk⟩)
    · exact .inr ⟨hk.ne, he⟩
    · exact .inl rfl
    · exact .inr ⟨hk.ne', he⟩
  · rintro (rfl | ⟨hne, he⟩)
    · exact .inr (.inl rfl)
    · rcases lt_or_gt_of_ne hne with hk | hk
      · exact .inl ⟨he, hk⟩
      · exact .inr (.inr ⟨he, hk⟩)

theorem lookup_assign (k : K) (v : V) (k' : K) :
    (m.assign k v).lookup k' = if k' = k then some v else m.lookup k' := by
  apply Option.ext
  intro w
  rw [lookup_eq_some_iff, mem_assign]
  split
  next hk =>
    subst hk
    simp [eq_comm]
  next hk =>
    rw [lookup_eq_some_iff]
    simp [hk]

end OrderedMap

end Unique

end MigangBot.Lib.OrderedMaps
