import Mathlib.Data.List.Basic
import Mathlib.Data.List.Nodup
import Mathlib.Data.List.Perm.Basic
import Mathlib.Logic.Relation

namespace MigangBot.Lib.Forests

open Relation

variable {P : Type}

/-- Trees side by side: the root of the first one, what is below it, and the
trees after it. -/
inductive Forest (P : Type)
  | nil
  | cons (root : P) (kids rest : Forest P)

/-- The nodes in the order in which their texts begin. -/
def Forest.nodes : Forest P → List P
  | .nil => []
  | .cons p kids rest => p :: (kids.nodes ++ rest.nodes)

/-- Nodes that know their first child and their next sibling. -/
structure Links (P : Type) where
  child : P → Option P
  next : P → Option P

variable {L : Links P} {cur : Option P} {p m : P} {kids rest forest : Forest P}

inductive Represents (L : Links P) : Option P → Forest P → Prop
  | nil : Represents L none .nil
  | cons {p : P} {kids rest : Forest P} (hkids : Represents L (L.child p) kids)
      (hrest : Represents L (L.next p) rest) : Represents L (some p) (.cons p kids rest)

def After (L : Links P) : P → P → Prop := TransGen fun a b => L.next a = some b

def IsChild (L : Links P) (p c : P) : Prop :=
  ∃ first, L.child p = some first ∧ ReflTransGen (fun a b => L.next a = some b) first c

def Below (L : Links P) : P → P → Prop := TransGen (IsChild L)

/-- A forest has the nodes that are reached by going to later siblings first and
down from there. -/
theorem mem_nodes (h : Represents L cur forest) : m ∈ forest.nodes ↔
    ∃ first s, cur = some first ∧ ReflTransGen (fun a b => L.next a = some b) first s ∧
      ReflTransGen (IsChild L) s m := by
  induction h with
  | nil => simp [Forest.nodes]
  | @cons p kids rest hkids hrest ihk ihr =>
      rw [Forest.nodes, List.mem_cons, List.mem_append, ihk, ihr]
      constructor
      · rintro (rfl | ⟨first, c, hfirst, hc, hm⟩ | ⟨first, s, hfirst, hs, hm⟩)
        · exact ⟨m, m, rfl, .refl, .refl⟩
        · exact ⟨p, p, rfl, .refl, .head ⟨first, hfirst, hc⟩ hm⟩
        · exact ⟨p, s, rfl, .head hfirst hs, hm⟩
      · rintro ⟨_, s, ⟨⟩, hs, hm⟩
        rcases hs.cases_head with rfl | ⟨q, hq, hs⟩
        · rcases hm.cases_head with rfl | ⟨c, ⟨first, hfirst, hc⟩, hm⟩
          · exact .inl rfl
          · exact .inr (.inl ⟨first, c, hfirst, hc, hm⟩)
        · exact .inr (.inr ⟨q, s, hq, hs, hm⟩)

theorem mem_kids (h : Represents L (L.child p) kids) : m ∈ kids.nodes ↔ Below L p m := by
  rw [mem_nodes h, Below, TransGen.head'_iff]
  constructor
  · rintro ⟨first, c, hfirst, hc, hm⟩
    exact ⟨c, ⟨first, hfirst, hc⟩, hm⟩
  · rintro ⟨c, ⟨first, hfirst, hc⟩, hm⟩
    exact ⟨first, c, hfirst, hc, hm⟩

theorem mem_rest (h : Represents L (L.next p) rest) : m ∈ rest.nodes ↔
    ∃ s, After L p s ∧ ReflTransGen (IsChild L) s m := by
  rw [mem_nodes h]
  constructor
  · rintro ⟨first, s, hfirst, hs, hm⟩
    exact ⟨s, .head' hfirst hs, hm⟩
  · rintro ⟨s, hs, hm⟩
    obtain ⟨first, hfirst, hs⟩ := TransGen.head'_iff.mp hs
    exact ⟨first, s, hfirst, hs, hm⟩

theorem Represents.unique (h : Represents L cur forest) {forest' : Forest P} (h' : Represents L cur forest') :
    forest' = forest := by
  induction h generalizing forest' with
  | nil =>
      cases h'
      rfl
  | cons hkids hrest ihk ihr =>
      cases h' with
      | cons hkids' hrest' => rw [ihk hkids', ihr hrest']

/-- Every node of a forest stands at the head of a part of it. -/
theorem exists_at (h : Represents L cur forest) (hp : p ∈ forest.nodes) :
    ∃ kids rest, Represents L (L.child p) kids ∧ Represents L (L.next p) rest ∧
      (Forest.cons p kids rest).nodes.Sublist forest.nodes := by
  induction h with
  | nil => cases hp
  | @cons q kids rest hkids hrest ihk ihr =>
      rw [Forest.nodes, List.mem_cons, List.mem_append] at hp
      rcases hp with rfl | hp | hp
      · exact ⟨kids, rest, hkids, hrest, .refl _⟩
      · obtain ⟨kids', rest', hk, hr, hsub⟩ := ihk hp
        exact ⟨kids', rest', hk, hr, (hsub.trans (List.sublist_append_left _ _)).cons q⟩
      · obtain ⟨kids', rest', hk, hr, hsub⟩ := ihr hp
        exact ⟨kids', rest', hk, hr, (hsub.trans (List.sublist_append_right _ _)).cons q⟩

section Stack

/-- What is left to do for a stack of forests: every node, and every pointer that
is to be taken off. -/
def load : List (Forest P) → Nat
  | [] => 0
  | f :: forests => f.nodes.length + 1 + load forests

@[simp] theorem load_nil : load ([] : List (Forest P)) = 0 := rfl

@[simp] theorem load_cons (f : Forest P) (forests : List (Forest P)) :
    load (f :: forests) = f.nodes.length + 1 + load forests := rfl

def allNodes (forests : List (Forest P)) : List P := forests.flatMap Forest.nodes

@[simp] theorem allNodes_cons (f : Forest P) (forests : List (Forest P)) :
    allNodes (f :: forests) = f.nodes ++ allNodes forests := rfl

/-- Going on with the later siblings and what is below the node is going on with
the same nodes. -/
theorem allNodes_at (p : P) (kids rest : Forest P) (forests : List (Forest P)) :
    (allNodes (.cons p kids rest :: forests)).Perm (p :: allNodes (rest :: kids :: forests)) := by
  rw [allNodes_cons, allNodes_cons, allNodes_cons, Forest.nodes, List.cons_append, ← List.append_assoc]
  exact (List.perm_append_comm.append_right _).cons p

end Stack

end MigangBot.Lib.Forests
