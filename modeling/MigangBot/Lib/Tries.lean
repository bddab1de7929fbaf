import Mathlib.Data.List.Basic
import Mathlib.Logic.Function.Basic

namespace MigangBot.Lib.Tries

variable {κ β : Type}

/-- A tree branching over the letters of words, with a value at some nodes. -/
inductive Node (κ β : Type)
  | mk (value : Option β) (childs : κ → Option (Node κ β))

namespace Node

def value : Node κ β → Option β
  | mk v _ => v

def childs : Node κ β → κ → Option (Node κ β)
  | mk _ cs => cs

def empty : Node κ β := mk none fun _ => none

def find : List κ → Node κ β → Option β
  | [], n => n.value
  | a :: w, n => (n.childs a).bind (find w)

def insert [DecidableEq κ] (b : β) : List κ → Node κ β → Node κ β × Bool
  | [], mk (some v) cs => (mk (some v) cs, false)
  | [], mk none cs => (mk (some b) cs, true)
  | a :: w, mk v cs =>
      let (c, inserted) := insert b w ((cs a).getD empty)
      (mk v (Function.update cs a (some c)), inserted)

def shortest : List κ → Node κ β → Option β
  | [], _ => none
  | a :: w, n => (n.childs a).bind fun c => c.value.or (shortest w c)

def longest (best : Option β) : List κ → Node κ β → Option β
  | [], _ => best
  | a :: w, n =>
      match n.childs a with
      | some c => longest (c.value.or best) w c
      | none => best

@[simp] theorem find_nil (n : Node κ β) : find [] n = n.value := rfl

@[simp] theorem find_cons (a : κ) (w : List κ) (n : Node κ β) :
    find (a :: w) n = (n.childs a).bind (find w) := rfl

@[simp] theorem find_empty (w : List κ) : find w (empty : Node κ β) = none := by
  cases w <;> rfl

theorem find_cons_of_childs {n c : Node κ β} {a : κ} (h : n.childs a = some c) (w : List κ) :
    find (a :: w) n = find w c := by
  rw [find_cons, h, Option.bind_some]

section Insertion

variable [DecidableEq κ]

theorem find_insert (b : β) (w w' : List κ) (n : Node κ β) :
    find w' (insert b w n).1 = (find w' n).or (if w' = w then some b else none) := by
  induction w generalizing w' n with
  | nil =>
      rcases n with ⟨v, cs⟩
      cases v <;> cases w' <;> simp [insert, value, childs]
  | cons a w ih =>
      rcases n with ⟨v, cs⟩
      cases w' with
      | nil => simp [insert, value]
      | cons a' w' =>
          by_cases ha : a' = a
          · subst ha
            simp only [insert, find_cons, childs, Function.update_self, Option.bind_some, ih]
            cases cs a' <;> simp
          · simp [insert, childs, ha]

theorem insert_result (b : β) (w : List κ) (n : Node κ β) : (insert b w n).2 = (find w n).isNone := by
  induction w generalizing n with
  | nil =>
      rcases n with ⟨v, cs⟩
      cases v <;> rfl
  | cons a w ih =>
      rcases n with ⟨v, cs⟩
      simp only [insert, ih, find_cons, childs]
      cases cs a <;> simp

theorem insert_refused {b : β} {w : List κ} {n : Node κ β} (h : (insert b w n).2 = false) :
    (insert b w n).1 = n := by
  induction w generalizing n with
  | nil =>
      rcases n with ⟨v, cs⟩
      cases v with
      | none => simp [insert] at h
      | some v => rfl
  | cons a w ih =>
      rcases n with ⟨v, cs⟩
      cases hc : cs a with
      | none => simp [insert, hc, insert_result] at h
      | some c =>
          simp only [insert, hc, Option.getD_some] at h ⊢
          rw [ih h, ← hc, Function.update_eq_self]

theorem find_insertAll (entries : List (List κ × β)) (w : List κ) (n : Node κ β) :
    find w (entries.foldl (fun n e => (insert e.2 e.1 n).1) n) =
      (find w n).or ((entries.find? fun e => e.1 = w).map Prod.snd) := by
  induction entries generalizing n with
  | nil => simp
  | cons e entries ih =>
      rw [List.foldl_cons, ih, find_insert, Option.or_assoc]
      by_cases hw : w = e.1
      · simp [hw]
      · simp [hw, Ne.symm hw]

end Insertion

/-- The value of a word that, of the non-empty candidates with a value, is the
best one by its length. -/
structure Wins (candidate : List κ → Prop) (f : List κ → Option β) (better : Nat → Nat → Prop)
    (w : List κ) (b : β) : Prop where
  nonempty : w ≠ []
  fits : candidate w
  found : f w = some b
  best : ∀ w', w' ≠ [] → candidate w' → f w' ≠ none → better w.length w'.length

def Missing (candidate : List κ → Prop) (f : List κ → Option β) : Prop :=
  ∀ w, w ≠ [] → candidate w → f w = none

theorem Wins.not_missing {candidate : List κ → Prop} {f : List κ → Option β}
    {better : Nat → Nat → Prop} {w : List κ} {b : β} (h : Wins candidate f better w b) :
    ¬ Missing candidate f := by
  intro hm
  have hnone := hm w h.nonempty h.fits
  rw [h.found] at hnone
  cases hnone

theorem prefix_cons_of_ne_nil {u w : List κ} {a : κ} (hu : u ≠ []) (h : u <+: a :: w) :
    ∃ u', u = a :: u' ∧ u' <+: w := by
  rcases List.prefix_cons_iff.mp h with rfl | ⟨u', rfl, hp⟩
  · exact absurd rfl hu
  · exact ⟨u', rfl, hp⟩

theorem missing_of_no_child {n : Node κ β} {a : κ} (h : n.childs a = none) (w : List κ) :
    Missing (· <+: a :: w) (find · n) := by
  intro u hu hp
  obtain ⟨u', rfl, _⟩ := prefix_cons_of_ne_nil hu hp
  simp [h]

theorem missing_of_child {n c : Node κ β} {a : κ} {w : List κ} (h : n.childs a = some c)
    (hv : c.value = none) (hm : Missing (· <+: w) (find · c)) : Missing (· <+: a :: w) (find · n) := by
  intro u hu hp
  obtain ⟨u', rfl, hp'⟩ := prefix_cons_of_ne_nil hu hp
  simp only [find_cons_of_childs h]
  cases u' with
  | nil => exact hv
  | cons a' u' => exact hm _ (by simp) hp'

theorem wins_of_child {n c : Node κ β} {a : κ} {w u : List κ} {b : β} {better : Nat → Nat → Prop}
    (h : n.childs a = some c) (hw : Wins (· <+: w) (find · c) better u b)
    (hone : c.value ≠ none → better (u.length + 1) 1)
    (hsucc : ∀ i j, better i j → better (i + 1) (j + 1)) :
    Wins (· <+: a :: w) (find · n) better (a :: u) b := by
  refine ⟨by simp, List.cons_prefix_cons.mpr ⟨rfl, hw.fits⟩, ?_, ?_⟩
  · exact (find_cons_of_childs h u).trans hw.found
  · intro u' hu hp hf
    obtain ⟨v, rfl, hv⟩ := prefix_cons_of_ne_nil hu hp
    simp only [find_cons_of_childs h] at hf
    cases v with
    | nil => exact hone hf
    | cons a' v => exact hsucc _ _ (hw.best _ (by simp) hv hf)

theorem wins_one {n c : Node κ β} {a : κ} {w : List κ} {b : β} {better : Nat → Nat → Prop}
    (h : n.childs a = some c) (hb : c.value = some b)
    (hbest : ∀ u, u <+: w → find u c ≠ none → better 1 (u.length + 1)) :
    Wins (· <+: a :: w) (find · n) better [a] b := by
  refine ⟨by simp, by simp, (find_cons_of_childs h []).trans hb, ?_⟩
  intro u' hu hp hf
  obtain ⟨v, rfl, hv⟩ := prefix_cons_of_ne_nil hu hp
  simp only [find_cons_of_childs h] at hf
  exact hbest v hv hf

theorem longest_spec (w : List κ) (n : Node κ β) (best : Option β) :
    (∃ u b, Wins (· <+: w) (find · n) (· ≥ ·) u b ∧ longest best w n = some b) ∨
      (Missing (· <+: w) (find · n) ∧ longest best w n = best) := by
  induction w generalizing n best with
  | nil =>
      refine .inr ⟨?_, rfl⟩
      intro u hu hp
      exact absurd (List.prefix_nil.mp hp) hu
  | cons a w ih =>
      cases hc : n.childs a with
      | none => exact .inr ⟨missing_of_no_child hc w, by simp [longest, hc]⟩
      | some c =>
          simp only [longest, hc]
          rcases ih c (c.value.or best) with ⟨u, b, hw, hl⟩ | ⟨hm, hl⟩
          · refine .inl ⟨a :: u, b, wins_of_child hc hw ?_ ?_, hl⟩
            · omega
            · omega
          · cases hv : c.value with
            | none => exact .inr ⟨missing_of_child hc hv hm, by simpa [hv] using hl⟩
            | some b =>
                refine .inl ⟨[a], b, wins_one hc hv ?_, by simpa [hv] using hl⟩
                intro u hp hf
                by_cases hu : u = []
                · simp [hu]
                · exact absurd (hm u hu hp) hf

theorem shortest_spec (w : List κ) (n : Node κ β) :
    (∃ u b, Wins (· <+: w) (find · n) (· ≤ ·) u b ∧ shortest w n = some b) ∨
      (Missing (· <+: w) (find · n) ∧ shortest w n = none) := by
  induction w generalizing n with
  | nil =>
      refine .inr ⟨?_, rfl⟩
      intro u hu hp
      exact absurd (List.prefix_nil.mp hp) hu
  | cons a w ih =>
      cases hc : n.childs a with
      | none => exact .inr ⟨missing_of_no_child hc w, by simp [shortest, hc]⟩
      | some c =>
          simp only [shortest, hc, Option.bind_some]
          cases hv : c.value with
          | some b =>
              refine .inl ⟨[a], b, wins_one hc hv ?_, by simp⟩
              intro u _ _
              omega
          | none =>
              rcases ih c with ⟨u, b, hw, hl⟩ | ⟨hm, hl⟩
              · refine .inl ⟨a :: u, b, wins_of_child hc hw ?_ ?_, by simpa using hl⟩
                · intro hne
                  exact absurd hv hne
                · omega
              · exact .inr ⟨missing_of_child hc hv hm, by simpa using hl⟩

end Node

end MigangBot.Lib.Tries
