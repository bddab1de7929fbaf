import MigangBot.Lib.Maps

namespace MigangBot.Lib.Expiry

open Lib.Maps

/-- Values under keys, each with the time from which on it is gone, if there is one. -/
abbrev Store (K V : Type) := FiniteMap K (V × Option Nat)

def lives (now : Nat) (deadline : Option Nat) : Bool := deadline.all fun d => now < d

variable {K V : Type} [DecidableEq K]

def get (s : Store K V) (now : Nat) (k : K) : Option V :=
  (s.lookup k).bind fun e => if lives now e.2 then some e.1 else none

def set (s : Store K V) (k : K) (v : V) (deadline : Option Nat) : Store K V := s.insert k (v, deadline)

theorem get_set (s : Store K V) (k k' : K) (v : V) (deadline : Option Nat) (now : Nat) :
    get (set s k v deadline) now k' =
      if k' = k then (if lives now deadline then some v else none) else get s now k' := by
  rw [get, set, lookup_insert_eq]
  split
  · rfl
  · rfl

/-- A key is there at least until a time. -/
def HeldUntil (s : Store K V) (k : K) (time : Nat) : Prop := ∀ now < time, (get s now k).isSome

theorem heldUntil_set (s : Store K V) (k : K) (v : V) (time : Nat) : HeldUntil (set s k v (some time)) k time := by
  intro now h
  rw [get_set, if_pos rfl, if_pos (by rwa [lives, Option.all_some, decide_eq_true_eq])]
  rfl

/-- Setting any key to a later deadline shortens nothing. -/
theorem HeldUntil.set {s : Store K V} {k : K} {time : Nat} (h : HeldUntil s k time) (k' : K) (v : V) {later : Nat}
    (hl : time ≤ later) : HeldUntil (set s k' v (some later)) k time := by
  intro now hnow
  by_cases hk : k = k'
  · subst hk
    exact heldUntil_set s k v later now (Nat.lt_of_lt_of_le hnow hl)
  · rw [get_set, if_neg hk]
    exact h now hnow

end MigangBot.Lib.Expiry
