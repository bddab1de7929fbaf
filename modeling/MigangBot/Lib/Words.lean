import Mathlib.Algebra.Group.Int.Defs
import Mathlib.Algebra.Group.Nat.Defs

namespace MigangBot.Lib.Words

/-- What a machine word of 32 bits with a sign can hold. -/
def Fits (i : Int) : Prop := -2 ^ 31 ≤ i ∧ i < 2 ^ 31

theorem bmod_of_fits {i : Int} (h : Fits i) : i.bmod (2 ^ 32) = i := by
  obtain ⟨hl, hu⟩ := h
  apply Int.bmod_eq_of_le <;> omega

variable {a b : Int32}

theorem toInt_add (h : Fits (a.toInt + b.toInt)) : (a + b).toInt = a.toInt + b.toInt := by
  rw [Int32.toInt_add, bmod_of_fits h]

theorem toInt_unsigned {c : UInt32} (h : c.toNat < 2 ^ 31) : c.toInt32.toInt = c.toNat := by
  change c.toBitVec.toInt = _
  rw [BitVec.toInt_eq_toNat_bmod]
  exact bmod_of_fits ⟨by omega, by exact_mod_cast h⟩

end MigangBot.Lib.Words
