import MigangBot.Text

namespace MigangBot.Digits

open Lib.Exceptions Text

def isdigit (c : UInt8) : Bool := 48 ≤ c ∧ c ≤ 57

def isDigitStr (str : Bytes) : Bool := str.all isdigit

def digitsValue (str : Bytes) : Nat := str.foldl (fun n c => 10 * n + (c.toNat - 48)) 0

/-- std::atoll of a string of digits: what no long long holds has no meaning. -/
def atoll (str : Bytes) : Outcome UInt64 :=
  if digitsValue str < 2 ^ 63 then .ok (UInt64.ofNat (digitsValue str)) else .error .undefined

/-- The text of an int. -/
def decimalInt (i : Int) : Bytes :=
  if i < 0 then char '-' :: decimal (UInt64.ofNat i.natAbs) else decimal (UInt64.ofNat i.natAbs)

theorem char_toNat {c : Char} (h : c.toNat < 256) : (char c).toNat = c.toNat := by
  rw [char, UInt8.toNat_ofNat', Nat.mod_eq_of_lt (by omega)]

theorem toNat_of_mem_toDigits {n : Nat} {c : Char} (h : c ∈ Nat.toDigits 10 n) :
    48 ≤ c.toNat ∧ c.toNat ≤ 57 := by
  have hdigit := Nat.isDigit_of_mem_toDigits (b := 10) (by omega) (by omega) h
  rw [Char.isDigit_iff_toNat] at hdigit
  exact hdigit

theorem digitsValue_map {l : List Char} (h : ∀ c ∈ l, c.toNat < 256) :
    digitsValue (l.map char) = Nat.ofDigitChars 10 l 0 := by
  rw [digitsValue, Nat.ofDigitChars_eq_foldl, List.foldl_map]
  apply List.foldl_ext
  intro n c hc
  rw [char_toNat (h c hc)]
  rfl

theorem digitsValue_decimal (n : UInt64) : digitsValue (decimal n) = n.toNat := by
  rw [decimal, digitsValue_map, Nat.ofDigitChars_ten_toDigits]
  intro c hc
  have h := (toNat_of_mem_toDigits hc).2
  omega

theorem decimal_inj {n m : UInt64} : decimal n = decimal m ↔ n = m := by
  constructor
  · intro h
    have hv := congrArg digitsValue h
    rw [digitsValue_decimal, digitsValue_decimal] at hv
    exact UInt64.toNat_inj.mp hv
  · rintro rfl
    rfl

end MigangBot.Digits
