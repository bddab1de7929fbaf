import MigangBot.Lib.Exceptions
import Mathlib.Algebra.Group.Int.Defs
import Mathlib.Algebra.Group.Nat.Defs
import Mathlib.Data.List.Basic

namespace MigangBot.Text

open Lib.Exceptions

/-- The exception classes the program tells apart: those of the JSON library,
with their number, and the ones of the standard library. -/
inductive Exception
  | json (id : Nat)
  | outOfRange
  deriving DecidableEq, Repr

abbrev Outcome := Lib.Exceptions.Outcome Exception

/-- The contents of a std::string or std::string_view. Views are taken as
values: what a view shows does not change after it is made. -/
abbrev Bytes := List UInt8

def bytes (s : String) : Bytes := s.toUTF8.data.toList

def char (c : Char) : UInt8 := UInt8.ofNat c.toNat

/-- std::tolower in the C locale, which is the one the program runs in. -/
def tolower (c : UInt8) : UInt8 := if 65 ≤ c ∧ c ≤ 90 then c + 32 else c

def lower (s : Bytes) : Bytes := s.map tolower

@[simp] theorem lower_nil : lower [] = [] := rfl

@[simp] theorem lower_cons (c : UInt8) (s : Bytes) : lower (c :: s) = tolower c :: lower s := rfl

@[simp] theorem lower_append (s t : Bytes) : lower (s ++ t) = lower s ++ lower t := List.map_append

@[simp] theorem length_lower (s : Bytes) : (lower s).length = s.length := List.length_map _

@[simp] theorem lower_reverse (s : Bytes) : lower s.reverse = (lower s).reverse := List.map_reverse

def npos : Nat := 2 ^ 64 - 1

def startsWith (s t : Bytes) : Bool := t.isPrefixOf s

def findFirstOf (c : UInt8) (s : Bytes) : Nat := (s.findIdx? (· == c)).getD npos

def findFirstNotOf (c : UInt8) (s : Bytes) : Nat := (s.findIdx? (· != c)).getD npos

def findLastNotOf (c : UInt8) (s : Bytes) : Nat :=
  match s.reverse.findIdx? (· != c) with
  | some i => s.length - 1 - i
  | none => npos

def find (s t : Bytes) : Nat :=
  ((List.range (s.length + 1)).find? (fun i => t.isPrefixOf (s.drop i))).getD npos

def sizeSub (a b : Nat) : Nat := if b ≤ a then a - b else 2 ^ 64 + a - b

def sizeSucc (a : Nat) : Nat := (a + 1) % 2 ^ 64

def substr (s : Bytes) (pos count : Nat) : Outcome Bytes :=
  if pos ≤ s.length then .ok ((s.drop pos).take count) else throwing .outOfRange

def substrFrom (s : Bytes) (pos : Nat) : Outcome Bytes :=
  if pos ≤ s.length then .ok (s.drop pos) else throwing .outOfRange

/-- Cutting more than a view holds leaves it without meaning. -/
def cutFront (s : Bytes) (n : Nat) : Outcome Bytes :=
  if n ≤ s.length then .ok (s.drop n) else .error .undefined

def cutBack (s : Bytes) (n : Nat) : Outcome Bytes :=
  if n ≤ s.length then .ok (s.take (s.length - n)) else .error .undefined

/-- The character a string holds at a position; one past its end is the
terminating null, further out nothing is promised. -/
def charAt (s : Bytes) (pos : Nat) : Outcome UInt8 :=
  if pos ≤ s.length then .ok (s.getD pos 0) else .error .undefined

def decimal (n : UInt64) : Bytes := (Nat.toDigits 10 n.toNat).map char

end MigangBot.Text
