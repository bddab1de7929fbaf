import MigangBot.Text
import Mathlib.Data.Rat.Defs

namespace MigangBot.JsonValue

open Lib.Exceptions Text

/-- A parsed JSON value, with the three kinds of number the library keeps
apart. A floating-point number is the rational its double denotes. -/
inductive Json
  | null
  | boolean (b : Bool)
  | numberUnsigned (n : UInt64)
  | numberInteger (i : Int64)
  | numberFloat (q : ℚ)
  | string (s : Bytes)
  | array (xs : List Json)
  | object (fields : List (String × Json))

abbrev Object := List (String × Json)

namespace Object

def find (o : Object) (key : String) : Option Json := List.lookup key o

def contains (o : Object) (key : String) : Bool := (o.find key).isSome

def set (o : Object) (key : String) (v : Json) : Object :=
  (key, v) :: List.filter (fun f => f.1 != key) o

/-- operator[] of a constant object: a key it lacks is undefined behaviour. -/
def constIndex (o : Object) (key : String) : Outcome Json :=
  match o.find key with
  | some v => .ok v
  | none => .error .undefined

/-- operator[] of a mutable object: a key it lacks is added with the value null. -/
def index (o : Object) (key : String) : Object × Json :=
  match o.find key with
  | some v => (o, v)
  | none => (o.set key .null, .null)

theorem lookup_filter_ne (o : Object) {key k : String} (h : k ≠ key) :
    List.lookup k (List.filter (fun f => f.1 != key) o) = List.lookup k o := by
  induction o with
  | nil => rfl
  | cons f o ih =>
      rcases f with ⟨k', v⟩
      by_cases hk' : k' = key
      · subst hk'
        have hne : (k == k') = false := by simpa using h
        simpa [List.lookup_cons, hne] using ih
      · simp only [List.filter_cons, bne_iff_ne, ne_eq, hk', not_false_eq_true, if_true,
          List.lookup_cons, ih]

theorem find_set (o : Object) (key k : String) (v : Json) :
    (o.set key v).find k = if k = key then some v else o.find k := by
  by_cases h : k = key
  · subst h
    simp [find, set]
  · have hne : (k == key) = false := by simpa using h
    simp only [find, set, List.lookup_cons, hne, h, if_false]
    exact lookup_filter_ne o h

@[simp] theorem find_set_self (o : Object) (key : String) (v : Json) :
    (o.set key v).find key = some v := by
  simp [find_set]

theorem find_set_ne (o : Object) {key k : String} (v : Json) (h : k ≠ key) :
    (o.set key v).find k = o.find k := by
  simp [find_set, h]

theorem contains_iff (o : Object) (key : String) : o.contains key = true ↔ ∃ v, o.find key = some v := by
  simp [contains, Option.isSome_iff_exists]

theorem contains_set (o : Object) (key k : String) (v : Json) :
    (o.set key v).contains k = (decide (k = key) || o.contains k) := by
  by_cases h : k = key <;> simp [contains, find_set, h]

theorem index_value (o : Object) (key : String) : (o.index key).2 = (o.find key).getD .null := by
  unfold index
  cases o.find key <;> rfl

theorem find_index_ne (o : Object) {key k : String} (h : k ≠ key) :
    (o.index key).1.find k = o.find k := by
  unfold index
  cases o.find key with
  | none => exact find_set_ne o .null h
  | some v => rfl

theorem index_of_find {o : Object} {key : String} {v : Json} (h : o.find key = some v) :
    o.index key = (o, v) := by
  simp [index, h]

theorem constIndex_eq_ok {o : Object} {key : String} {v : Json} :
    o.constIndex key = .ok v ↔ o.find key = some v := by
  unfold constIndex
  cases o.find key <;> simp

end Object

namespace Json

def contains : Json → String → Bool
  | .object o, key => Object.contains o key
  | _, _ => false

def constIndex : Json → String → Outcome Json
  | .object o, key => Object.constIndex o key
  | _, _ => throwing (.json 305)

def index : Json → String → Outcome (Json × Json)
  | .object o, key => .ok (.object (Object.index o key).1, (Object.index o key).2)
  | .null, key => .ok (.object [(key, .null)], .null)
  | _, _ => throwing (.json 305)

def setIndex : Json → String → Json → Outcome Json
  | .object o, key, v => .ok (.object (Object.set o key v))
  | .null, key, v => .ok (.object [(key, v)])
  | _, _, _ => throwing (.json 305)

def isNull : Json → Bool
  | .null => true
  | _ => false

def isNumber : Json → Bool
  | .numberUnsigned _ | .numberInteger _ | .numberFloat _ => true
  | _ => false

/-- Conversion of a double to an integer type: the fraction is cut off, and a
value outside the type's range has no meaning. -/
def truncate (low high : Int) (q : ℚ) : Outcome Int :=
  let i := q.num.tdiv q.den
  if low ≤ i ∧ i ≤ high then .ok i else .error .undefined

def getUInt64 : Json → Outcome UInt64
  | .numberUnsigned n => .ok n
  | .numberInteger i => .ok i.toUInt64
  | .numberFloat q => do return UInt64.ofNat (← truncate 0 (2 ^ 64 - 1) q).toNat
  | _ => throwing (.json 302)

def getInt64 : Json → Outcome Int64
  | .numberUnsigned n => .ok n.toInt64
  | .numberInteger i => .ok i
  | .numberFloat q => do return Int64.ofInt (← truncate (-2 ^ 63) (2 ^ 63 - 1) q)
  | _ => throwing (.json 302)

/-- Reading a narrower integer type of the given width keeps the low bits; a
boolean counts as a number here. -/
def getNarrow (bits : Nat) : Json → Outcome Int
  | .numberUnsigned n => .ok ((n.toNat : Int).bmod (2 ^ bits))
  | .numberInteger i => .ok (i.toInt.bmod (2 ^ bits))
  | .numberFloat q => truncate (-2 ^ (bits - 1)) (2 ^ (bits - 1) - 1) q
  | .boolean b => .ok (if b then 1 else 0)
  | _ => throwing (.json 302)

def getShort (j : Json) : Outcome Int := j.getNarrow 16

def getInt (j : Json) : Outcome Int := j.getNarrow 32

def getString : Json → Outcome Bytes
  | .string s => .ok s
  | _ => throwing (.json 302)

def getBool : Json → Outcome Bool
  | .boolean b => .ok b
  | _ => throwing (.json 302)

/-- The member function value: the default stands in for a missing key, and a
value that is no object has none. -/
def value {α : Type} (get : Json → Outcome α) : Json → String → α → Outcome α
  | .object o, key, default =>
      match Object.find o key with
      | some v => get v
      | none => .ok default
  | _, _, _ => throwing (.json 306)

def size : Json → Nat
  | .null => 0
  | .array xs => xs.length
  | .object o => o.length
  | _ => 1

def items : Json → Outcome (List Json)
  | .array xs => .ok xs
  | j => if j.size = 0 then .ok [] else throwing (.json 305)

theorem getString_eq_ok {j : Json} {s : Bytes} : j.getString = .ok s ↔ j = .string s := by
  cases j <;> simp [getString, throwing]

theorem getShort_unsigned (n : UInt64) :
    (Json.numberUnsigned n).getShort = .ok ((n.toNat : Int).bmod 65536) := by
  simp [getShort, getNarrow]

end Json

end MigangBot.JsonValue
