import MigangBot.CronSearch
import MigangBot.Digits
import MigangBot.Lib.Tokens

namespace MigangBot.CronExpression

open Lib.Tokens Text Digits CronSearch

abbrev CronInt := UInt8

/-- std::isspace in the C locale. -/
def isspace (c : UInt8) : Bool := c == 32 || (9 ≤ c && c ≤ 13)

def toupper (c : UInt8) : UInt8 := if 97 ≤ c ∧ c ≤ 122 then c - 32 else c

/-- std::stoul in base 10: blanks and a sign in front, nothing after the digits
looked at; none for either of its exceptions. -/
def stoul (text : Bytes) : Option Nat :=
  let text := text.dropWhile isspace
  let negative := text.head? = some (char '-')
  let digits := (if negative ∨ text.head? = some (char '+') then text.tail else text).takeWhile isdigit
  if digits = [] ∨ 2 ^ 64 ≤ digitsValue digits then none
  else some (if negative then (2 ^ 64 - digitsValue digits) % 2 ^ 64 else digitsValue digits)

/-- A stream over the text, which ends at a null, and its lines. -/
def split (text : Bytes) (delimiter : UInt8) : List Bytes := tokens delimiter (text.takeWhile (· != 0))

def contains (text : Bytes) (ch : UInt8) : Bool := decide (ch ∈ text)

/-- The message of a bad_cronexpr; the outer option is none where a loop did not
end. -/
abbrev Parsed := ExceptT Bytes Option

def toCronInt (text : Bytes) : Parsed CronInt :=
  match stoul text with
  | some n => return UInt8.ofNat n
  | none => throw (bytes "stoul")

def replaceOrdinal (text : Bytes) (r : Bytes × Nat) : Bytes :=
  let pos := find text r.1
  if pos = npos then text else text.take pos ++ (decimal (UInt64.ofNat r.2) ++ text.drop (pos + 3))

/-- Every name is looked for once. -/
def replaceOrdinals (text : Bytes) (replacement : List Bytes) : Bytes :=
  replacement.zipIdx.foldl replaceOrdinal text

/-- The two values of make_range before they are checked. -/
def rangeEnds (field : Bytes) (minval maxval : CronInt) : Parsed (CronInt × CronInt) :=
  if field = [char '*'] then return (minval, maxval)
  else if !contains field (char '-') then do
    let first ← toCronInt field
    return (first, first)
  else
    match split field (char '-') with
    | [first, last] => do
        let first ← toCronInt first
        let last ← toCronInt last
        return (first, last)
    | _ => throw (bytes "Specified range requires two fields")

def makeRange (field : Bytes) (minval maxval : CronInt) : Parsed (CronInt × CronInt) := do
  let (first, last) ← rangeEnds field minval maxval
  if first > maxval ∨ last > maxval then throw (bytes "Specified range exceeds maximum")
  else if first < minval ∨ last < minval then throw (bytes "Specified range is less than minimum")
  else if first > last then throw (bytes "Specified range start exceeds range end")
  else return (first, last)

def setBit {n : Nat} (target : BitVec n) (i : Nat) : BitVec n := target ||| BitVec.twoPow n i

/-- for (cron_int i = ...; i <= bound; i += delta): the counter has eight bits,
and a loop that does not end in 256 turns does not end. -/
def setBits {n : Nat} (bound delta : CronInt) : Nat → BitVec n → CronInt → Parsed (BitVec n)
  | 0, target, i => if i ≤ bound then ExceptT.mk none else return target
  | turns + 1, target, i =>
      if i ≤ bound then setBits bound delta turns (setBit target i.toNat) (i + delta) else return target

/-- The range of a field of the list and the step it is gone through in. -/
def makeSteps (field : Bytes) (minval maxval : CronInt) : Parsed (CronInt × CronInt × CronInt) :=
  if !contains field (char '/') then do
    let (first, last) ← makeRange field minval maxval
    return (first, last, 1)
  else
    match split field (char '/') with
    | [range, step] => do
        let (first, last) ← makeRange range minval maxval
        let last := if !contains range (char '-') then maxval else last
        let delta ← toCronInt step
        if delta ≤ 0 then throw (bytes "Incrementer must be a positive value")
        else return (first, last, delta)
    | _ => throw (bytes "Incrementer must have two fields")

def setOneField {n : Nat} (minval maxval : CronInt) (target : BitVec n) (field : Bytes) : Parsed (BitVec n) := do
  let (first, last, delta) ← makeSteps field minval maxval
  setBits (last - minval) delta 256 target (first - minval)

def setCronField {n : Nat} (value : Bytes) (target : BitVec n) (minval maxval : CronInt) : Parsed (BitVec n) :=
  if value.getLast? = some (char ',') then throw (bytes "Value cannot end with comma")
  else if split value (char ',') = [] then throw (bytes "Expression parsing error")
  else (split value (char ',')).foldlM (setOneField minval maxval) target

def cronDays : List Bytes :=
  [bytes "SUN", bytes "MON", bytes "TUE", bytes "WED", bytes "THU", bytes "FRI", bytes "SAT"]

def cronMonths : List Bytes :=
  [bytes "NIL", bytes "JAN", bytes "FEB", bytes "MAR", bytes "APR", bytes "MAY", bytes "JUN", bytes "JUL",
    bytes "AUG", bytes "SEP", bytes "OCT", bytes "NOV", bytes "DEC"]

def anyDay (value : Bytes) : Bytes := if value = [char '?'] then [char '*'] else value

def setCronDaysOfWeek (value : Bytes) (target : BitVec 7) : Parsed (BitVec 7) :=
  setCronField (anyDay (replaceOrdinals (value.map toupper) cronDays)) target 0 6

def setCronDaysOfMonth (value : Bytes) (target : BitVec 31) : Parsed (BitVec 31) :=
  setCronField (anyDay value) target 1 31

def setCronMonth (value : Bytes) (target : BitVec 12) : Parsed (BitVec 12) :=
  setCronField (replaceOrdinals (value.map toupper) cronMonths) target 1 12

def makeCron (expr : Bytes) : Parsed CronExpr :=
  if expr = [] then throw (bytes "Invalid empty cron expression")
  else
    let fields := (split expr (char ' ')).filter (· ≠ [])
    let fields := if fields.length = 5 then bytes "0" :: fields else fields
    match fields with
    | [second, minute, hour, dayOfMonth, month, dayOfWeek] => do
        let seconds ← setCronField second 0 0 59
        let minutes ← setCronField minute 0 0 59
        let hours ← setCronField hour 0 0 23
        let daysOfWeek ← setCronDaysOfWeek dayOfWeek 0
        let daysOfMonth ← setCronDaysOfMonth dayOfMonth 0
        let months ← setCronMonth month 0
        return ⟨seconds, minutes, hours, daysOfWeek, daysOfMonth, months, expr⟩
    | _ => throw (bytes "cron expression must have six fields")

example : (makeCron (bytes "8 8 * * *")).run.map Except.toOption =
    some (some ⟨1, 256, 256, 127, 2147483647, 4095, bytes "8 8 * * *"⟩) := by decide +kernel

end MigangBot.CronExpression
