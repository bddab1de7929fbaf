import MigangBot.Digits
import MigangBot.Lib.Expiry
import Mathlib.Data.List.TakeWhile

namespace MigangBot.RedisCommand

open Lib.Maps Lib.Expiry Text Digits

/-- What hiredis does with the text behind a '%': it puts something into the argument
and goes on behind some characters, or refuses the format. -/
abbrev Directive := Bytes → Option (Bytes × Nat)

/-- A text as C sees it. -/
def cString (s : Bytes) : Bytes := s.takeWhile (· != 0)

/-- The arguments of a format: it is cut at the spaces. A last '%' stands for itself. -/
def format (directive : Directive) : Nat → Option Bytes → List Bytes → Bytes → Option (List Bytes)
  | _, current, args, [] => some (args ++ current.toList)
  | skip + 1, current, args, _ :: rest => format directive skip current args rest
  | 0, current, args, c :: rest =>
      if c = char '%' ∧ rest ≠ [] then
        match directive rest with
        | some (inserted, taken) => format directive taken (some (current.getD [] ++ inserted)) args rest
        | none => none
      else if c = char ' ' then format directive 0 none (args ++ current.toList) rest
      else format directive 0 (some (current.getD [] ++ [c])) args rest

/-- What the server answers with. -/
inductive Reply
  | nil
  | status (str : Bytes)
  | error (str : Bytes)
  | string (str : Bytes)

def Reply.str : Reply → Bytes
  | .nil => []
  | .status str => str
  | .error str => str
  | .string str => str

/-- The deadline that the options of a SET ask for, where the server takes them. -/
def deadlineOf (now : Nat) : List Bytes → Option (Option Nat)
  | [] => some none
  | [ex, seconds] => if ex = bytes "EX" ∧ isDigitStr seconds ∧ 0 < digitsValue seconds then
      some (some (now + digitsValue seconds)) else none
  | _ => none

abbrev Server := Store Bytes Bytes

def get (s : Server) (now : Nat) (key : Bytes) : Reply :=
  match Lib.Expiry.get s now key with
  | some value => .string value
  | none => .nil

def set (s : Server) (now : Nat) (key value : Bytes) (options : List Bytes) : Server × Reply :=
  match deadlineOf now options with
  | some deadline => (Lib.Expiry.set s key value deadline, .status (bytes "OK"))
  | none => (s, .error (bytes "ERR syntax error"))

/-- The two commands that the module uses. -/
def exec (s : Server) (now : Nat) : List Bytes → Server × Reply
  | [command, key] => if command = bytes "GET" then (s, get s now key)
      else (s, .error (bytes "ERR wrong number of arguments"))
  | command :: key :: value :: options => if command = bytes "SET" then set s now key value options
      else (s, .error (bytes "ERR wrong number of arguments"))
  | _ => (s, .error (bytes "ERR wrong number of arguments"))

/-- An error with which the server refuses a command it would else carry out: its kind
in capital letters, and a text. -/
structure Refusal where
  kind : Bytes
  text : Bytes
  kind_ne_nil : kind ≠ []
  capital : ∀ c ∈ kind, char 'A' ≤ c ∧ c ≤ char 'Z'

def Refusal.str (e : Refusal) : Bytes := e.kind ++ char ' ' :: e.text

/-- How it goes with one command: the reply comes, or the server refuses the command, or
the reply is lost, or the command does not reach the server. -/
inductive Link
  | up
  | refused (e : Refusal)
  | lost
  | down

def Link.answers : Link → Bool
  | .up => true
  | .refused _ => true
  | .lost => false
  | .down => false

def Link.refuses : Link → Bool
  | .refused _ => true
  | _ => false

/-- redis::DB::Execute: nothing but a missing reply makes it false. -/
def execute (directive : Directive) (link : Link) (s : Server) (now : Nat) (command : Bytes) :
    Server × Option Reply :=
  match format directive 0 none [] (cString command) with
  | none => (s, none)
  | some args =>
      match link with
      | .up => ((exec s now args).1, some (exec s now args).2)
      | .refused e => (s, some (.error e.str))
      | .lost => ((exec s now args).1, none)
      | .down => (s, none)

section Formats

variable {directive : Directive}

/-- A word with nothing in it that the format gives a meaning. -/
structure Plain (w : Bytes) : Prop where
  space : char ' ' ∉ w
  percent : char '%' ∉ w

/-- One that is an argument as it stands. -/
structure Word (w : Bytes) : Prop extends Plain w where
  ne_nil : w ≠ []
  clean : 0 ∉ w

theorem word_of {w : Bytes} (h : char ' ' ∉ w ∧ char '%' ∉ w ∧ w ≠ [] ∧ 0 ∉ w) : Word w :=
  ⟨⟨h.1, h.2.1⟩, h.2.2.1, h.2.2.2⟩

theorem format_plain {w : Bytes} (h : Plain w) (current : Bytes) (args : List Bytes) (rest : Bytes) :
    format directive 0 (some current) args (w ++ rest) = format directive 0 (some (current ++ w)) args rest := by
  induction w generalizing current with
  | nil => rw [List.nil_append, List.append_nil]
  | cons c w ih =>
      have hpercent : c ≠ char '%' := fun hc => h.percent (hc ▸ List.mem_cons_self)
      have hspace : c ≠ char ' ' := fun hc => h.space (hc ▸ List.mem_cons_self)
      have hw : Plain w := ⟨fun hm => h.space (List.mem_cons_of_mem c hm), fun hm => h.percent (List.mem_cons_of_mem c hm)⟩
      rw [List.cons_append, format, if_neg (fun hc => hpercent hc.1), if_neg hspace, Option.getD_some, ih hw,
        List.append_assoc]
      rfl

theorem format_start {w : Bytes} (h : Plain w) (hne : w ≠ []) (args : List Bytes) (rest : Bytes) :
    format directive 0 none args (w ++ rest) = format directive 0 (some w) args rest := by
  obtain ⟨c, w, rfl⟩ := List.exists_cons_of_ne_nil hne
  have hpercent : c ≠ char '%' := fun hc => h.percent (hc ▸ List.mem_cons_self)
  have hspace : c ≠ char ' ' := fun hc => h.space (hc ▸ List.mem_cons_self)
  have hw : Plain w := ⟨fun hm => h.space (List.mem_cons_of_mem c hm), fun hm => h.percent (List.mem_cons_of_mem c hm)⟩
  rw [List.cons_append, format, if_neg (fun hc => hpercent hc.1), if_neg hspace]
  exact format_plain hw [c] args rest

theorem format_word {w : Bytes} (h : Plain w) (hne : w ≠ []) (args : List Bytes) (rest : Bytes) :
    format directive 0 none args (w ++ char ' ' :: rest) = format directive 0 none (args ++ [w]) rest := by
  have hspace : ¬ (char ' ' = char '%' ∧ rest ≠ []) := fun hc => absurd hc.1 (by decide)
  rw [format_start h hne, format, if_neg hspace, if_pos rfl]
  rfl

/-- What stands before the rest of a format is among its arguments. -/
theorem prefix_of_format {skip : Nat} {current : Option Bytes} {args args' : List Bytes} {text : Bytes}
    (h : format directive skip current args text = some args') : args <+: args' := by
  induction text generalizing skip current args with
  | nil =>
      cases skip <;> exact ⟨_, Option.some.inj h⟩
  | cons c rest ih =>
      cases skip with
      | succ skip => exact ih h
      | zero =>
          rw [format] at h
          split at h
          · split at h
            · exact ih h
            · cases h
          · split at h
            · exact (List.prefix_append _ _).trans (ih h)
            · exact ih h

theorem cString_append_clean {x : Bytes} (h : 0 ∉ x) (y : Bytes) : cString (x ++ y) = x ++ cString y := by
  apply List.takeWhile_append_of_pos
  intro c hc
  simpa using fun h0 : c = 0 => h (h0 ▸ hc)

theorem cString_clean {x : Bytes} (h : 0 ∉ x) : cString x = x := by
  have happend := cString_append_clean h []
  rw [List.append_nil] at happend
  rw [happend]
  exact List.append_nil x

theorem cString_append_cut {x : Bytes} (h : 0 ∈ x) (y : Bytes) : cString (x ++ y) = cString x := by
  have hshort : (x.takeWhile (· != 0)).length ≠ x.length := by
    intro hlen
    have hall := List.takeWhile_eq_self_iff.mp ((List.takeWhile_prefix _).eq_of_length hlen)
    simpa using hall 0 h
  rw [cString, List.takeWhile_append, if_neg hshort]
  rfl

end Formats

end MigangBot.RedisCommand
