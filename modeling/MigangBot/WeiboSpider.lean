import MigangBot.JsonValue
import Mathlib.Data.Finset.Insert
import Mathlib.Data.Finset.Basic

namespace MigangBot.WeiboSpider

open Lib.Exceptions Text JsonValue

/-- The fields that ParseWeibo sets; the name of the sender is absent when the
server gives no user. -/
structure Post where
  screenName : Option Bytes
  id : Bytes
  text : Bytes
  pics : List Bytes
  videoPoster : Bytes
  createdAt : Int
  deriving DecidableEq

structure Weibo extends Post where
  retweet : Option Post
  deriving DecidableEq

structure Config where
  filterWords : List Bytes
  filter : Bool

structure Spider where
  receivedWeiboIds : Finset Bytes
  receivedWeiboList : List Bytes

def Spider.empty : Spider := ⟨∅, []⟩

/-- What one call meets outside: the parsed answer of the server, what
GetOneWeibo makes of the card at a position (it may fetch the long text), and
the clock as it is read for that card. -/
structure Pull where
  js : Outcome Json
  getOneWeibo : Nat → Json → Outcome Weibo
  time : Nat → Int

/-- What a range-based loop over a JSON value visits. -/
def elements : Json → List Json
  | .null => []
  | .array xs => xs
  | .object fields => (fields.mergeSort (fun f g => f.1 ≤ g.1)).map Prod.snd
  | v => [v]

def cardType (card : Json) : Outcome Int := do
  let (_, t) ← card.index "card_type"
  t.getInt

def Pull.cards (p : Pull) : Outcome (List Json) := do
  let js ← p.js
  if js.contains "ok" then
    let (js, ok) ← js.index "ok"
    if (← ok.getInt) = 1 then
      let (_, data) ← js.index "data"
      let (_, cards) ← data.index "cards"
      return elements cards
    else return []
  else return []

def hits (wb : Weibo) (word : Bytes) : Bool :=
  find wb.text word != npos ||
    match wb.retweet with
    | some r => find r.text word != npos
    | none => false

def Spider.record (s : Spider) (id : Bytes) : Spider :=
  ⟨insert id s.receivedWeiboIds, s.receivedWeiboList ++ [id]⟩

/-- The loop does not stop at the first word that matches. -/
def Spider.filterLoop (s : Spider) (wb : Weibo) : List Bytes → Spider
  | [] => s
  | word :: words => (if hits wb word then s.record wb.id else s).filterLoop wb words

def Spider.visit (c : Config) (s : Spider) (now : Int) (wb : Weibo) : Spider × List Weibo :=
  let s := s.filterLoop wb c.filterWords
  if wb.id ∈ s.receivedWeiboIds ∨ now - wb.createdAt > 7200 then (s, [])
  else if !c.filter || wb.retweet.isNone then (s.record wb.id, [wb])
  else (s, [])

/-- An exception leaves the call, and the buffer as it is by then. -/
def Spider.cardLoop (c : Config) (s : Spider) (p : Pull) (i : Nat) (lastest : List Weibo) :
    List Json → Spider × Outcome (List Weibo)
  | [] => (s, .ok lastest)
  | card :: cards =>
      match cardType card with
      | .error e => (s, .error e)
      | .ok t =>
          if t = 9 then
            match p.getOneWeibo i card with
            | .error e => (s, .error e)
            | .ok wb =>
                let (s, new) := s.visit c (p.time i) wb
                s.cardLoop c p (i + 1) (lastest ++ new) cards
          else s.cardLoop c p (i + 1) lastest cards

def Spider.getLastestWeibos (c : Config) (s : Spider) (p : Pull) : Spider × Outcome (List Weibo) :=
  match p.cards with
  | .error e => (s, .error e)
  | .ok cards => s.cardLoop c p 0 [] cards

def Spider.cleanLoop (ids : Finset Bytes) : List Bytes → Spider
  | [] => ⟨ids, []⟩
  | id :: list =>
      if (id :: list).length > 10 then cleanLoop (ids.erase id) list
      else ⟨ids, id :: list⟩

def Spider.cleanBuffer (s : Spider) : Spider := cleanLoop s.receivedWeiboIds s.receivedWeiboList

inductive Event
  | pull (p : Pull)
  | cleanBuffer

def Spider.step (c : Config) (s : Spider) : Event → Spider
  | .pull p => (s.getLastestWeibos c p).1
  | .cleanBuffer => s.cleanBuffer

/-- The buffer after a history, of which the constructor makes the first call. -/
def reached (c : Config) (es : List Event) : Spider := es.foldl (Spider.step c) .empty

/-- The ids that one call returns. -/
def Spider.answered (c : Config) (s : Spider) (p : Pull) : List Bytes :=
  match (s.getLastestWeibos c p).2 with
  | .ok weibos => weibos.map (fun wb => wb.id)
  | .error _ => []

end MigangBot.WeiboSpider
