import MigangBot.Digits
import MigangBot.Lib.Maps

namespace MigangBot.Zhanbu

open Lib.Exceptions Lib.Maps Text Digits

section Configuration

/-- What the constructor asks of YAML::Node. -/
structure NodeLibrary (ε Node : Type) where
  index : Node → Bytes → Lib.Exceptions.Outcome ε Node
  element : Node → Nat → Lib.Exceptions.Outcome ε Node
  size : Node → Nat
  isDefined : Node → Bool
  asString : Node → Lib.Exceptions.Outcome ε Bytes

/-- Texts by key. An entry begins with its first text, so that none is empty. -/
structure Replies where
  texts : FiniteMap Bytes (List Bytes)
  filled : ∀ key l, texts.lookup key = some l → l ≠ []

namespace Replies

def empty : Replies := ⟨∅, fun _ _ h => by cases h⟩

/-- What push_back on the entry of a key leaves. -/
def pushBack (r : Replies) (key text : Bytes) : Replies where
  texts := r.texts.insert key ((r.texts.lookup key).getD [] ++ [text])
  filled := by
    intro key' l h
    rw [lookup_insert_eq] at h
    split at h
    next =>
      cases h
      exact List.concat_ne_nil _ _
    next => exact r.filled key' l h

end Replies

structure EorzeaZhanbu where
  occupations : List Bytes
  dye : List Bytes
  events : List Bytes
  luckYiReply : Replies
  luckJiReply : Replies
  occupationBasemaps : Replies

variable {ε Node : Type} (lib : NodeLibrary ε Node)

def readList (node : Node) : Lib.Exceptions.Outcome ε (List Bytes) :=
  (List.range (lib.size node)).mapM fun i => do lib.asString (← lib.element node i)

def addReplies (config : Node) (title : Bytes) (replies : Replies) (event : Bytes) :
    Lib.Exceptions.Outcome ε Replies := do
  let node ← lib.index (← lib.index config title) event
  if lib.isDefined node then return (← readList lib node).foldl (fun r text => r.pushBack event text) replies
  else return replies

/-- The files of a directory are given by their names. -/
def addBasemaps (assets : Bytes → Lib.Exceptions.Outcome ε (List Bytes)) (basemaps : Replies) (occupation : Bytes) :
    Lib.Exceptions.Outcome ε Replies := do
  let files ← assets occupation
  return (files.filter fun file => (bytes ".png").isSuffixOf file).foldl
    (fun r file => r.pushBack occupation file) basemaps

/-- The constructor of EorzeaZhanbu on the node that LoadConfig returns. -/
def construct (assets : Bytes → Lib.Exceptions.Outcome ε (List Bytes)) (config : Node) :
    Lib.Exceptions.Outcome ε EorzeaZhanbu := do
  let occupations ← readList lib (← lib.index config (bytes "职业"))
  let dye ← readList lib (← lib.index config (bytes "染料"))
  let events ← readList lib (← lib.index config (bytes "事件"))
  let replies ← events.foldlM (fun (replies : Replies × Replies) event => do
    let yi ← addReplies lib config (bytes "宜") replies.1 event
    let ji ← addReplies lib config (bytes "忌") replies.2 event
    return (yi, ji)) (Replies.empty, Replies.empty)
  let basemaps ← occupations.foldlM (addBasemaps assets) Replies.empty
  return ⟨occupations, dye, events, replies.1, replies.2, basemaps⟩

end Configuration

section Result

structure Result where
  luck : Bytes
  yi : Bytes
  ji : Bytes
  dye : Bytes
  appendMsg : Bytes
  occupation : Bytes
  deriving DecidableEq

def everything : Bytes := bytes "诸事皆宜"

def nothing : Bytes := bytes "无"

/-- The two events after the loop. -/
def settle (luckYi luckJi : Bytes) : Bytes × Bytes :=
  if luckYi = everything then (luckYi, nothing)
  else if luckJi = everything then (everything, nothing)
  else (luckYi, luckJi)

variable (z : EorzeaZhanbu) (luck : Int) (hitokoto : Bytes)

/-- The messages among which the draws of GetZhanbuResult choose the appended
one. Where both events have replies GetRandomNum says which list it comes from. -/
def appendMsgs (occupation luckYi luckJi : Bytes) : List Bytes :=
  if luck = 100 then [bytes "是欧皇中的欧皇！"]
  else if luck = 0 then [bytes "非极必欧！"]
  else if luck > 94 then [bytes "是欧皇哦~"]
  else if luck < 6 then [bytes "是非酋呢~"]
  else if occupation = bytes "舞者" ∧ luck ≥ 50 then z.occupations.map fun o => bytes "最佳舞伴->" ++ o
  else
    match z.luckYiReply.texts.lookup luckYi, z.luckJiReply.texts.lookup luckJi with
    | some yi, some ji => yi ++ ji
    | some yi, none => yi
    | none, some ji => ji
    | none, none => [bytes "\"" ++ (hitokoto ++ bytes "\"")]

/-- How far a run of GetZhanbuResult has come, with what it has drawn. -/
inductive Point
  | start
  | occupation (luckOccupation : Bytes)
  | dye (luckOccupation luckDye : Bytes)
  | yi (luckOccupation luckDye luckYi : Bytes)
  | loop (luckOccupation luckDye luckYi luckJi : Bytes)
  | settled (luckOccupation luckDye luckYi luckJi : Bytes)
  | returned (result : Result)
  deriving DecidableEq

/-- Where the next draw of GetZhanbuResult can lead: select_randomly gives any
element of its list. -/
def next : Point → List Point
  | .start => z.occupations.map .occupation
  | .occupation luckOccupation => z.dye.map (.dye luckOccupation)
  | .dye luckOccupation luckDye => z.events.map (.yi luckOccupation luckDye)
  | .yi luckOccupation luckDye luckYi => z.events.map (.loop luckOccupation luckDye luckYi)
  | .loop luckOccupation luckDye luckYi luckJi =>
      if luckYi = luckJi then z.events.map (.loop luckOccupation luckDye luckYi)
      else [.settled luckOccupation luckDye (settle luckYi luckJi).1 (settle luckYi luckJi).2]
  | .settled luckOccupation luckDye luckYi luckJi =>
      (appendMsgs z luck hitokoto luckOccupation luckYi luckJi).map fun appendMsg =>
        .returned ⟨decimalInt luck ++ bytes "%", bytes "宜 " ++ luckYi, bytes "忌 " ++ luckJi, luckDye, appendMsg,
          luckOccupation⟩
  | .returned _ => []

end Result

/-- What Draw is given, by position. -/
structure Card where
  luck : Bytes
  yi : Bytes
  ji : Bytes
  dye : Bytes
  appendMsg : Bytes
  basemap : Bytes
  deriving DecidableEq

end MigangBot.Zhanbu
