import MigangBot.Lib.Forests
import MigangBot.RedisCommand

namespace MigangBot.HtmlTree

open Text RedisCommand Lib.Forests

/-- What C reads behind a pointer to characters. -/
abbrev CString := { s : Bytes // (0 : UInt8) ∉ s }

def cStr (s : Bytes) : CString :=
  ⟨cString s, fun h => absurd (List.mem_takeWhile_imp h) (by decide)⟩

abbrev NodePtr := Nat

/-- The kinds of nodes that are told apart. The parser gives every text node its
content, and of no other node it is read. -/
inductive NodeType
  | element
  | text (content : CString)
  | other

structure XmlNode where
  type : NodeType
  children : Option NodePtr
  next : Option NodePtr

abbrev Memory := NodePtr → XmlNode

def links (mem : Memory) : Links NodePtr := ⟨fun p => (mem p).children, fun p => (mem p).next⟩

/-- Attributes are looked up by a library. It gives the value of an attribute
that there is. -/
structure Libxml2 where
  xmlHasProp : NodePtr → CString → Bool
  xmlGetProp : NodePtr → CString → Option CString
  hasProp_iff : ∀ node name, xmlHasProp node name = (xmlGetProp node name).isSome

/-- A wrapped pointer, which may be null. -/
abbrev HtmlNode := Option NodePtr

/-- The difference of the first characters that differ up to case, as C has it. -/
def strcasecmp : Bytes → Bytes → Int
  | [], [] => 0
  | [], d :: _ => -(tolower d).toNat
  | c :: _, [] => (tolower c).toNat
  | c :: s, d :: t => if tolower c = tolower d then strcasecmp s t else (tolower c).toNat - (tolower d).toNat

section Code

variable (lib : Libxml2) (mem : Memory)

def isFound (attr value : CString) (cur : NodePtr) : Bool :=
  match (mem cur).type with
  | .element => lib.xmlHasProp cur attr && (lib.xmlGetProp cur attr).any fun v => strcasecmp v.1 value.1 == 0
  | _ => false

/-- The inner loop of FindChildrenByAttribute, over a node and its later
siblings; none if it is still running after so many turns. -/
def findLoop (attr value : CString) (recursive : Bool) : Nat → Option NodePtr → List (Option NodePtr) →
    List HtmlNode → Option (List (Option NodePtr) × List HtmlNode)
  | 0, _, _, _ => none
  | _ + 1, none, stk, ret => some (stk, ret)
  | turns + 1, some cur, stk, ret =>
      findLoop attr value recursive turns (mem cur).next (if recursive then (mem cur).children :: stk else stk)
        (if isFound lib mem attr value cur then ret ++ [some cur] else ret)

def stackLoop (attr value : CString) (recursive : Bool) : Nat → List (Option NodePtr) → List HtmlNode →
    Option (List HtmlNode)
  | 0, _, _ => none
  | _ + 1, [], ret => some ret
  | turns + 1, p :: stk, ret => do
      let (stk, ret) ← findLoop lib mem attr value recursive turns p stk ret
      stackLoop attr value recursive turns stk ret

def findChildrenByAttribute (turns : Nat) (node : HtmlNode) (attr value : Bytes) (recursive : Bool) :
    Option (List HtmlNode) :=
  match node.bind fun p => (mem p).children with
  | none => some []
  | some children => stackLoop lib mem (cStr attr) (cStr value) recursive turns [some children] []

def addContent (cur : NodePtr) (ret : Bytes) : Bytes :=
  match (mem cur).type with
  | .text content => ret ++ content.1
  | _ => ret

/-- The recursion of TextNodeDfs, whose loop over the siblings goes on with the
next one. -/
def textNodeDfs : Nat → Option NodePtr → Bytes → Option Bytes
  | 0, _, _ => none
  | _ + 1, none, ret => some ret
  | turns + 1, some cur, ret => do
      let ret ← textNodeDfs turns (mem cur).children (addContent mem cur ret)
      textNodeDfs turns (mem cur).next ret

def getAllText (turns : Nat) (node : HtmlNode) : Option Bytes :=
  match node with
  | none => some []
  | some p => textNodeDfs mem turns (some p) []

end Code

/-- A document: its nodes make up a forest that no node is in twice. -/
structure Document (mem : Memory) where
  children : Option NodePtr
  forest : Forest NodePtr
  represents : Represents (links mem) children forest
  nodup : forest.nodes.Nodup

/-- A division with two paragraphs, "a" and "b". -/
def page : Memory
  | 0 => ⟨.element, some 1, none⟩
  | 1 => ⟨.element, some 2, some 3⟩
  | 2 => ⟨.text ⟨bytes "a", by decide⟩, none, none⟩
  | 3 => ⟨.element, some 4, none⟩
  | 4 => ⟨.text ⟨bytes "b", by decide⟩, none, none⟩
  | _ => ⟨.other, none, none⟩

def pageDocument : Document page where
  children := some 0
  forest := .cons 0 (.cons 1 (.cons 2 .nil .nil) (.cons 3 (.cons 4 .nil .nil) .nil)) .nil
  represents := .cons (.cons (.cons .nil .nil) (.cons (.cons .nil .nil) .nil)) .nil
  nodup := by decide

end MigangBot.HtmlTree
