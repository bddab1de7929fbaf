import MigangBot.Zhanbu
import Mathlib.Logic.Relation

namespace MigangBot.ZhanbuTermination

open Lib.Exceptions Lib.Maps Text Digits Zhanbu

section Draws

variable (z : EorzeaZhanbu) (luck : Int) (hitokoto : Bytes)

def Draws (p q : Point) : Prop := q ∈ next z luck hitokoto p

/-- What some sequence of draws leads to. -/
def Leads : Point → Point → Prop := Relation.ReflTransGen (Draws z luck hitokoto)

def CanReturn (p : Point) : Prop := ∃ r, Leads z luck hitokoto p (.returned r)

theorem exists_appendMsg (ho : z.occupations ≠ []) (occupation luckYi luckJi : Bytes) :
    ∃ m, m ∈ appendMsgs z luck hitokoto occupation luckYi luckJi := by
  apply List.exists_mem_of_ne_nil
  rw [appendMsgs]
  split_ifs
  · exact List.cons_ne_nil _ _
  · exact List.cons_ne_nil _ _
  · exact List.cons_ne_nil _ _
  · exact List.cons_ne_nil _ _
  · exact fun h => ho (List.map_eq_nil_iff.mp h)
  · split
    next yi ji hyi _ => exact List.append_ne_nil_of_left_ne_nil (z.luckYiReply.filled _ _ hyi) ji
    next yi hyi _ => exact z.luckYiReply.filled _ _ hyi
    next ji _ hji => exact z.luckJiReply.filled _ _ hji
    next => exact List.cons_ne_nil _ _

variable {z luck hitokoto}

theorem canReturn_of_mem {p q : Point} (h : q ∈ next z luck hitokoto p) (hq : CanReturn z luck hitokoto q) :
    CanReturn z luck hitokoto p := by
  obtain ⟨r, hr⟩ := hq
  exact ⟨r, .head h hr⟩

theorem canReturn_settled (ho : z.occupations ≠ []) (occupation luckDye luckYi luckJi : Bytes) :
    CanReturn z luck hitokoto (.settled occupation luckDye luckYi luckJi) := by
  obtain ⟨m, hm⟩ := exists_appendMsg z luck hitokoto ho occupation luckYi luckJi
  exact ⟨_, .single (List.mem_map_of_mem hm)⟩

theorem canReturn_loop_of_ne (ho : z.occupations ≠ []) (occupation luckDye : Bytes) {luckYi luckJi : Bytes}
    (hne : luckYi ≠ luckJi) : CanReturn z luck hitokoto (.loop occupation luckDye luckYi luckJi) := by
  refine canReturn_of_mem ?_ (canReturn_settled ho occupation luckDye (settle luckYi luckJi).1 (settle luckYi luckJi).2)
  rw [next, if_neg hne]
  exact List.mem_singleton_self _

/-- One more draw is enough to leave the loop. -/
theorem canReturn_loop (ho : z.occupations ≠ []) (h : ∃ e ∈ z.events, ∃ e' ∈ z.events, e ≠ e')
    (occupation luckDye luckYi luckJi : Bytes) :
    CanReturn z luck hitokoto (.loop occupation luckDye luckYi luckJi) := by
  by_cases heq : luckYi = luckJi
  · have hother : ∃ e ∈ z.events, luckYi ≠ e := by
      obtain ⟨e, he, e', he', hne⟩ := h
      by_cases hy : luckYi = e
      · exact ⟨e', he', hy ▸ hne⟩
      · exact ⟨e, he, hy⟩
    obtain ⟨e, he, hne⟩ := hother
    refine canReturn_of_mem ?_ (canReturn_loop_of_ne ho occupation luckDye hne)
    rw [next, if_pos heq]
    exact List.mem_map_of_mem he
  · exact canReturn_loop_of_ne ho occupation luckDye heq

theorem canReturn (ho : z.occupations ≠ []) (hd : z.dye ≠ []) (h : ∃ e ∈ z.events, ∃ e' ∈ z.events, e ≠ e')
    (p : Point) : CanReturn z luck hitokoto p := by
  obtain ⟨o, hmo⟩ := List.exists_mem_of_ne_nil _ ho
  obtain ⟨d, hmd⟩ := List.exists_mem_of_ne_nil _ hd
  obtain ⟨e, hme, _⟩ := id h
  have hyi : ∀ occupation luckDye luckYi, CanReturn z luck hitokoto (.yi occupation luckDye luckYi) :=
    fun occupation luckDye luckYi =>
      canReturn_of_mem (List.mem_map_of_mem hme) (canReturn_loop ho h occupation luckDye luckYi e)
  have hdye : ∀ occupation luckDye, CanReturn z luck hitokoto (.dye occupation luckDye) :=
    fun occupation luckDye => canReturn_of_mem (List.mem_map_of_mem hme) (hyi occupation luckDye e)
  have hoccupation : ∀ occupation, CanReturn z luck hitokoto (.occupation occupation) :=
    fun occupation => canReturn_of_mem (List.mem_map_of_mem hmd) (hdye occupation d)
  cases p with
  | start => exact canReturn_of_mem (List.mem_map_of_mem hmo) (hoccupation o)
  | occupation occupation => exact hoccupation occupation
  | dye occupation luckDye => exact hdye occupation luckDye
  | yi occupation luckDye luckYi => exact hyi occupation luckDye luckYi
  | loop occupation luckDye luckYi luckJi => exact canReturn_loop ho h occupation luckDye luckYi luckJi
  | settled occupation luckDye luckYi luckJi => exact canReturn_settled ho occupation luckDye luckYi luckJi
  | returned r => exact ⟨r, .refl⟩

/-- The loop is never left while there is no other event to draw. -/
theorem eq_loop_of_leads {occupation luckDye luckYi : Bytes} (h : ∀ e ∈ z.events, e = luckYi) {q : Point}
    (hq : Leads z luck hitokoto (.loop occupation luckDye luckYi luckYi) q) :
    q = .loop occupation luckDye luckYi luckYi := by
  induction hq with
  | refl => rfl
  | tail _ hdraw ih =>
      rw [Draws, ih, next, if_pos rfl] at hdraw
      obtain ⟨e, he, rfl⟩ := List.mem_map.mp hdraw
      rw [h e he]

theorem leads_loop {o d e e' : Bytes} (ho : o ∈ z.occupations) (hd : d ∈ z.dye) (he : e ∈ z.events)
    (he' : e' ∈ z.events) : Leads z luck hitokoto .start (.loop o d e e') := by
  refine .head (b := .occupation o) (List.mem_map_of_mem ho) ?_
  refine .head (b := .dye o d) (List.mem_map_of_mem hd) ?_
  refine .head (b := .yi o d e) (List.mem_map_of_mem he) ?_
  exact .single (List.mem_map_of_mem he')

theorem canReturn_iff (ho : z.occupations ≠ []) (hd : z.dye ≠ []) (he : z.events ≠ []) :
    (∀ p, Leads z luck hitokoto .start p → CanReturn z luck hitokoto p) ↔
      ∃ e ∈ z.events, ∃ e' ∈ z.events, e ≠ e' := by
  constructor
  · intro hall
    by_contra hsame
    push Not at hsame
    obtain ⟨o, hmo⟩ := List.exists_mem_of_ne_nil _ ho
    obtain ⟨d, hmd⟩ := List.exists_mem_of_ne_nil _ hd
    obtain ⟨e, hme⟩ := List.exists_mem_of_ne_nil _ he
    obtain ⟨r, hr⟩ := hall _ (leads_loop hmo hmd hme hme)
    cases eq_loop_of_leads (fun e' he' => hsame e' he' e hme) hr
  · intro h p _
    exact canReturn ho hd h p

end Draws

section Configurations

variable {ε Node : Type} {lib : NodeLibrary ε Node} {assets : Bytes → Lib.Exceptions.Outcome ε (List Bytes)}
  {config : Node} {z : EorzeaZhanbu}

/-- The entries of the list under a title. -/
def entries (lib : NodeLibrary ε Node) (config : Node) (title : Bytes) : Lib.Exceptions.Outcome ε (List Bytes) := do
  readList lib (← lib.index config title)

theorem entries_of_construct (h : construct lib assets config = .ok z) :
    entries lib config (bytes "职业") = .ok z.occupations ∧ entries lib config (bytes "染料") = .ok z.dye ∧
      entries lib config (bytes "事件") = .ok z.events := by
  rw [construct] at h
  obtain ⟨node, hnode, h⟩ := bind_eq_ok.mp h
  obtain ⟨occupations, ho, h⟩ := bind_eq_ok.mp h
  obtain ⟨node', hnode', h⟩ := bind_eq_ok.mp h
  obtain ⟨dye, hd, h⟩ := bind_eq_ok.mp h
  obtain ⟨node'', hnode'', h⟩ := bind_eq_ok.mp h
  obtain ⟨events, he, h⟩ := bind_eq_ok.mp h
  obtain ⟨replies, _, h⟩ := bind_eq_ok.mp h
  obtain ⟨basemaps, _, h⟩ := bind_eq_ok.mp h
  cases h
  exact ⟨bind_eq_ok.mpr ⟨node, hnode, ho⟩, bind_eq_ok.mpr ⟨node', hnode', hd⟩, bind_eq_ok.mpr ⟨node'', hnode'', he⟩⟩

/-- A result can be reached from wherever the draws have led exactly when the
event list has two different entries. -/
theorem result_returned_iff (h : construct lib assets config = .ok z) (ho : z.occupations ≠ []) (hd : z.dye ≠ [])
    (he : z.events ≠ []) (luck : Int) (hitokoto : Bytes) :
    (∀ p, Leads z luck hitokoto .start p → CanReturn z luck hitokoto p) ↔
      ∃ events, entries lib config (bytes "事件") = .ok events ∧ ∃ e ∈ events, ∃ e' ∈ events, e ≠ e' := by
  rw [canReturn_iff ho hd he, (entries_of_construct h).2.2]
  simp

end Configurations

section Example

/-- The nodes of a parsed file. -/
inductive Yaml
  | undefined
  | scalar (text : Bytes)
  | sequence (l : List Yaml)
  | map (entries : List (Bytes × Yaml))

inductive YamlError
  | badSubscript
  | badConversion
  | noDirectory
  deriving DecidableEq

namespace Yaml

/-- A text key turns a sequence into a map in which it is not found. -/
def index : Yaml → Bytes → Lib.Exceptions.Outcome YamlError Yaml
  | .map entries, key => .ok ((entries.lookup key).getD .undefined)
  | .scalar _, _ => throwing .badSubscript
  | _, _ => .ok .undefined

def element : Yaml → Nat → Lib.Exceptions.Outcome YamlError Yaml
  | .sequence l, i => .ok (l.getD i .undefined)
  | .map entries, i => .ok ((entries.lookup (decimal (UInt64.ofNat i))).getD .undefined)
  | .scalar _, _ => throwing .badSubscript
  | .undefined, _ => .ok .undefined

def size : Yaml → Nat
  | .sequence l => l.length
  | .map entries => entries.length
  | _ => 0

def isDefined : Yaml → Bool
  | .undefined => false
  | _ => true

def asString : Yaml → Lib.Exceptions.Outcome YamlError Bytes
  | .scalar text => .ok text
  | _ => throwing .badConversion

def library : NodeLibrary YamlError Yaml := ⟨index, element, size, isDefined, asString⟩

def texts (l : List String) : Yaml := .sequence (l.map fun s => .scalar (bytes s))

end Yaml

/-- What kConfigExample parses to. -/
def configExample : Yaml := .map [
  (bytes "职业", Yaml.texts ["白魔", "骑士"]),
  (bytes "染料", Yaml.texts ["无瑕白染剂"]),
  (bytes "事件", Yaml.texts ["诸事皆宜"]),
  (bytes "宜", .map [(bytes "诸事皆宜", Yaml.texts ["萨纳兰今天也是艳阳高照啊", "美好的一天，适合挂机呢~"])]),
  (bytes "忌", .map [(bytes "2002", Yaml.texts ["那就90002"])])]

def twoEvents : Yaml := .map [
  (bytes "职业", Yaml.texts ["白魔", "骑士"]),
  (bytes "染料", Yaml.texts ["无瑕白染剂"]),
  (bytes "事件", Yaml.texts ["挖宝", "打本"]),
  (bytes "宜", .map []),
  (bytes "忌", .map [(bytes "打本", Yaml.texts ["必翻车"])])]

/-- A directory with one basemap for each occupation. -/
def oneBasemap (_occupation : Bytes) : Lib.Exceptions.Outcome YamlError (List Bytes) := .ok [bytes "1.png"]

theorem returns_of_isOk {α : Type} {x : Lib.Exceptions.Outcome YamlError α} (h : x.isOk = true) : Returns x := by
  cases x with
  | error f => cases h
  | ok a => exact ⟨a, rfl⟩

theorem eq_of_entries {title : Bytes} {config : Yaml} {l l' : List Bytes}
    (h : entries Yaml.library config title = .ok l') (hl : entries Yaml.library config title = .ok l) : l' = l := by
  cases hl.symm.trans h
  rfl

/-- With the example configuration the loop may never end: it only ever draws the
one event. -/
theorem example_never_returns : ∃ z, construct Yaml.library oneBasemap configExample = .ok z ∧
    z.occupations ≠ [] ∧ z.dye ≠ [] ∧ z.events ≠ [] ∧
    ¬ ∀ p, Leads z 50 [] .start p → CanReturn z 50 [] p := by
  obtain ⟨z, hz⟩ : Returns (construct Yaml.library oneBasemap configExample) :=
    returns_of_isOk (by decide)
  obtain ⟨ho, hd, he⟩ := entries_of_construct hz
  have ho : z.occupations = [bytes "白魔", bytes "骑士"] := eq_of_entries ho (by decide)
  have hd : z.dye = [bytes "无瑕白染剂"] := eq_of_entries hd (by decide)
  have he : z.events = [everything] := eq_of_entries he (by decide)
  refine ⟨z, hz, by simp [ho], by simp [hd], by simp [he], ?_⟩
  rw [canReturn_iff (by simp [ho]) (by simp [hd]) (by simp [he]), he]
  simp

theorem result_returned_iff_two : ∃ z, construct Yaml.library oneBasemap twoEvents = .ok z ∧
    ((∀ p, Leads z 50 [] .start p → CanReturn z 50 [] p) ↔
      ∃ events, entries Yaml.library twoEvents (bytes "事件") = .ok events ∧
        ∃ e ∈ events, ∃ e' ∈ events, e ≠ e') := by
  obtain ⟨z, hz⟩ : Returns (construct Yaml.library oneBasemap twoEvents) := returns_of_isOk (by decide)
  obtain ⟨ho, hd, he⟩ := entries_of_construct hz
  have ho : z.occupations = [bytes "白魔", bytes "骑士"] := eq_of_entries ho (by decide)
  have hd : z.dye = [bytes "无瑕白染剂"] := eq_of_entries hd (by decide)
  have he : z.events = [bytes "挖宝", bytes "打本"] := eq_of_entries he (by decide)
  exact ⟨z, hz, result_returned_iff hz (by simp [ho]) (by simp [hd]) (by simp [he]) 50 []⟩

end Example

end MigangBot.ZhanbuTermination
