import MigangBot.HtmlTree
import Mathlib.Data.List.Forall2

namespace MigangBot.HtmlSearch

open Text RedisCommand Lib.Forests HtmlTree

variable {lib : Libxml2} {mem : Memory} {attr value : CString} {n : NodePtr}

section Loops

abbrev Stacked (mem : Memory) : List (Option NodePtr) → List (Forest NodePtr) → Prop :=
  List.Forall₂ (Represents (links mem))

/-- One run of the inner loop goes through the siblings, and hands what is below
them over to the stack: together they are what there was before. -/
theorem findLoop_step (lib : Libxml2) (attr value : CString) {cur : Option NodePtr} {f : Forest NodePtr}
    (h : Represents (links mem) cur f) {stk : List (Option NodePtr)} {fs : List (Forest NodePtr)}
    (hstk : Stacked mem stk fs) :
    ∃ stk' fs', ∃ found : List NodePtr, Stacked mem stk' fs' ∧ load fs' + 1 = load (f :: fs) ∧
      (found ++ (allNodes fs').filter (isFound lib mem attr value)).Perm
        ((allNodes (f :: fs)).filter (isFound lib mem attr value)) ∧
      ∀ ret turns, f.nodes.length < turns →
        findLoop lib mem attr value true turns cur stk ret = some (stk', ret ++ found.map some) := by
  induction h generalizing stk fs with
  | nil =>
      refine ⟨stk, fs, [], hstk, by simp [Forest.nodes, Nat.add_comm], .refl _, ?_⟩
      intro ret turns hturns
      obtain ⟨turns, rfl⟩ := Nat.exists_eq_add_one_of_ne_zero (Nat.ne_zero_of_lt hturns)
      rw [findLoop, List.map_nil, List.append_nil]
  | @cons p kids rest hkids hrest _ ih =>
      have hpushed : Stacked mem ((links mem).child p :: stk) (kids :: fs) := .cons hkids hstk
      have hlength : (Forest.cons p kids rest).nodes.length = kids.nodes.length + rest.nodes.length + 1 := by
        simp [Forest.nodes]
      obtain ⟨stk', fs', found, hstk', hload, hperm, hrun⟩ := ih hpushed
      refine ⟨stk', fs', (if isFound lib mem attr value p then [p] else []) ++ found, hstk', ?_, ?_, ?_⟩
      · rw [hload]
        simp only [load_cons, hlength]
        omega
      · have hsame := (allNodes_at p kids rest fs).filter (isFound lib mem attr value)
        rw [List.filter_cons] at hsame
        refine List.Perm.trans ?_ hsame.symm
        rw [List.append_assoc]
        split
        · exact hperm.cons p
        · exact hperm
      · intro ret turns hturns
        obtain ⟨turns, rfl⟩ := Nat.exists_eq_add_one_of_ne_zero (Nat.ne_zero_of_lt hturns)
        rw [findLoop]
        refine (hrun _ turns (by omega)).trans ?_
        split <;> simp

/-- Every turn of the outer loop leaves one pointer or node less to do. -/
theorem stackLoop_finds (lib : Libxml2) (attr value : CString) {stk : List (Option NodePtr)}
    {fs : List (Forest NodePtr)} (hstk : Stacked mem stk fs) :
    ∃ found : List NodePtr, found.Perm ((allNodes fs).filter (isFound lib mem attr value)) ∧
      ∀ ret turns, load fs < turns →
        stackLoop lib mem attr value true turns stk ret = some (ret ++ found.map some) := by
  induction hl : load fs generalizing stk fs with
  | zero =>
      cases hstk with
      | nil =>
          refine ⟨[], .refl _, ?_⟩
          intro ret turns hturns
          obtain ⟨turns, rfl⟩ := Nat.exists_eq_add_one_of_ne_zero (Nat.ne_zero_of_lt hturns)
          rw [stackLoop, List.map_nil, List.append_nil]
      | cons _ _ =>
          rw [load_cons] at hl
          omega
  | succ l ih =>
      cases hstk with
      | nil => cases hl
      | @cons p f stk fs hp hstk =>
          obtain ⟨stk', fs', found, hstk', hload, hperm, hrun⟩ := findLoop_step lib attr value hp hstk
          obtain ⟨found', hperm', hrun'⟩ := ih hstk' (by omega)
          refine ⟨found ++ found', (hperm'.append_left found).trans hperm, ?_⟩
          intro ret turns hturns
          obtain ⟨turns, rfl⟩ := Nat.exists_eq_add_one_of_ne_zero (Nat.ne_zero_of_lt hturns)
          rw [load_cons] at hl
          rw [stackLoop, hrun ret turns (by omega)]
          refine (hrun' _ turns (by omega)).trans ?_
          rw [List.map_append, List.append_assoc]

theorem find_below (lib : Libxml2) (attr value : Bytes) {kids : Forest NodePtr}
    (hk : Represents (links mem) ((links mem).child n) kids) :
    ∃ found : List NodePtr, found.Perm (kids.nodes.filter (isFound lib mem (cStr attr) (cStr value))) ∧
      ∀ turns, kids.nodes.length + 1 < turns →
        findChildrenByAttribute lib mem turns (some n) attr value true = some (found.map some) := by
  cases hchild : (mem n).children with
  | none =>
      rw [show (links mem).child n = none from hchild] at hk
      cases hk
      exact ⟨[], .refl _, fun turns _ => by simp [findChildrenByAttribute, hchild]⟩
  | some first =>
      rw [show (links mem).child n = some first from hchild] at hk
      have hstk : Stacked mem [some first] [kids] := .cons hk .nil
      obtain ⟨found, hperm, hrun⟩ := stackLoop_finds lib (cStr attr) (cStr value) hstk
      refine ⟨found, by simpa [allNodes] using hperm, ?_⟩
      intro turns hturns
      have hloop := hrun [] turns (by simpa using hturns)
      simpa [findChildrenByAttribute, hchild] using hloop

end Loops

section Values

theorem tolower_ne_zero {c : UInt8} (h : c ≠ 0) : tolower c ≠ 0 := by
  rw [tolower]
  split
  next hc =>
    have hnat := (UInt8.le_iff_toNat_le.mp hc.2)
    intro hzero
    rw [← UInt8.toNat_inj, UInt8.toNat_add] at hzero
    simp only [UInt8.toNat_ofNat] at hnat hzero
    omega
  next => exact h

/-- For texts without a NUL in them no difference means equal up to case. -/
theorem strcasecmp_eq_zero {s t : Bytes} (hs : (0 : UInt8) ∉ s) (ht : (0 : UInt8) ∉ t) :
    strcasecmp s t = 0 ↔ lower s = lower t := by
  have hpositive : ∀ {c : UInt8}, c ≠ 0 → (tolower c).toNat ≠ 0 := by
    intro c hc hzero
    exact tolower_ne_zero hc (UInt8.toNat_inj.mp hzero)
  induction s generalizing t with
  | nil =>
      cases t with
      | nil => exact ⟨fun _ => rfl, fun _ => rfl⟩
      | cons d t =>
          have hd := hpositive (fun h : d = 0 => ht (h ▸ List.mem_cons_self))
          simp only [strcasecmp, lower_nil, lower_cons, reduceCtorEq, iff_false]
          omega
  | cons c s ih =>
      cases t with
      | nil =>
          have hc := hpositive (fun h : c = 0 => hs (h ▸ List.mem_cons_self))
          simp only [strcasecmp, lower_nil, lower_cons, reduceCtorEq, iff_false]
          omega
      | cons d t =>
          rw [strcasecmp, lower_cons, lower_cons, List.cons.injEq]
          split
          next heq =>
            have htails := ih (fun h => hs (List.mem_cons_of_mem c h)) (fun h => ht (List.mem_cons_of_mem d h))
            exact htails.trans (and_iff_right heq).symm
          next hne =>
            have hdiff : (tolower c).toNat ≠ (tolower d).toNat := fun h => hne (UInt8.toNat_inj.mp h)
            simp only [hne, false_and, iff_false]
            omega

/-- An element whose attribute is the wanted text up to the case of letters. -/
def HasValue (lib : Libxml2) (mem : Memory) (attr : CString) (wanted : Bytes) (e : NodePtr) : Prop :=
  (mem e).type = .element ∧ ∃ v, lib.xmlGetProp e attr = some v ∧ lower v.1 = lower wanted

theorem isFound_iff {e : NodePtr} : isFound lib mem attr value e = true ↔ HasValue lib mem attr value.1 e := by
  rw [isFound, HasValue]
  cases (mem e).type with
  | element =>
      rw [lib.hasProp_iff, Bool.and_eq_true]
      cases lib.xmlGetProp e attr with
      | none => simp
      | some v => simp [strcasecmp_eq_zero v.2 value.2]
  | text content => simp
  | other => simp

end Values

/-- The search ends, and finds what is below the node and has the wanted value,
each once. -/
def FindsExactly (lib : Libxml2) {mem : Memory} (doc : Document mem) (n : NodePtr) (attr value wanted : Bytes) :
    Prop :=
  ∃ ret : List HtmlNode, ret.Nodup ∧
    (∀ d, d ∈ ret ↔ ∃ e, d = some e ∧ Below (links mem) n e ∧ HasValue lib mem (cStr attr) wanted e) ∧
    ∀ turns, doc.forest.nodes.length + 1 < turns →
      findChildrenByAttribute lib mem turns (some n) attr value true = some ret

theorem found_exactly (lib : Libxml2) (mem : Memory) (doc : Document mem) (n : NodePtr)
    (hn : n ∈ doc.forest.nodes) (attr value : Bytes) :
    FindsExactly lib doc n attr value (cString value) := by
  obtain ⟨kids, rest, hkids, _, hsub⟩ := exists_at doc.represents hn
  obtain ⟨found, hperm, hrun⟩ := find_below lib attr value hkids
  have hnodup := doc.nodup.sublist hsub
  rw [Forest.nodes, List.nodup_cons, List.nodup_append] at hnodup
  refine ⟨found.map some, ?_, ?_, ?_⟩
  · rw [List.nodup_map_iff fun _ _ h => Option.some.inj h, hperm.nodup_iff]
    exact hnodup.2.1.filter _
  · intro d
    simp only [List.mem_map, hperm.mem_iff, List.mem_filter, mem_kids hkids, isFound_iff]
    constructor
    · rintro ⟨e, ⟨hbelow, hvalue⟩, rfl⟩
      exact ⟨e, rfl, hbelow, hvalue⟩
    · rintro ⟨e, rfl, hbelow, hvalue⟩
      exact ⟨e, ⟨hbelow, hvalue⟩, rfl⟩
  · intro turns hturns
    have hlength := hsub.length_le
    simp only [Forest.nodes, List.length_cons, List.length_append] at hlength
    exact hrun turns (by omega)

/-- The first paragraph of the page has a class. -/
def classOfFirst (node : NodePtr) (name : CString) : Option CString :=
  if node = 1 ∧ name.1 = bytes "class" then some ⟨bytes "surl-text", by decide⟩ else none

def surlText : Libxml2 where
  xmlHasProp node name := (classOfFirst node name).isSome
  xmlGetProp := classOfFirst
  hasProp_iff _ _ := rfl

theorem found_surl_text : FindsExactly surlText pageDocument 0 (bytes "class") (bytes "Surl-Text")
    (cString (bytes "Surl-Text")) :=
  found_exactly surlText page pageDocument 0 (by decide) (bytes "class") (bytes "Surl-Text")

/-- What follows a NUL in the value is not compared. -/
theorem not_finds_exactly :
    ¬ ∀ (lib : Libxml2) (mem : Memory) (doc : Document mem), ∀ n ∈ doc.forest.nodes, ∀ attr value,
      FindsExactly lib doc n attr value value := by
  intro hall
  obtain ⟨ret, _, hmem, hrun⟩ :=
    hall surlText page pageDocument 0 (by decide) (bytes "class") (bytes "surl-text" ++ [0])
  have hreal : findChildrenByAttribute surlText page 7 (some 0) (bytes "class") (bytes "surl-text" ++ [0]) true =
      some [some 1] := by decide
  have hret := (hrun 7 (by decide)).symm.trans hreal
  cases hret
  obtain ⟨e, he, _, _, v, hv, hlower⟩ := (hmem (some 1)).mp List.mem_cons_self
  cases he
  cases hv
  exact absurd hlower (by decide)

end MigangBot.HtmlSearch
