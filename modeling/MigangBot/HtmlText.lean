import MigangBot.HtmlTree

namespace MigangBot.HtmlText

open Text Relation Lib.Forests HtmlTree

variable {mem : Memory} {n : NodePtr} {kids rest : Forest NodePtr}

def contentOf (mem : Memory) (p : NodePtr) : Bytes :=
  match (mem p).type with
  | .text content => content.1
  | _ => []

/-- The contents of the text nodes among these, one after another. -/
def texts (mem : Memory) (nodes : List NodePtr) : Bytes := nodes.flatMap (contentOf mem)

theorem addContent_eq (mem : Memory) (p : NodePtr) (ret : Bytes) :
    addContent mem p ret = ret ++ contentOf mem p := by
  rw [addContent, contentOf]
  cases (mem p).type with
  | text content => rfl
  | element => exact (List.append_nil ret).symm
  | other => exact (List.append_nil ret).symm

/-- The recursion goes through the later siblings of its first node as well. -/
theorem textNodeDfs_eq {cur : Option NodePtr} {f : Forest NodePtr} (h : Represents (links mem) cur f)
    (ret : Bytes) {turns : Nat} (hturns : f.nodes.length < turns) :
    textNodeDfs mem turns cur ret = some (ret ++ texts mem f.nodes) := by
  induction h generalizing ret turns with
  | nil =>
      obtain ⟨turns, rfl⟩ := Nat.exists_eq_add_one_of_ne_zero (Nat.ne_zero_of_lt hturns)
      rw [textNodeDfs]
      simp [Forest.nodes, texts]
  | @cons p kids rest _ _ ihk ihr =>
      obtain ⟨turns, rfl⟩ := Nat.exists_eq_add_one_of_ne_zero (Nat.ne_zero_of_lt hturns)
      simp only [Forest.nodes, List.length_cons, List.length_append] at hturns
      have hbelow : textNodeDfs mem turns (mem p).children (ret ++ contentOf mem p) =
          some (ret ++ contentOf mem p ++ texts mem kids.nodes) := ihk _ (by omega)
      rw [textNodeDfs, addContent_eq, hbelow]
      refine (ihr _ (by omega)).trans ?_
      simp [texts, Forest.nodes]

theorem getAllText_eq (hkids : Represents (links mem) ((links mem).child n) kids)
    (hrest : Represents (links mem) ((links mem).next n) rest) {turns : Nat}
    (hturns : (Forest.cons n kids rest).nodes.length < turns) :
    getAllText mem turns (some n) = some (texts mem (n :: kids.nodes) ++ texts mem rest.nodes) := by
  rw [getAllText, textNodeDfs_eq (.cons hkids hrest) [] hturns]
  simp [texts, Forest.nodes]

theorem texts_eq_nil {nodes : List NodePtr} : texts mem nodes = [] ↔
    ∀ m ∈ nodes, ∀ content, (mem m).type = .text content → content.1 = [] := by
  rw [texts, List.flatMap_eq_nil_iff]
  refine forall₂_congr fun m _ => ?_
  rw [contentOf]
  cases (mem m).type <;> simp

/-- The text of a node is what its subtree has in it, in the order of the document. -/
def OwnText {mem : Memory} (doc : Document mem) (n : NodePtr) : Prop :=
  ∃ kids, Represents (links mem) (mem n).children kids ∧
    ∀ turns, doc.forest.nodes.length < turns →
      getAllText mem turns (some n) = some (texts mem (n :: kids.nodes))

/-- Exactly for a node with no text in a later sibling or anywhere below one. -/
theorem ownText_iff (mem : Memory) (doc : Document mem) (n : NodePtr) (hn : n ∈ doc.forest.nodes) :
    OwnText doc n ↔ ∀ s m, After (links mem) n s → ReflTransGen (IsChild (links mem)) s m →
      ∀ content, (mem m).type = .text content → content.1 = [] := by
  obtain ⟨kids, rest, hkids, hrest, hsub⟩ := exists_at doc.represents hn
  have hrun : ∀ turns, doc.forest.nodes.length < turns →
      getAllText mem turns (some n) = some (texts mem (n :: kids.nodes) ++ texts mem rest.nodes) :=
    fun turns hturns => getAllText_eq hkids hrest (hsub.length_le.trans_lt hturns)
  have hleft : OwnText doc n ↔ texts mem rest.nodes = [] := by
    constructor
    · rintro ⟨kids', hkids', hown⟩
      cases hkids.unique hkids'
      have hboth := (hown _ (Nat.lt_succ_self _)).symm.trans (hrun _ (Nat.lt_succ_self _))
      exact List.append_right_eq_self.mp (Option.some.inj hboth).symm
    · intro hnone
      refine ⟨kids, hkids, ?_⟩
      intro turns hturns
      rw [hrun turns hturns, hnone, List.append_nil]
  rw [hleft, texts_eq_nil]
  constructor
  · intro h s m hs hm
    exact h m ((mem_rest hrest).mpr ⟨s, hs, hm⟩)
  · intro h m hm
    obtain ⟨s, hs, hm⟩ := (mem_rest hrest).mp hm
    exact h s m hs hm

theorem ownText_last : OwnText pageDocument 3 ↔
    ∀ s m, After (links page) 3 s → ReflTransGen (IsChild (links page)) s m →
      ∀ content, (page m).type = .text content → content.1 = [] :=
  ownText_iff page pageDocument 3 (by decide)

/-- The first paragraph gives the text of the second one too. -/
theorem not_ownText_first : 1 ∈ pageDocument.forest.nodes ∧ getAllText page 6 (some 1) = some (bytes "ab") ∧
    ¬ OwnText pageDocument 1 := by
  refine ⟨by decide, by decide, ?_⟩
  rintro ⟨kids, hkids, hrun⟩
  have hown : Represents (links page) (page 1).children (.cons 2 .nil .nil) := .cons .nil .nil
  cases hown.unique hkids
  exact absurd (hrun 6 (by decide)) (by decide)

end MigangBot.HtmlText
