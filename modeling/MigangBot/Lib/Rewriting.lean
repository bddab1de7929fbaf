import Mathlib.Data.List.Basic
import Mathlib.Data.List.Infix

namespace MigangBot.Lib.Rewriting

variable {α : Type}

abbrev Rule (α : Type) := List α × List α

variable {rules : List (Rule α)}

/-- Every rule begins with the mark and has it nowhere else, and no two of
them match at one place. -/
structure Marked (mark : α) (rules : List (Rule α)) : Prop where
  head : ∀ r ∈ rules, ∃ body, r.1 = mark :: body ∧ mark ∉ body
  unambiguous : ∀ r ∈ rules, ∀ r' ∈ rules, r.1 <+: r'.1 → r = r'

theorem Marked.ne_nil {mark : α} (h : Marked mark rules) {r : Rule α} (hr : r ∈ rules) : r.1 ≠ [] := by
  obtain ⟨body, hb, _⟩ := h.head r hr
  simp [hb]

theorem Marked.mono {mark : α} {rules' : List (Rule α)} (h : Marked mark rules') (hsub : rules ⊆ rules') :
    Marked mark rules :=
  ⟨fun r hr => h.head r (hsub hr),
    fun r hr r' hr' => h.unambiguous r (hsub hr) r' (hsub hr')⟩

/-- An occurrence of a rule that begins in one word and ends in the next. -/
def Straddles (rules : List (Rule α)) (u v : List α) : Prop :=
  ∃ r ∈ rules, ∃ x e e' y, e ≠ [] ∧ e' ≠ [] ∧ r.1 = e ++ e' ∧ u = x ++ e ∧ v = e' ++ y

theorem Straddles.append_left {u v : List α} (h : Straddles rules u v) (x : List α) :
    Straddles rules (x ++ u) v := by
  obtain ⟨r, hr, x', e, e', y, he, he', hre, rfl, rfl⟩ := h
  exact ⟨r, hr, x ++ x', e, e', y, he, he', hre, by simp, rfl⟩

theorem Marked.not_straddles_mark {mark : α} (h : Marked mark rules) (u v : List α) :
    ¬ Straddles rules u (mark :: v) := by
  rintro ⟨r, hr, x, e, e', y, he, he', hre, _, hv⟩
  obtain ⟨body, hb, hm⟩ := h.head r hr
  cases e' with
  | nil => exact he' rfl
  | cons b e' =>
      cases e with
      | nil => exact he rfl
      | cons a e =>
          rw [List.cons_append, List.cons.injEq] at hv
          rw [hb, List.cons_append, List.cons.injEq] at hre
          apply hm
          rw [hre.2, hv.1]
          simp

variable [DecidableEq α]

def firstMatch (rules : List (Rule α)) (w : List α) : Option (Rule α) :=
  rules.find? fun r => r.1.isPrefixOf w

/-- One pass from left to right. The number counts the letters that the last
match still covers. -/
def rewriteFrom (rules : List (Rule α)) : Nat → List α → List α
  | _, [] => []
  | n + 1, _ :: w => rewriteFrom rules n w
  | 0, a :: w =>
      match firstMatch rules (a :: w) with
      | some r => r.2 ++ rewriteFrom rules (r.1.length - 1) w
      | none => a :: rewriteFrom rules 0 w

def rewrite (rules : List (Rule α)) (w : List α) : List α := rewriteFrom rules 0 w

@[simp] theorem rewrite_nil : rewrite rules [] = [] := rfl

theorem rewriteFrom_eq_rewrite_drop (n : Nat) (w : List α) :
    rewriteFrom rules n w = rewrite rules (w.drop n) := by
  induction w generalizing n with
  | nil => cases n <;> simp [rewriteFrom]
  | cons a w ih =>
      cases n with
      | zero => rfl
      | succ n => exact ih n

theorem rewrite_unruled (w : List α) : rewrite [] w = w := by
  induction w with
  | nil => rfl
  | cons a w ih => exact congrArg (a :: ·) ih

theorem firstMatch_eq_some {w : List α} {r : Rule α} (h : firstMatch rules w = some r) :
    r ∈ rules ∧ r.1 <+: w := by
  have hp := List.find?_some h
  exact ⟨List.mem_of_find?_eq_some h, List.isPrefixOf_iff_prefix.mp hp⟩

theorem firstMatch_eq_none {w : List α} :
    firstMatch rules w = none ↔ ∀ r ∈ rules, ¬ r.1 <+: w := by
  simp [firstMatch]

theorem rewrite_copy {a : α} {w : List α} (h : firstMatch rules (a :: w) = none) :
    rewrite rules (a :: w) = a :: rewrite rules w := by
  simp [rewrite, rewriteFrom, h]

theorem rewrite_match {r : Rule α} {w : List α} (hr : r.1 ≠ []) (h : firstMatch rules (r.1 ++ w) = some r) :
    rewrite rules (r.1 ++ w) = r.2 ++ rewrite rules w := by
  rcases r with ⟨p, o⟩
  cases p with
  | nil => exact absurd rfl hr
  | cons a p =>
      rw [List.cons_append] at h ⊢
      rw [rewrite, rewriteFrom, h]
      simp [rewriteFrom_eq_rewrite_drop]

namespace Marked

variable {mark : α}

theorem firstMatch_of_prefix (h : Marked mark rules) {r : Rule α} {w : List α} (hr : r ∈ rules)
    (hw : r.1 <+: w) : firstMatch rules w = some r := by
  cases hf : firstMatch rules w with
  | none => exact absurd hw (firstMatch_eq_none.mp hf r hr)
  | some r' =>
      obtain ⟨hr', hw'⟩ := firstMatch_eq_some hf
      rcases List.prefix_or_prefix_of_prefix hw hw' with hp | hp
      · rw [h.unambiguous r hr r' hr' hp]
      · rw [h.unambiguous r' hr' r hr hp]

theorem rewrite_rule_append (h : Marked mark rules) {r : Rule α} (hr : r ∈ rules) (w : List α) :
    rewrite rules (r.1 ++ w) = r.2 ++ rewrite rules w :=
  rewrite_match (h.ne_nil hr) (h.firstMatch_of_prefix hr (List.prefix_append _ _))

theorem firstMatch_of_ne (h : Marked mark rules) {a : α} (ha : a ≠ mark) (w : List α) :
    firstMatch rules (a :: w) = none := by
  rw [firstMatch_eq_none]
  intro r hr hp
  obtain ⟨body, hb, _⟩ := h.head r hr
  rw [hb, List.cons_prefix_cons] at hp
  exact ha hp.1.symm

theorem rewrite_unmarked_append (h : Marked mark rules) {u : List α} (hu : mark ∉ u) (w : List α) :
    rewrite rules (u ++ w) = u ++ rewrite rules w := by
  induction u with
  | nil => rfl
  | cons a u ih =>
      simp only [List.mem_cons, not_or] at hu
      rw [List.cons_append, rewrite_copy (h.firstMatch_of_ne (Ne.symm hu.1) _), ih hu.2, List.cons_append]

theorem rewrite_unmarked (h : Marked mark rules) {u : List α} (hu : mark ∉ u) : rewrite rules u = u := by
  simpa using h.rewrite_unmarked_append hu []

end Marked

/-- A pass over two words may be made on each of them, unless a match lies
across the place where they meet. -/
theorem Marked.rewrite_append {mark : α} (h : Marked mark rules) {u v : List α}
    (hs : ¬ Straddles rules u v) : rewrite rules (u ++ v) = rewrite rules u ++ rewrite rules v := by
  induction hn : u.length using Nat.strong_induction_on generalizing u with
  | _ n ih =>
      cases u with
      | nil => rfl
      | cons a u =>
          cases hf : firstMatch rules (a :: u ++ v) with
          | none =>
              have hf' : firstMatch rules (a :: u) = none := by
                rw [firstMatch_eq_none] at hf ⊢
                exact fun r hr hp => hf r hr (hp.trans (List.prefix_append _ _))
              have := ih u.length (by simp [← hn]) (fun hs' => hs (hs'.append_left [a])) rfl
              rw [List.cons_append] at hf ⊢
              rw [rewrite_copy hf, rewrite_copy hf', this, List.cons_append]
          | some r =>
              obtain ⟨hr, hp⟩ := firstMatch_eq_some hf
              rcases List.prefix_or_prefix_of_prefix hp (List.prefix_append (a :: u) v) with hru | ⟨e', he'⟩
              · obtain ⟨u', hu'⟩ := hru
                rw [← hu'] at hs hn ⊢
                have hlt : u'.length < n := by
                  have := List.length_pos_iff.mpr (h.ne_nil hr)
                  rw [← hn, List.length_append]
                  omega
                rw [List.append_assoc, h.rewrite_rule_append hr, h.rewrite_rule_append hr,
                  ih _ hlt (fun hs' => hs (hs'.append_left r.1)) rfl, List.append_assoc]
              · cases e' with
                | nil =>
                    rw [List.append_nil] at he'
                    have hu : a :: u = r.1 ++ [] := by rw [he', List.append_nil]
                    rw [he', h.rewrite_rule_append hr]
                    have := h.rewrite_rule_append hr []
                    rw [List.append_nil] at this
                    rw [this, rewrite_nil, List.append_nil]
                | cons b e' =>
                    exfalso
                    apply hs
                    rw [← he', List.prefix_append_right_inj] at hp
                    obtain ⟨y, hy⟩ := hp
                    exact ⟨r, hr, [], a :: u, b :: e', y, by simp, by simp, he'.symm, rfl, hy.symm⟩

theorem Marked.rewrite_middle {mark : α} (h : Marked mark rules) {r : Rule α} (hr : r ∈ rules)
    (u v : List α) : rewrite rules (u ++ (r.1 ++ v)) = rewrite rules u ++ (r.2 ++ rewrite rules v) := by
  obtain ⟨body, hb, _⟩ := h.head r hr
  have hs : ¬ Straddles rules u (r.1 ++ v) := by
    rw [hb]
    exact h.not_straddles_mark u _
  rw [h.rewrite_append hs, h.rewrite_rule_append hr]

namespace Marked

theorem rewrite_cases (h : Marked mark rules) (a : α) (w : List α) :
    (∃ r ∈ rules, ∃ v, a :: w = r.1 ++ v ∧ rewrite rules (a :: w) = r.2 ++ rewrite rules v) ∨
      (firstMatch rules (a :: w) = none ∧ rewrite rules (a :: w) = a :: rewrite rules w) := by
  cases hf : firstMatch rules (a :: w) with
  | none => exact .inr ⟨rfl, rewrite_copy hf⟩
  | some r =>
      obtain ⟨hr, v, hv⟩ := firstMatch_eq_some hf
      refine .inl ⟨r, hr, v, hv.symm, ?_⟩
      rw [← hv, h.rewrite_rule_append hr]

theorem prefix_of_prefix_rewrite (h : Marked mark rules) {u w : List α} (hu : mark ∉ u)
    (hout : ∀ r ∈ rules, r.2 ≠ [] ∧ List.Disjoint r.2 u) (hp : u <+: rewrite rules w) : u <+: w := by
  induction u generalizing w with
  | nil => exact List.nil_prefix
  | cons b u ih =>
      cases w with
      | nil => simp at hp
      | cons a w =>
          rcases h.rewrite_cases a w with ⟨r, hr, v, _, he⟩ | ⟨_, he⟩
          · obtain ⟨hne, hdis⟩ := hout r hr
            rw [he] at hp
            cases ho : r.2 with
            | nil => exact absurd ho hne
            | cons c o =>
                rw [ho, List.cons_append, List.cons_prefix_cons] at hp
                rw [ho, hp.1] at hdis
                exact absurd (List.mem_cons_self) (fun hc => hdis (List.mem_cons_self) hc)
          · rw [he, List.cons_prefix_cons] at hp
            rw [List.mem_cons, not_or] at hu
            rw [List.cons_prefix_cons]
            refine ⟨hp.1, ih hu.2 ?_ hp.2⟩
            intro r hr
            exact ⟨(hout r hr).1, (List.disjoint_cons_right.mp (hout r hr).2).2⟩

theorem rewrite_other_append {rules' : List (Rule α)} (h : Marked mark rules') (hsub : rules ⊆ rules')
    {r : Rule α} (hr : r ∈ rules') (hn : r ∉ rules) (w : List α) :
    rewrite rules (r.1 ++ w) = r.1 ++ rewrite rules w := by
  obtain ⟨body, hb, hm⟩ := h.head r hr
  have hnone : firstMatch rules (mark :: (body ++ w)) = none := by
    rw [firstMatch_eq_none]
    intro r' hr' hp
    have hself : firstMatch rules' (mark :: (body ++ w)) = some r :=
      h.firstMatch_of_prefix hr (by simp [hb])
    rw [h.firstMatch_of_prefix (hsub hr') hp, Option.some.injEq] at hself
    exact hn (hself ▸ hr')
  rw [hb, List.cons_append, rewrite_copy hnone, (h.mono hsub).rewrite_unmarked_append hm, List.cons_append]

/-- A pass after another one is one pass with the rules of both, when the
outputs of the first can take part in no match of the second. -/
theorem rewrite_rewrite {rules' : List (Rule α)} (h : Marked mark (rules ++ rules'))
    (hout : ∀ r ∈ rules, r.2 ≠ [] ∧ mark ∉ r.2 ∧ ∀ r' ∈ rules', List.Disjoint r.2 r'.1) (w : List α) :
    rewrite rules' (rewrite rules w) = rewrite (rules ++ rules') w := by
  have h₁ : Marked mark rules := h.mono (List.subset_append_left _ _)
  have h₂ : Marked mark rules' := h.mono (List.subset_append_right _ _)
  induction hn : w.length using Nat.strong_induction_on generalizing w with
  | _ n ih =>
      cases w with
      | nil => rfl
      | cons a w =>
          rcases h.rewrite_cases a w with ⟨r, hr, v, hv, he⟩ | ⟨hf, he⟩
          · have hlt : v.length < n := by
              have := List.length_pos_iff.mpr (h.ne_nil hr)
              rw [← hn, hv, List.length_append]
              omega
            rw [he, hv, ← ih _ hlt v rfl]
            by_cases hr₁ : r ∈ rules
            · rw [h₁.rewrite_rule_append hr₁, h₂.rewrite_unmarked_append (hout r hr₁).2.1]
            · have hr₂ : r ∈ rules' := (List.mem_append.mp hr).resolve_left hr₁
              rw [h.rewrite_other_append (List.subset_append_left _ _) hr hr₁, h₂.rewrite_rule_append hr₂]
          · rw [firstMatch_eq_none] at hf
            have hf₁ : firstMatch rules (a :: w) = none :=
              firstMatch_eq_none.mpr fun r hr => hf r (List.mem_append_left _ hr)
            have hf₂ : firstMatch rules' (a :: rewrite rules w) = none := by
              rw [firstMatch_eq_none]
              intro r hr hp
              obtain ⟨body, hb, hm⟩ := h₂.head r hr
              rw [hb, List.cons_prefix_cons] at hp
              apply hf r (List.mem_append_right _ hr)
              rw [hb, List.cons_prefix_cons]
              refine ⟨hp.1, h₁.prefix_of_prefix_rewrite hm ?_ hp.2⟩
              intro r' hr'
              refine ⟨(hout r' hr').1, ?_⟩
              have hdis := (hout r' hr').2.2 r hr
              rw [hb, List.disjoint_cons_right] at hdis
              exact hdis.2
            have hlt : w.length < n := by simp [← hn]
            rw [rewrite_copy hf₁, rewrite_copy hf₂, ih _ hlt w rfl, he]

/-- After a pass, what a later rule matches was there before it, between the
words that the pass turned into the surroundings. -/
theorem occurrence_rewrite {mark : α} {r : Rule α} (h : Marked mark (rules ++ [r]))
    (hout : ∀ r' ∈ rules, r'.2 ≠ [] ∧ List.Disjoint r'.2 r.1) {w x y : List α}
    (hw : rewrite rules w = x ++ (r.1 ++ y)) :
    ∃ u v, w = u ++ (r.1 ++ v) ∧ rewrite rules u = x ∧ rewrite rules v = y := by
  have hrules : Marked mark rules := h.mono (List.subset_append_left _ _)
  obtain ⟨body, hb, hm⟩ := h.head r (by simp)
  induction hn : w.length using Nat.strong_induction_on generalizing w x with
  | _ n ih =>
      cases w with
      | nil =>
          rw [rewrite_nil, hb] at hw
          simp at hw
      | cons a w =>
          rcases hrules.rewrite_cases a w with ⟨r', hr', v, hv, he⟩ | ⟨hf, he⟩
          · obtain ⟨hne, hdis⟩ := hout r' hr'
            have hlt : v.length < n := by
              have := List.length_pos_iff.mpr (hrules.ne_nil hr')
              rw [← hn, hv, List.length_append]
              omega
            rw [hw] at he
            rcases List.append_eq_append_iff.mp he with ⟨x', hx, hx'⟩ | ⟨x', hx, hx'⟩
            · -- the output would reach into the match
              cases x' with
              | nil =>
                  rw [List.append_nil] at hx
                  rw [List.nil_append] at hx'
                  obtain ⟨u', v', rfl, hu', hv'⟩ := ih _ hlt (x := []) (by simpa using hx'.symm) rfl
                  refine ⟨r'.1 ++ u', v', by rw [hv, List.append_assoc], ?_, hv'⟩
                  rw [hrules.rewrite_rule_append hr', hu', ← hx, List.append_nil]
              | cons b x' =>
                  rw [hb, List.cons_append, List.cons_append, List.cons.injEq] at hx'
                  rw [hb] at hdis
                  exact absurd List.mem_cons_self (fun hc => hdis (by rw [hx, ← hx'.1]; simp) hc)
            · obtain ⟨u', v', hw', hu', hv'⟩ := ih _ hlt hx' rfl
              refine ⟨r'.1 ++ u', v', by rw [hv, hw', List.append_assoc], ?_, hv'⟩
              rw [hrules.rewrite_rule_append hr', hu', hx]
          · have hlt : w.length < n := by simp [← hn]
            rw [hw] at he
            cases x with
            | nil =>
                rw [hb, List.nil_append, List.cons_append, List.cons.injEq] at he
                have hp : body <+: w := by
                  apply hrules.prefix_of_prefix_rewrite hm
                  · intro r' hr'
                    have hdis := (hout r' hr').2
                    rw [hb, List.disjoint_cons_right] at hdis
                    exact ⟨(hout r' hr').1, hdis.2⟩
                  · exact ⟨y, he.2⟩
                obtain ⟨v, rfl⟩ := hp
                rw [hrules.rewrite_unmarked_append hm, List.append_cancel_left_eq] at he
                exact ⟨[], v, by rw [hb, ← he.1]; rfl, rfl, he.2.symm⟩
            | cons c x =>
                rw [List.cons_append, List.cons.injEq] at he
                obtain ⟨u', v', rfl, hu', hv'⟩ := ih _ hlt he.2.symm rfl
                refine ⟨a :: u', v', rfl, ?_, hv'⟩
                have hf' : firstMatch rules (a :: u') = none := by
                  rw [firstMatch_eq_none] at hf ⊢
                  exact fun r' hr' hp => hf r' hr' (hp.trans (List.prefix_append (a :: u') _))
                rw [rewrite_copy hf', hu', he.1]

end Marked

theorem rewrite_letter (a : α) (o w : List α) :
    rewrite [([a], o)] w = w.flatMap fun b => if b = a then o else [b] := by
  induction w with
  | nil => rfl
  | cons b w ih =>
      by_cases hb : b = a
      · subst hb
        have hm : Marked b [([b], o)] := ⟨by simp, by simp⟩
        have := hm.rewrite_rule_append (r := ([b], o)) (by simp) w
        rw [List.flatMap_cons, if_pos rfl, ← ih]
        exact this
      · have hm : Marked a [([a], o)] := ⟨by simp, by simp⟩
        rw [List.flatMap_cons, if_neg hb, ← ih]
        exact hm.rewrite_unmarked_append (u := [b]) (by simp [Ne.symm hb]) w

end MigangBot.Lib.Rewriting
