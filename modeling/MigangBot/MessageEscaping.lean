import MigangBot.MessageUtility

namespace MigangBot.MessageEscaping

open Lib.Exceptions Lib.Rewriting Text MessageUtility

/-- The std::regex_error of a pattern that is no regular expression. -/
inductive RegexError
  | regexError
  deriving DecidableEq, Repr

/-- Every bracket that begins a character class is closed by a later one. The
other characters of the patterns used here stand for themselves. -/
def classesClosed : Bytes → Bool
  | [] => true
  | c :: pattern => (c != char '[' || pattern.contains (char ']')) && classesClosed pattern

def regex (pattern : Bytes) : Outcome RegexError Bytes :=
  if classesClosed pattern then .ok pattern else throwing .regexError

/-- The substitutions of Escape, for any way to make a regular expression. -/
def escapePasses (regex : Bytes → Outcome RegexError Bytes) (str : Bytes) (escapeComma : Bool) :
    Outcome RegexError Bytes := do
  let ret := regexReplace str (← regex (bytes "&")) (bytes "&amp;")
  let ret := regexReplace ret (← regex (bytes "[")) (bytes "&#91;")
  let ret := regexReplace ret (← regex (bytes "]")) (bytes "&#93;")
  if escapeComma then return regexReplace ret (← regex (bytes ",")) (bytes "&#44;")
  else return ret

def escape (str : Bytes) (escapeComma : Bool) : Outcome RegexError Bytes :=
  noexcept (escapePasses regex str escapeComma)

def RoundTrip (str : Bytes) (escapeComma : Bool) : Prop :=
  ∃ ret, escape str escapeComma = .ok ret ∧ unescape ret = str

theorem regex_open_bracket : regex (bytes "[") = throwing .regexError := by
  rw [regex, if_neg (by decide)]

theorem escape_terminates (str : Bytes) (escapeComma : Bool) :
    escape str escapeComma = .error .terminate := by
  have hamp : regex (bytes "&") = .ok (bytes "&") := if_pos (by decide)
  rw [escape, escapePasses, hamp, ok_bind, regex_open_bracket, throwing_bind]
  rfl

theorem no_round_trip (str : Bytes) (escapeComma : Bool) : ¬ RoundTrip str escapeComma := by
  rintro ⟨ret, h, _⟩
  rw [escape_terminates] at h
  cases h

theorem no_round_trip_plain : ¬ RoundTrip (bytes "hello") true := by
  rintro ⟨ret, h, _⟩
  have : escape (bytes "hello") true = .error .terminate := by decide
  rw [this] at h
  cases h

section Decoding

/-- One pass from left to right. The letters are those of the four entities
&#44; &#91; &#93; and &amp;. -/
def decode : Bytes → Bytes
  | 38 :: 35 :: 52 :: 52 :: 59 :: str => char ',' :: decode str
  | 38 :: 35 :: 57 :: 49 :: 59 :: str => char '[' :: decode str
  | 38 :: 35 :: 57 :: 51 :: 59 :: str => char ']' :: decode str
  | 38 :: 97 :: 109 :: 112 :: 59 :: str => char '&' :: decode str
  | c :: str => c :: decode str
  | [] => []

theorem mem_entities (r : Rule UInt8) :
    r ∈ entities ↔ r = (bytes "&#44;", bytes ",") ∨ r = (bytes "&#91;", bytes "[") ∨
      r = (bytes "&#93;", bytes "]") ∨ r = (bytes "&amp;", bytes "&") := by
  simp [entities]

theorem decode_eq_rewrite (str : Bytes) : decode str = rewrite entities str := by
  have hrule (r : Rule UInt8) (hr : r ∈ entities) (w : Bytes) :=
    marked_entities.rewrite_rule_append hr w
  fun_induction decode str with
  | case1 str ih => rw [ih]; exact (hrule (bytes "&#44;", bytes ",") (by decide) str).symm
  | case2 str ih => rw [ih]; exact (hrule (bytes "&#91;", bytes "[") (by decide) str).symm
  | case3 str ih => rw [ih]; exact (hrule (bytes "&#93;", bytes "]") (by decide) str).symm
  | case4 str ih => rw [ih]; exact (hrule (bytes "&amp;", bytes "&") (by decide) str).symm
  | case5 c str h₁ h₂ h₃ h₄ ih =>
      have hcopy : firstMatch entities (c :: str) = none := by
        rw [firstMatch_eq_none]
        rintro r hr ⟨w, hw⟩
        rcases (mem_entities r).mp hr with rfl | rfl | rfl | rfl
        · cases hw; exact h₁ w rfl rfl
        · cases hw; exact h₂ w rfl rfl
        · cases hw; exact h₃ w rfl rfl
        · cases hw; exact h₄ w rfl rfl
      rw [ih, rewrite_copy hcopy]
  | case6 => rfl

def passes (rules : List (Rule UInt8)) (str : Bytes) : Bytes :=
  rules.foldl (fun ret r => regexReplace ret r.1 r.2) str

theorem unescape_eq_passes (str : Bytes) : unescape str = passes entities str := rfl

theorem passes_snoc (rules : List (Rule UInt8)) (r : Rule UInt8) (str : Bytes) :
    passes (rules ++ [r]) str = rewrite [r] (passes rules str) :=
  List.foldl_append

theorem proper_prefix_entities {rules later : List (Rule UInt8)} {r : Rule UInt8}
    (h : entities = rules ++ r :: later) : rules ⊆ entities.take 3 := by
  have hlen : rules.length ≤ 3 := by
    have := congrArg List.length h
    rw [List.length_append, List.length_cons] at this
    change 4 = _ at this
    omega
  have htake : rules = entities.take rules.length := by rw [h, List.take_left]
  rw [htake]
  exact (List.take_subset_take_left entities hlen)

theorem passes_eq_rewrite {rules later : List (Rule UInt8)} (h : entities = rules ++ later)
    (str : Bytes) : passes rules str = rewrite rules str := by
  induction rules using List.reverseRecOn generalizing later with
  | nil =>
      rw [rewrite_unruled]
      rfl
  | append_singleton rules r ih =>
      rw [List.append_assoc, List.singleton_append] at h
      have hmarked : Marked (char '&') (rules ++ [r]) := by
        apply marked_entities.mono
        rw [h]
        simp
      rw [passes_snoc, ih h]
      apply hmarked.rewrite_rewrite
      intro r₁ h₁
      obtain ⟨hne, hmark, hdis⟩ := outputs_entities r₁ (proper_prefix_entities h h₁)
      refine ⟨hne, hmark, fun r₂ h₂ => hdis r₂ ?_⟩
      rw [List.mem_singleton.mp h₂, h]
      simp

end Decoding

def escapeLetter (escapeComma : Bool) (c : UInt8) : Bytes :=
  if c = char '&' then bytes "&amp;"
  else if c = char '[' then bytes "&#91;"
  else if c = char ']' then bytes "&#93;"
  else if c = char ',' ∧ escapeComma = true then bytes "&#44;"
  else [c]

/-- Patterns taken letter by letter would escape every letter by itself: the
order of the substitutions is the right one. -/
theorem escapePasses_literal (str : Bytes) (escapeComma : Bool) :
    escapePasses .ok str escapeComma = .ok (str.flatMap (escapeLetter escapeComma)) := by
  have hpass (c : UInt8) (o w : Bytes) :
      regexReplace w [c] o = w.flatMap fun b => if b = c then o else [b] := rewrite_letter c o w
  simp only [escapePasses, ok_bind]
  rw [show bytes "&" = [char '&'] from rfl, show bytes "[" = [char '['] from rfl,
    show bytes "]" = [char ']'] from rfl, show bytes "," = [char ','] from rfl]
  have hletter (c : UInt8) : escapeLetter escapeComma c =
      ((if c = char '&' then bytes "&amp;" else [c]).flatMap fun b =>
        (if b = char '[' then bytes "&#91;" else [b]).flatMap fun b =>
          (if b = char ']' then bytes "&#93;" else [b]).flatMap fun b =>
            if b = char ',' ∧ escapeComma = true then bytes "&#44;" else [b]) := by
    rw [escapeLetter]
    split_ifs with hamp hopen hclose hcomma
    · revert escapeComma; decide
    · rw [hopen]; revert escapeComma; decide
    · rw [hclose]; revert escapeComma; decide
    · rw [hcomma.1, hcomma.2]; decide
    · simp [hopen, hclose, hcomma]
  rw [funext hletter]
  cases escapeComma <;> simp [hpass, List.flatMap_assoc, pure, Except.pure]

theorem unescape_escapeLetter_append (escapeComma : Bool) (c : UInt8) (w : Bytes) :
    unescape (escapeLetter escapeComma c ++ w) = c :: unescape w := by
  have hrule (r : Rule UInt8) (hr : r ∈ entities) : rewrite entities (r.1 ++ w) = r.2 ++ rewrite entities w :=
    marked_entities.rewrite_rule_append hr w
  rw [unescape_eq_rewrite, unescape_eq_rewrite, escapeLetter]
  split_ifs with hamp hopen hclose hcomma
  · rw [hamp]; exact hrule (bytes "&amp;", bytes "&") (by decide)
  · rw [hopen]; exact hrule (bytes "&#91;", bytes "[") (by decide)
  · rw [hclose]; exact hrule (bytes "&#93;", bytes "]") (by decide)
  · rw [hcomma.1]; exact hrule (bytes "&#44;", bytes ",") (by decide)
  · exact marked_entities.rewrite_unmarked_append (u := [c]) (by simpa using Ne.symm hamp) w

theorem unescape_flatMap (escapeComma : Bool) (str : Bytes) :
    unescape (str.flatMap (escapeLetter escapeComma)) = str := by
  induction str with
  | nil => rfl
  | cons c str ih => rw [List.flatMap_cons, unescape_escapeLetter_append, ih]

/-- Unescape is the simultaneous decoder, a later pass finds no entity that was
not there before the earlier ones, and escaped text is decoded exactly once. -/
theorem unescape_simultaneous (str : Bytes) :
    unescape str = decode str ∧
      (∀ earlier entity later, entities = earlier ++ entity :: later →
        ∀ x y, passes earlier str = x ++ (entity.1 ++ y) →
          ∃ u v, str = u ++ (entity.1 ++ v) ∧ passes earlier u = x ∧ passes earlier v = y) ∧
      ∀ escapeComma ret, escapePasses .ok str escapeComma = .ok ret → unescape ret = str := by
  refine ⟨by rw [unescape_eq_rewrite, decode_eq_rewrite], ?_, ?_⟩
  · intro earlier entity later h x y hocc
    have hsub := proper_prefix_entities h
    have hmarked : Marked (char '&') (earlier ++ [entity]) := by
      apply marked_entities.mono
      rw [h]
      simp
    simp only [passes_eq_rewrite h] at hocc ⊢
    apply hmarked.occurrence_rewrite ?_ hocc
    intro r hr
    obtain ⟨hne, _, hdis⟩ := outputs_entities r (hsub hr)
    exact ⟨hne, hdis entity (by rw [h]; simp)⟩
  · intro escapeComma ret hret
    rw [escapePasses_literal, Except.ok.injEq] at hret
    rw [← hret, unescape_flatMap]

end MigangBot.MessageEscaping
