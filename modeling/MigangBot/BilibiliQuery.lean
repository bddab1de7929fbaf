import MigangBot.BilibiliParser

namespace MigangBot.BilibiliQuery

open Text Digits BilibiliParser

section Code

/-- `(av|AV)\d+` -/
def aidPattern (s : Bytes) : Option Bytes := (after (bytes "av") digitsAt s).or (after (bytes "AV") digitsAt s)

/-- `[a-zA-Z0-9]` -/
def isalnum (c : UInt8) : Bool := (97 ≤ c ∧ c ≤ 122) ∨ (65 ≤ c ∧ c ≤ 90) ∨ (48 ≤ c ∧ c ≤ 57)

/-- `([a-zA-Z0-9])+` -/
def alnumsAt (s : Bytes) : Option Bytes := if s.takeWhile isalnum = [] then none else some (s.takeWhile isalnum)

/-- `(BV|bv)([a-zA-Z0-9])+` -/
def bvidPattern (s : Bytes) : Option Bytes := (after (bytes "BV") alnumsAt s).or (after (bytes "bv") alnumsAt s)

def byAid (aid : Bytes) : Bytes := bytes "https://api.bilibili.com/x/web-interface/view?aid=" ++ aid

def byBvid (bvid : Bytes) : Bytes := bytes "https://api.bilibili.com/x/web-interface/view?bvid=" ++ bvid

/-- The address stays empty where neither pattern is found. -/
def apiUrl (url : Bytes) : Bytes :=
  match search aidPattern url with
  | some aid => byAid (aid.drop 2)
  | none =>
      match search bvidPattern url with
      | some bvid => byBvid bvid
      | none => []

/-- What GetBilibiliVideoDetail asks the network for. -/
def queries (s : Redis) (now : Nat) (url : Bytes) : List Bytes :=
  match getFromCache s now url with
  | some _ => []
  | none => [apiUrl url]

/-- Where nothing is asked for, the answer is what the cache holds. -/
theorem cached_of_queries {s : Redis} {r : Request} {url : Bytes} (h : queries s r.start url = []) :
    ∃ details, getFromCache s r.start url = some details ∧
      getBilibiliVideoDetail s r url = .ok (addInCacheNotRepeat s r.finish url r.groupId, .cached details) := by
  rw [queries] at h
  cases hcache : getFromCache s r.start url with
  | none =>
      rw [hcache] at h
      cases h
  | some details =>
      refine ⟨details, rfl, ?_⟩
      rw [getBilibiliVideoDetail, throughCache, hcache]
      rfl

end Code

section Patterns

variable {p : UInt8 → Bool} {m : Bytes → Option Bytes} {s text : Bytes}

theorem search_eq_none : search m s = none ↔ ∀ t, t <:+ s → m t = none := by
  induction s with
  | nil => simp [search]
  | cons c s ih => simp [search, ih, List.suffix_cons_iff]

theorem search_found {found : Bytes} (h : m s = some found) : search m s = some found := by
  cases s with
  | nil => exact h
  | cons c s => rw [search, h, Option.some_or]

theorem after_append (rest : Bytes) : after text m (text ++ rest) = (m rest).map (text ++ ·) := by
  rw [after, startsWith, if_pos (List.isPrefixOf_iff_prefix.mpr (List.prefix_append text rest)), List.drop_left]

theorem after_digits_eq_none : after text digitsAt s = none ↔ ∀ d, isdigit d = true → ¬ text ++ [d] <+: s := by
  by_cases htext : text <+: s
  · obtain ⟨rest, rfl⟩ := htext
    rw [after_append, Option.map_eq_none_iff, digitsAt]
    simp only [List.prefix_append_right_inj]
    cases rest with
    | nil => simp
    | cons c rest =>
        by_cases hc : isdigit c = true
        · simp [hc]
        · simp only [List.takeWhile_cons, hc, List.cons_prefix_cons, List.nil_prefix, and_true]
          refine iff_of_true rfl ?_
          rintro _ hd rfl
          exact hc hd
  · rw [after, startsWith, if_neg (by rwa [List.isPrefixOf_iff_prefix])]
    exact iff_of_true rfl fun d _ h => htext ((List.prefix_append text [d]).trans h)

def aidWords : List Bytes := [bytes "av", bytes "AV"]

/-- A place where aid_pattern_ matches. -/
def HasAid (s : Bytes) : Prop := ∃ word ∈ aidWords, ∃ d, isdigit d = true ∧ word ++ [d] <:+: s

theorem aidPattern_eq_none :
    aidPattern s = none ↔ ∀ word ∈ aidWords, ∀ d, isdigit d = true → ¬ word ++ [d] <+: s := by
  rw [aidPattern, Option.or_eq_none_iff, after_digits_eq_none, after_digits_eq_none, aidWords, List.forall_mem_cons,
    List.forall_mem_singleton]

theorem search_aid_eq_none : search aidPattern s = none ↔ ¬ HasAid s := by
  rw [search_eq_none]
  constructor
  · intro h hs
    obtain ⟨word, hword, d, hd, hinfix⟩ := hs
    obtain ⟨t, hstart, hsuffix⟩ := List.infix_iff_prefix_suffix.mp hinfix
    exact aidPattern_eq_none.mp (h t hsuffix) word hword d hd hstart
  · intro h t ht
    refine aidPattern_eq_none.mpr fun word hword d hd hstart => ?_
    exact h ⟨word, hword, d, hd, List.infix_iff_prefix_suffix.mpr ⟨t, hstart, ht⟩⟩

/-- Nothing that begins in the first text reaches over a question mark. -/
theorem hasAid_append {x y : Bytes} (hhead : y.head? = some (char '?')) (hfree : ∀ c ∈ y, c ≠ char 'a' ∧ c ≠ char 'A') :
    HasAid (x ++ y) ↔ HasAid x := by
  constructor
  · intro h
    obtain ⟨word, hword, d, hd, hinfix⟩ := h
    have hmark : char '?' ∉ word ++ [d] := by
      have hplain : char '?' ∉ word := (by decide : ∀ word ∈ aidWords, char '?' ∉ word) word hword
      have hdigit : char '?' ≠ d := by
        rintro rfl
        exact absurd hd (by decide)
      simpa [hplain] using hdigit
    have hletter : char 'a' ∈ word ∨ char 'A' ∈ word :=
      (by decide : ∀ word ∈ aidWords, char 'a' ∈ word ∨ char 'A' ∈ word) word hword
    rcases List.infix_append_iff_ne_nil.mp hinfix with hx | hy | ⟨l, l', _, hl', heq, _, hstart⟩
    · exact ⟨word, hword, d, hd, hx⟩
    · rcases hletter with ha | ha
      · exact absurd rfl (hfree _ (hy.subset (List.mem_append_left [d] ha))).1
      · exact absurd rfl (hfree _ (hy.subset (List.mem_append_left [d] ha))).2
    · obtain ⟨c, l', rfl⟩ := List.exists_cons_of_ne_nil hl'
      obtain ⟨rest, rfl⟩ := hstart
      rw [heq, ← Option.some.inj hhead] at hmark
      exact absurd (List.mem_append_right l List.mem_cons_self) hmark
  · intro h
    obtain ⟨word, hword, d, hd, hinfix⟩ := h
    exact ⟨word, hword, d, hd, List.infix_append_of_infix_left hinfix⟩

end Patterns

section Pages

/-- A text of at least one character of a kind. -/
structure Word (p : UInt8 → Bool) where
  text : Bytes
  letters : ∀ c ∈ text, p c = true
  nonempty : text ≠ []

/-- The page of a video: under BV and letters and digits, with or without the number of a
part, or under av and a number. -/
inductive Page
  | bv (id : Word isalnum) (part : Option (Word isdigit))
  | av (number : Word isdigit)

def site : Bytes := bytes "https://www.bilibili.com/video/"

def query (part : Option (Word isdigit)) : Bytes := part.elim [] (bytes "?p=" ++ ·.text)

def Page.url : Page → Bytes
  | .bv id part => site ++ (bytes "BV" ++ (id.text ++ query part))
  | .av number => site ++ (bytes "av" ++ number.text)

def Page.wanted : Page → Bytes
  | .bv id _ => byBvid (bytes "BV" ++ id.text)
  | .av number => byAid number.text

/-- Without an entry of the cache, the network is asked for the video of the page and for
nothing else. -/
def Asks (page : Page) : Prop :=
  ∀ s now, getFromCache s now page.url = none → queries s now page.url = [page.wanted]

/-- aid_pattern_, which is tried first, finds nothing in the id. -/
def Page.Clear : Page → Prop
  | .bv id _ => ¬ HasAid id.text
  | .av _ => True

theorem asks_iff (page : Page) : Asks page ↔ apiUrl page.url = page.wanted := by
  constructor
  · intro h
    exact List.singleton_inj.mp (h ⟨∅, ∅⟩ 0 rfl)
  · intro h s now hcache
    rw [queries, hcache, h]

theorem hasAid_query (x : Bytes) (part : Option (Word isdigit)) : HasAid (x ++ query part) ↔ HasAid x := by
  cases part with
  | none => rw [query, Option.elim_none, List.append_nil]
  | some number =>
      refine hasAid_append rfl fun c hc => ?_
      rcases List.mem_append.mp hc with hc | hc
      · exact (by decide +kernel : ∀ c ∈ bytes "?p=", c ≠ char 'a' ∧ c ≠ char 'A') c hc
      · have hdigit := number.letters c hc
        constructor
        · rintro rfl
          exact absurd hdigit (by decide)
        · rintro rfl
          exact absurd hdigit (by decide)

/-- Nothing is found in the fixed part of the address. -/
theorem search_aid_site (y : Bytes) : search aidPattern (site ++ y) = search aidPattern y := rfl

theorem search_aid_bv (y : Bytes) : search aidPattern (bytes "BV" ++ y) = search aidPattern y := rfl

theorem search_bvid_site (y : Bytes) : search bvidPattern (site ++ y) = search bvidPattern y := rfl

theorem search_aid_page (id : Word isalnum) (part : Option (Word isdigit)) :
    search aidPattern (Page.bv id part).url = none ↔ ¬ HasAid id.text := by
  rw [Page.url, search_aid_site, search_aid_bv, search_aid_eq_none, hasAid_query]

theorem takeWhile_word {p : UInt8 → Bool} (word : Word p) {rest : Bytes} (h : rest.takeWhile p = []) :
    (word.text ++ rest).takeWhile p = word.text := by
  rw [List.takeWhile_append_of_pos word.letters, h, List.append_nil]

theorem takeWhile_query (part : Option (Word isdigit)) : (query part).takeWhile isalnum = [] := by
  cases part <;> rfl

theorem apiUrl_bv_clear {id : Word isalnum} (part : Option (Word isdigit)) (h : ¬ HasAid id.text) :
    apiUrl (Page.bv id part).url = byBvid (bytes "BV" ++ id.text) := by
  have haid := (search_aid_page id part).mpr h
  have hword := takeWhile_word id (takeWhile_query part)
  have hbvid : bvidPattern (bytes "BV" ++ (id.text ++ query part)) = some (bytes "BV" ++ id.text) := by
    rw [bvidPattern, after_append, alnumsAt, hword, if_neg id.nonempty]
    rfl
  have hsearch : search bvidPattern (Page.bv id part).url = some (bytes "BV" ++ id.text) := by
    rw [Page.url, search_bvid_site, search_found hbvid]
  rw [apiUrl, haid]
  dsimp only
  rw [hsearch]

theorem apiUrl_bv_taken {id : Word isalnum} (part : Option (Word isdigit)) (h : HasAid id.text) :
    ∃ aid, apiUrl (Page.bv id part).url = byAid aid := by
  cases haid : search aidPattern (Page.bv id part).url with
  | none => exact absurd h ((search_aid_page id part).mp haid)
  | some aid =>
      rw [apiUrl, haid]
      exact ⟨aid.drop 2, rfl⟩

theorem apiUrl_av (number : Word isdigit) : apiUrl (Page.av number).url = byAid number.text := by
  have hword := takeWhile_word number (List.takeWhile_nil)
  rw [List.append_nil] at hword
  have haid : aidPattern (bytes "av" ++ number.text) = some (bytes "av" ++ number.text) := by
    rw [aidPattern, after_append, digitsAt, hword, if_neg number.nonempty]
    rfl
  have hsearch : search aidPattern (Page.av number).url = some (bytes "av" ++ number.text) := by
    rw [Page.url, search_aid_site, search_found haid]
  rw [apiUrl, hsearch]
  rfl

theorem byAid_ne_byBvid (aid bvid : Bytes) : byAid aid ≠ byBvid bvid := by
  intro h
  have hletter : some (char 'a') = some (char 'b') := congrArg (·[46]?) h
  exact absurd hletter (by decide)

theorem asks_video_iff (page : Page) : Asks page ↔ page.Clear := by
  rw [asks_iff]
  cases page with
  | bv id part =>
      constructor
      · intro h hid
        obtain ⟨aid, haid⟩ := apiUrl_bv_taken part hid
        exact byAid_ne_byBvid aid _ (haid.symm.trans h)
      · exact apiUrl_bv_clear part
  | av number => exact iff_of_true (apiUrl_av number) trivial

/-- The id of a real video that is taken for the number behind its av. -/
theorem bv_asked_by_aid : ∃ id : Word isalnum, id.text = bytes "1av411q7Gj" ∧ ¬ Asks (.bv id none) ∧
    queries ⟨∅, ∅⟩ 0 (Page.bv id none).url = [bytes "https://api.bilibili.com/x/web-interface/view?aid=411"] := by
  refine ⟨⟨bytes "1av411q7Gj", by decide +kernel, by decide⟩, rfl, ?_, by decide⟩
  intro h
  exact absurd (h ⟨∅, ∅⟩ 0 rfl) (by decide)

end Pages

end MigangBot.BilibiliQuery
