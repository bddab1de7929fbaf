import MigangBot.Text

namespace MigangBot.HtmlEntities

open Lib.Exceptions Text

section Code

def encodeChar (c : UInt8) : Bytes :=
  if c = char '&' then bytes "&amp;"
  else if c = char '\x22' then bytes "&quot;"
  else if c = char '\x27' then bytes "&apos;"
  else if c = char '<' then bytes "&lt;"
  else if c = char '>' then bytes "&gt;"
  else [c]

def encode (data : Bytes) : Bytes := data.flatMap encodeChar

/-- What push_back puts behind the result: the character at a position of the data, or
one that an entity stands for. -/
inductive Piece
  | copied (i : Nat)
  | entity (ch : UInt8)
  deriving DecidableEq

/-- The switch, with the distance from the ampersand to the semicolon. -/
def entityOf (first : UInt8) (distance : Nat) : List Piece :=
  if first = char 'a' then [.entity (if distance = 4 then char '&' else char '\x27')]
  else if first = char 'q' then [.entity (char '\x22')]
  else if first = char 'l' then [.entity (char '<')]
  else if first = char 'g' then [.entity (char '>')]
  else []

/-- The size as an int. -/
def intSize (data : Bytes) : Int := (data.length : Int).bmod (2 ^ 32)

/-- An int that is compared with a size_t. -/
def toSize (n : Int) : Nat := if 0 ≤ n then n.toNat else (2 ^ 64 + n).toNat

/-- The loop of unreliable_decode from a position on, with the number of characters that
it still goes past; none is its early return. Behind the end of the data nothing is
promised, and the least int has no predecessor. -/
def decodeFrom (n : Int) : Nat → Nat → Bytes → Outcome (Option (List Piece))
  | _, i, [] => if toSize n ≤ i then return some [] else .error .undefined
  | skip + 1, i, _ :: rest => decodeFrom n skip (i + 1) rest
  | 0, i, ch :: rest =>
      if toSize n ≤ i then return some []
      else if ch ≠ char '&' then do return (← decodeFrom n 0 (i + 1) rest).map (.copied i :: ·)
      else if n = -2 ^ 31 then .error .undefined
      else if i + 1 = toSize n then return none
      else
        match rest.findIdx? (· == char ';') with
        | none => return none
        | some k => do
            let pieces := entityOf (rest.headD 0) (k + 1)
            return (← decodeFrom n (k + 1) (i + 1) rest).map (pieces ++ ·)

def decodePieces (data : Bytes) : Outcome (List Piece) := do
  return (← decodeFrom (intSize data) 0 0 data).getD []

def Piece.char (data : Bytes) : Piece → UInt8
  | .copied i => data.getD i 0
  | .entity ch => ch

def unreliableDecode (data : Bytes) : Outcome Bytes := do
  return (← decodePieces data).map (Piece.char data)

end Code

section Loop

variable {n : Int} {i : Nat} {ch : UInt8} {rest : Bytes}

theorem decodeFrom_skip {skip : Nat} (h : skip ≤ rest.length) :
    decodeFrom n skip i rest = decodeFrom n 0 (i + skip) (rest.drop skip) := by
  induction skip generalizing i rest with
  | zero => rfl
  | succ skip ih =>
      cases rest with
      | nil => cases h
      | cons ch rest =>
          rw [decodeFrom, ih (Nat.le_of_succ_le_succ h), List.drop_succ_cons, Nat.add_right_comm, Nat.add_assoc]

theorem decodeFrom_done (h : toSize n ≤ i) : decodeFrom n 0 i rest = .ok (some []) := by
  cases rest with
  | nil => exact if_pos h
  | cons ch rest => exact if_pos h

theorem decodeFrom_copied (hi : i < toSize n) (hch : ch ≠ char '&') : decodeFrom n 0 i (ch :: rest) =
    (do return (← decodeFrom n 0 (i + 1) rest).map (.copied i :: ·)) := by
  rw [decodeFrom, if_neg (Nat.not_le.mpr hi), if_pos hch]

theorem decodeFrom_least (hi : i < toSize n) (hn : n = -2 ^ 31) :
    decodeFrom n 0 i (char '&' :: rest) = .error .undefined := by
  rw [decodeFrom, if_neg (Nat.not_le.mpr hi), if_neg (not_not_intro rfl), if_pos hn]

theorem decodeFrom_last (hi : i + 1 = toSize n) (hn : n ≠ -2 ^ 31) :
    decodeFrom n 0 i (char '&' :: rest) = .ok none := by
  rw [decodeFrom, if_neg (by omega), if_neg (not_not_intro rfl), if_neg hn, if_pos hi]
  rfl

theorem decodeFrom_bare (hi : i < toSize n) (hn : n ≠ -2 ^ 31) (h : rest.findIdx? (· == char ';') = none) :
    decodeFrom n 0 i (char '&' :: rest) = .ok none := by
  rw [decodeFrom, if_neg (Nat.not_le.mpr hi), if_neg (not_not_intro rfl), if_neg hn, h]
  split <;> rfl

theorem decodeFrom_found (hi : i + 1 < toSize n) (hn : n ≠ -2 ^ 31) {k : Nat}
    (h : rest.findIdx? (· == char ';') = some k) : decodeFrom n 0 i (char '&' :: rest) = (do
      let pieces := entityOf (rest.headD 0) (k + 1)
      return (← decodeFrom n 0 (i + 1 + (k + 1)) (rest.drop (k + 1))).map (pieces ++ ·)) := by
  obtain ⟨hk, _⟩ := List.findIdx?_eq_some_iff_findIdx_eq.mp h
  rw [decodeFrom, if_neg (by omega), if_neg (not_not_intro rfl), if_neg hn, if_neg (by omega), h]
  dsimp only
  rw [decodeFrom_skip hk]

theorem toSize_of_nonneg (h : 0 ≤ n) : toSize n = n.toNat := if_pos h

end Loop

section RoundTrip

variable {n : Int} {i : Nat} {rest : Bytes}

/-- What encode writes for a character: the character, or an entity that the switch
knows. -/
theorem encodeChar_cases (c : UInt8) : (encodeChar c = [c] ∧ c ≠ char '&') ∨
    ∃ name, char ';' ∉ name ∧ encodeChar c = char '&' :: (name ++ [char ';']) ∧
      entityOf ((name ++ [char ';']).headD 0) (name.length + 1) = [.entity c] := by
  rw [encodeChar]
  split
  next h =>
    subst h
    exact .inr ⟨bytes "amp", by decide⟩
  next hamp =>
    split
    next h =>
      subst h
      exact .inr ⟨bytes "quot", by decide⟩
    next =>
      split
      next h =>
        subst h
        exact .inr ⟨bytes "apos", by decide⟩
      next =>
        split
        next h =>
          subst h
          exact .inr ⟨bytes "lt", by decide⟩
        next =>
          split
          next h =>
            subst h
            exact .inr ⟨bytes "gt", by decide⟩
          next => exact .inl ⟨rfl, hamp⟩

theorem findIdx?_name {name : Bytes} (h : char ';' ∉ name) (rest : Bytes) :
    (name ++ char ';' :: rest).findIdx? (· == char ';') = some name.length := by
  have hname : name.findIdx? (· == char ';') = none := by
    rw [List.findIdx?_eq_none_iff]
    intro c hc
    exact beq_false_of_ne fun heq => h (heq ▸ hc)
  rw [List.findIdx?_append, hname, List.findIdx?_cons, if_pos (beq_self_eq_true _)]
  simp

/-- The text of a character is decoded to it, in front of whatever comes. -/
theorem decodeFrom_encodeChar (hn : 0 ≤ n) (c : UInt8) (hi : i + (encodeChar c ++ rest).length ≤ n.toNat) :
    ∃ piece, decodeFrom n 0 i (encodeChar c ++ rest) =
        (do return (← decodeFrom n 0 (i + (encodeChar c).length) rest).map (piece :: ·)) ∧
      ∀ data : Bytes, data.drop i = encodeChar c ++ rest → piece.char data = c := by
  have hsize := toSize_of_nonneg hn
  rcases encodeChar_cases c with ⟨hc, hamp⟩ | ⟨name, hname, hc, hentity⟩
  · rw [hc] at hi ⊢
    rw [List.length_append, List.length_singleton] at hi
    refine ⟨.copied i, decodeFrom_copied (by omega) hamp, ?_⟩
    intro data hdata
    rw [Piece.char, List.getD_eq_getElem?_getD, ← List.head?_drop, hdata]
    rfl
  · rw [hc] at hi ⊢
    simp only [List.length_append, List.length_cons, List.length_nil] at hi
    refine ⟨.entity c, ?_, fun _ _ => rfl⟩
    have hhead : (name ++ char ';' :: rest).headD 0 = (name ++ [char ';']).headD 0 := by
      cases name <;> rfl
    have hfound := @decodeFrom_found n i (name ++ char ';' :: rest) (by omega) (by omega) _ (findIdx?_name hname rest)
    have hrest : (name ++ char ';' :: rest).drop (name.length + 1) = rest := by simp
    rw [hhead, hentity, hrest] at hfound
    have htext : char '&' :: (name ++ [char ';']) ++ rest = char '&' :: (name ++ char ';' :: rest) := by simp
    have hend : i + (char '&' :: (name ++ [char ';'])).length = i + 1 + (name.length + 1) := by
      simp only [List.length_cons, List.length_append, List.length_nil]
      omega
    rw [htext, hend]
    exact hfound

theorem decodeFrom_encode (hn : 0 ≤ n) (s data : Bytes) (hdata : data.drop i = encode s)
    (hi : i + (encode s).length = n.toNat) :
    ∃ pieces, decodeFrom n 0 i (encode s) = .ok (some pieces) ∧ pieces.map (Piece.char data) = s := by
  induction s generalizing i with
  | nil =>
      have hdone : toSize n ≤ i := by
        rw [toSize_of_nonneg hn, ← hi]
        exact Nat.le_refl i
      exact ⟨[], decodeFrom_done hdone, rfl⟩
  | cons c s ih =>
      have hcons : encode (c :: s) = encodeChar c ++ encode s := rfl
      rw [hcons] at hdata hi ⊢
      obtain ⟨piece, hpiece, hchar⟩ := decodeFrom_encodeChar hn c (Nat.le_of_eq hi)
      have hrest : data.drop (i + (encodeChar c).length) = encode s := by
        rw [← List.drop_drop, hdata, List.drop_left]
      rw [List.length_append, ← Nat.add_assoc] at hi
      obtain ⟨pieces, hpieces, hmap⟩ := ih hrest hi
      refine ⟨piece :: pieces, ?_, ?_⟩
      · rw [hpiece, hpieces]
        rfl
      · rw [List.map_cons, hchar data hdata, hmap]

theorem intSize_of_lt {data : Bytes} (h : data.length < 2 ^ 31) : intSize data = data.length := by
  apply Int.bmod_eq_of_le <;> omega

theorem decode_encode (s : Bytes) (h : (encode s).length < 2 ^ 31) : unreliableDecode (encode s) = .ok s := by
  have hsize := intSize_of_lt h
  have hn : 0 ≤ intSize (encode s) := by omega
  have hi : 0 + (encode s).length = (intSize (encode s)).toNat := by omega
  obtain ⟨pieces, hpieces, hmap⟩ := decodeFrom_encode hn s (encode s) List.drop_zero hi
  rw [unreliableDecode, decodePieces, hpieces]
  exact congrArg Except.ok hmap

/-- Look-alikes of entities in the text itself. -/
theorem decode_encode_lookalike :
    unreliableDecode (encode (bytes "a;&lt; <;&")) = .ok (bytes "a;&lt; <;&") := by
  have hshort : (encode (bytes "a;&lt; <;&")).length < 2 ^ 31 := by decide
  exact decode_encode (bytes "a;&lt; <;&") hshort

end RoundTrip

section Spans

/-- From an ampersand to the next semicolon. -/
structure Span (data : Bytes) (a e : Nat) : Prop where
  begins : data[a]? = some (char '&')
  le : a ≤ e
  ends : data[e]? = some (char ';')
  first : ∀ k, a ≤ k → k < e → data[k]? ≠ some (char ';')

/-- Where a character belongs to no span. -/
def Outside (data : Bytes) (j : Nat) : Prop :=
  j < data.length ∧ ∀ a e, Span data a e → a ≤ j → e < j

def Piece.position : Piece → Option Nat
  | .copied i => some i
  | .entity _ => none

/-- Every character outside the spans is copied, in order. -/
def KeepsPlain (data : Bytes) : Prop := ∃ pieces, decodePieces data = .ok pieces ∧
  (∀ j, Outside data j → .copied j ∈ pieces) ∧ (pieces.filterMap Piece.position).Pairwise (· < ·)

/-- No span that began before reaches the position. -/
def Fresh (data : Bytes) (i : Nat) : Prop := ∀ a e, Span data a e → a < i → e < i

variable {data : Bytes} {n : Int} {i e : Nat} {ch : UInt8} {pieces : List Piece}

theorem Span.unique {a e' : Nat} (h : Span data i e) (h' : Span data a e') (hle : i ≤ a) (hae : a ≤ e) : e' = e := by
  rcases Nat.lt_trichotomy e e' with hlt | heq | hlt
  · exact absurd h.ends (h'.first e hae hlt)
  · exact heq.symm
  · exact absurd h'.ends (h.first e' (Nat.le_trans hle h'.le) hlt)

theorem Fresh.copied (h : Fresh data i) (hch : data[i]? = some ch) (hne : ch ≠ char '&') : Fresh data (i + 1) := by
  intro a e hspan ha
  rcases Nat.lt_or_eq_of_le (Nat.le_of_lt_succ ha) with hlt | rfl
  · exact Nat.lt_succ_of_lt (h a e hspan hlt)
  · exact absurd (Option.some.inj (hch.symm.trans hspan.begins)) hne

theorem Fresh.span (h : Fresh data i) (hspan : Span data i e) : Fresh data (e + 1) := by
  intro a e' hspan' ha
  rcases Nat.lt_or_ge a i with hlt | hge
  · have := h a e' hspan' hlt
    have := hspan.le
    omega
  · rw [hspan.unique hspan' hge (Nat.le_of_lt_succ ha)]
    exact Nat.lt_succ_self e

theorem outside_of_bare (hamp : data[i]? = some (char '&')) (hfresh : Fresh data i)
    (hbare : ∀ e, i ≤ e → data[e]? ≠ some (char ';')) : Outside data i := by
  obtain ⟨hi, _⟩ := List.getElem?_eq_some_iff.mp hamp
  refine ⟨hi, fun a e hspan ha => ?_⟩
  rcases Nat.lt_or_eq_of_le ha with hlt | rfl
  · exact hfresh a e hspan hlt
  · exact absurd hspan.ends (hbare e hspan.le)

/-- What the loop leaves when it gets to its end. -/
structure Passed (data : Bytes) (limit i : Nat) (pieces : List Piece) : Prop where
  inside : limit ≤ data.length
  kept : ∀ j, i ≤ j → j < limit → Outside data j → .copied j ∈ pieces
  plain : ∀ j, .copied j ∈ pieces → i ≤ j ∧ j < limit ∧ data[j]? ≠ some (char '&')
  sorted : (pieces.filterMap Piece.position).Pairwise (· < ·)
  visited : ∀ j, i ≤ j → data[j]? = some (char '&') → Fresh data j → j + 1 ≠ limit

/-- Where the loop returns the empty text. -/
def Stopped (data : Bytes) (limit i : Nat) : Prop := ∃ j, i ≤ j ∧ data[j]? = some (char '&') ∧ Fresh data j ∧
  (j + 1 = limit ∨ ∀ e, j ≤ e → data[e]? ≠ some (char ';'))

variable {limit : Nat}

theorem Stopped.mono {i' : Nat} (h : Stopped data limit i') (hi : i ≤ i') : Stopped data limit i := by
  obtain ⟨j, hj, h⟩ := h
  exact ⟨j, Nat.le_trans hi hj, h⟩

theorem passed_done (hlimit : limit ≤ data.length) (hi : limit ≤ i) : Passed data limit i [] where
  inside := hlimit
  kept j hj hlt _ := absurd hlt (by omega)
  plain _ h := by cases h
  sorted := .nil
  visited j hj _ _ := by omega

theorem Passed.copied (h : Passed data limit (i + 1) pieces) (hi : i < limit) (hch : data[i]? = some ch)
    (hne : ch ≠ char '&') : Passed data limit i (.copied i :: pieces) where
  inside := h.inside
  kept j hj hlt hout := by
    rcases Nat.lt_or_eq_of_le hj with hlt' | rfl
    · exact List.mem_cons_of_mem _ (h.kept j hlt' hlt hout)
    · exact List.mem_cons_self
  plain j hj := by
    rcases List.mem_cons.mp hj with heq | hj
    · cases heq
      exact ⟨Nat.le_refl i, hi, fun hamp => hne (Option.some.inj (hch.symm.trans hamp))⟩
    · obtain ⟨hle, hrest⟩ := h.plain j hj
      exact ⟨Nat.le_of_succ_le hle, hrest⟩
  sorted := by
    have hcons : (Piece.copied i :: pieces).filterMap Piece.position = i :: pieces.filterMap Piece.position := rfl
    rw [hcons]
    refine .cons (fun j hj => ?_) h.sorted
    obtain ⟨piece, hpiece, hposition⟩ := List.mem_filterMap.mp hj
    cases piece with
    | copied j' =>
        cases hposition
        exact (h.plain _ hpiece).1
    | entity ch => cases hposition
  visited j hj hamp hfresh := by
    rcases Nat.lt_or_eq_of_le hj with hlt | rfl
    · exact h.visited j hlt hamp hfresh
    · exact absurd (Option.some.inj (hch.symm.trans hamp)) hne

theorem entityOf_position (first : UInt8) (distance : Nat) :
    ∀ piece ∈ entityOf first distance, piece.position = none := by
  intro piece h
  rw [entityOf] at h
  split at h
  · cases List.mem_singleton.mp h
    rfl
  · split at h
    · cases List.mem_singleton.mp h
      rfl
    · split at h
      · cases List.mem_singleton.mp h
        rfl
      · split at h
        · cases List.mem_singleton.mp h
          rfl
        · cases h

theorem Passed.span (h : Passed data limit (e + 1) pieces) (hspan : Span data i e) (hi : i + 1 ≠ limit)
    {new : List Piece} (hnew : ∀ piece ∈ new, piece.position = none) : Passed data limit i (new ++ pieces) where
  inside := h.inside
  kept j hj hlt hout := List.mem_append_right _ (h.kept j (hout.2 i e hspan hj) hlt hout)
  plain j hj := by
    rcases List.mem_append.mp hj with hj | hj
    · cases hnew _ hj
    · obtain ⟨hle, hrest⟩ := h.plain j hj
      have := hspan.le
      exact ⟨by omega, hrest⟩
  sorted := by
    rw [List.filterMap_append, List.filterMap_eq_nil_iff.mpr hnew]
    exact h.sorted
  visited j hj hamp hfresh := by
    rcases Nat.lt_or_eq_of_le hj with hlt | rfl
    · exact h.visited j (hfresh i e hspan hlt) hamp hfresh
    · exact hi

/-- What the semicolon that is found means for the positions. -/
theorem span_of_found (hamp : data[i]? = some (char '&')) {k : Nat}
    (h : (data.drop (i + 1)).findIdx? (· == char ';') = some k) : Span data i (i + 1 + k) := by
  obtain ⟨hk, hend, hfirst⟩ := List.findIdx?_eq_some_iff_getElem.mp h
  have hget (m : Nat) : (data.drop (i + 1))[m]? = data[i + 1 + m]? := List.getElem?_drop
  refine ⟨hamp, by omega, ?_, ?_⟩
  · rw [← hget, List.getElem?_eq_getElem hk]
    exact congrArg some (beq_iff_eq.mp hend)
  · intro m hm hlt hsemicolon
    rcases Nat.lt_or_eq_of_le hm with hm | rfl
    · have hindex : m = i + 1 + (m - (i + 1)) := by omega
      rw [hindex, ← hget] at hsemicolon
      obtain ⟨hlt', hchar⟩ := List.getElem?_eq_some_iff.mp hsemicolon
      exact hfirst (m - (i + 1)) (by omega) (beq_iff_eq.mpr hchar)
    · exact absurd (Option.some.inj (hamp.symm.trans hsemicolon)) (by decide)

theorem bare_of_not_found (hamp : data[i]? = some (char '&'))
    (h : (data.drop (i + 1)).findIdx? (· == char ';') = none) : ∀ e, i ≤ e → data[e]? ≠ some (char ';') := by
  intro e he hsemicolon
  rcases Nat.lt_or_eq_of_le he with hlt | rfl
  · have hindex : e = i + 1 + (e - (i + 1)) := by omega
    rw [hindex, ← List.getElem?_drop] at hsemicolon
    have := List.findIdx?_eq_none_iff.mp h _ (List.mem_of_getElem? hsemicolon)
    exact absurd this (by decide)
  · exact absurd (Option.some.inj (hamp.symm.trans hsemicolon)) (by decide)

/-- The loop from a fresh position on, by the way it ends. -/
def Ends (data : Bytes) (n : Int) (i : Nat) : Outcome (Option (List Piece)) → Prop
  | .ok (some pieces) => Passed data (toSize n) i pieces
  | .ok none => Stopped data (toSize n) i
  | .error _ => n < 0 ∨ data.length < toSize n

theorem ends_map {i' : Nat} {x : Outcome (Option (List Piece))} {f : List Piece → List Piece}
    (h : Ends data n i' x) (hi : i ≤ i')
    (hf : ∀ pieces, Passed data (toSize n) i' pieces → Passed data (toSize n) i (f pieces)) :
    Ends data n i (do return (← x).map f) := by
  cases x with
  | error e => exact h
  | ok result =>
      cases result with
      | none => exact Stopped.mono h hi
      | some pieces => exact hf pieces h

theorem ends_decodeFrom (hfresh : Fresh data i) (hi : i ≤ data.length) :
    Ends data n i (decodeFrom n 0 i (data.drop i)) := by
  induction hk : data.length - i using Nat.strongRecOn generalizing i with
  | ind k ih =>
      rcases Nat.lt_or_ge i (toSize n) with hlt | hge
      · rcases Nat.lt_or_eq_of_le hi with hi | rfl
        · have hget := List.getElem?_eq_getElem hi
          rw [List.drop_eq_getElem_cons hi]
          generalize data[i] = ch at hget ⊢
          by_cases hch : ch = char '&'
          · subst hch
            by_cases hn : n = -2 ^ 31
            · rw [decodeFrom_least hlt hn]
              exact .inl (by omega)
            by_cases hlast : i + 1 = toSize n
            · rw [decodeFrom_last hlast hn]
              exact ⟨i, Nat.le_refl i, hget, hfresh, .inl hlast⟩
            cases hfind : (data.drop (i + 1)).findIdx? (· == char ';') with
            | none =>
                rw [decodeFrom_bare hlt hn hfind]
                exact ⟨i, Nat.le_refl i, hget, hfresh, .inr (bare_of_not_found hget hfind)⟩
            | some k =>
                have hspan := span_of_found hget hfind
                obtain ⟨hend, _⟩ := List.getElem?_eq_some_iff.mp hspan.ends
                rw [decodeFrom_found (by omega) hn hfind, List.drop_drop]
                have hrest := ih _ (by omega) (hfresh.span hspan) hend rfl
                exact ends_map hrest (by omega) fun _ h => h.span hspan hlast (entityOf_position _ _)
          · rw [decodeFrom_copied hlt hch]
            have hrest := ih _ (by omega) (hfresh.copied hget hch) hi rfl
            exact ends_map hrest (Nat.le_succ i) fun _ h => h.copied hlt hget hch
        · rw [List.drop_length, decodeFrom, if_neg (Nat.not_le.mpr hlt)]
          exact .inr hlt
      · rw [decodeFrom_done hge]
        exact passed_done (Nat.le_trans hge hi) hge

/-- When decoding keeps the text between the entities: no ampersand is without a
semicolon behind it, and the int that the size is put into does not cut anything off. For
fewer than 2^31 characters the second part says nothing more than the first. -/
structure Safe (data : Bytes) : Prop where
  size : 0 ≤ intSize data
  outside : ∀ j, Outside data j → j < (intSize data).toNat ∧ data[j]? ≠ some (char '&')
  last : ∀ j, j + 1 = (intSize data).toNat → data[j]? = some (char '&') → Fresh data j → ∀ k, ¬ Outside data k

theorem bmod_le_self (m k : Nat) : (m : Int).bmod k ≤ m := by
  rw [Int.bmod_def, ← Int.natCast_emod]
  have := Nat.mod_le m k
  split <;> omega

theorem intSize_le (data : Bytes) : intSize data ≤ data.length := bmod_le_self data.length (2 ^ 32)

theorem le_intSize (data : Bytes) : -2 ^ 31 ≤ intSize data := by
  have h := @Int.le_bmod data.length (2 ^ 32) (by decide)
  unfold intSize
  omega

/-- A negative size is taken for one behind the end. -/
theorem toSize_intSize (h : data.length < 2 ^ 63) (hn : intSize data < 0) :
    data.length + 1 < toSize (intSize data) := by
  have := le_intSize data
  rw [toSize, if_neg (by omega)]
  omega

theorem keepsPlain_of_passed (h : data.length < 2 ^ 63) {pieces : List Piece}
    (hdecode : decodePieces data = .ok pieces) (hpassed : Passed data (toSize (intSize data)) 0 pieces) :
    KeepsPlain data ↔ Safe data := by
  have hn : 0 ≤ intSize data := by
    by_contra hn
    have := toSize_intSize h (by omega)
    have := hpassed.inside
    omega
  rw [toSize_of_nonneg hn] at hpassed
  constructor
  · intro hkeeps
    obtain ⟨_, heq, hcopied, _⟩ := hkeeps
    cases hdecode.symm.trans heq
    refine ⟨hn, fun j hj => (hpassed.plain j (hcopied j hj)).2, fun j hj hamp hfresh => ?_⟩
    exact absurd hj (hpassed.visited j (Nat.zero_le j) hamp hfresh)
  · intro hsafe
    exact ⟨pieces, hdecode, fun j hj => hpassed.kept j (Nat.zero_le j) (hsafe.outside j hj).1 hj, hpassed.sorted⟩

/-- The early return keeps nothing, which is right only where there is nothing. -/
theorem keepsPlain_of_stopped (h : data.length < 2 ^ 63) (hdecode : decodePieces data = .ok [])
    (hstopped : Stopped data (toSize (intSize data)) 0) : KeepsPlain data ↔ Safe data := by
  obtain ⟨j, _, hamp, hfresh, hend⟩ := hstopped
  obtain ⟨hj, _⟩ := List.getElem?_eq_some_iff.mp hamp
  constructor
  · intro hkeeps
    obtain ⟨_, heq, hcopied, _⟩ := hkeeps
    cases hdecode.symm.trans heq
    have hnone (k : Nat) : ¬ Outside data k := fun hk => List.not_mem_nil (hcopied k hk)
    refine ⟨?_, fun k hk => absurd hk (hnone k), fun _ _ _ _ => hnone⟩
    by_contra hn
    rcases hend with hlast | hbare
    · have := toSize_intSize h (by omega)
      omega
    · exact hnone j (outside_of_bare hamp hfresh hbare)
  · intro hsafe
    refine ⟨[], hdecode, fun k hk => ?_, .nil⟩
    rw [toSize_of_nonneg hsafe.size] at hend
    rcases hend with hlast | hbare
    · exact absurd hk (hsafe.last j hlast hamp hfresh k)
    · exact absurd hamp (hsafe.outside j (outside_of_bare hamp hfresh hbare)).2

theorem keepsPlain_iff (data : Bytes) (h : data.length < 2 ^ 63) : KeepsPlain data ↔ Safe data := by
  have hfresh : Fresh data 0 := fun a _ _ ha => absurd ha (Nat.not_lt_zero a)
  have hends : Ends data (intSize data) 0 (decodeFrom (intSize data) 0 0 data) :=
    ends_decodeFrom hfresh (Nat.zero_le data.length)
  cases hresult : decodeFrom (intSize data) 0 0 data with
  | error e =>
      rw [hresult] at hends
      have hn : intSize data < 0 := by
        rcases hends with hn | hlt
        · exact hn
        · by_contra hn
          rw [toSize_of_nonneg (by omega)] at hlt
          have := intSize_le data
          omega
      refine iff_of_false ?_ (fun hsafe => by have := hsafe.size; omega)
      rintro ⟨_, heq, _⟩
      rw [decodePieces, hresult] at heq
      cases heq
  | ok result =>
      rw [hresult] at hends
      cases result with
      | none => exact keepsPlain_of_stopped h (by rw [decodePieces, hresult]; rfl) hends
      | some pieces => exact keepsPlain_of_passed h (by rw [decodePieces, hresult]; rfl) hends

/-- In the texts that the program meets, an ampersand without a semicolon is all that
can go wrong. -/
theorem safe_iff_of_short (h : data.length < 2 ^ 31) : Safe data ↔
    ∀ a : Nat, data[a]? = some (char '&') → ∃ e : Nat, a ≤ e ∧ data[e]? = some (char ';') := by
  have hsize := intSize_of_lt h
  constructor
  · intro hsafe a hamp
    by_contra hnone
    obtain ⟨ha, _⟩ := List.getElem?_eq_some_iff.mp hamp
    have hout : Outside data a := by
      refine ⟨ha, fun a' e hspan _ => ?_⟩
      by_contra he
      exact hnone ⟨e, Nat.le_of_not_lt he, hspan.ends⟩
    exact (hsafe.outside a hout).2 hamp
  · intro hclosed
    refine ⟨by omega, ?_, ?_⟩
    · intro j hj
      refine ⟨by have := hj.1; omega, fun hamp => ?_⟩
      cases hfind : (data.drop (j + 1)).findIdx? (· == char ';') with
      | none =>
          obtain ⟨e, he, hsemicolon⟩ := hclosed j hamp
          exact bare_of_not_found hamp hfind e he hsemicolon
      | some k =>
          have := hj.2 j _ (span_of_found hamp hfind) (Nat.le_refl j)
          omega
    · intro j hlast hamp
      obtain ⟨e, he, hsemicolon⟩ := hclosed j hamp
      obtain ⟨hlt, _⟩ := List.getElem?_eq_some_iff.mp hsemicolon
      have heq : e = j := by omega
      rw [heq, hamp] at hsemicolon
      exact absurd (Option.some.inj hsemicolon) (by decide)

theorem keepsPlain_entity : KeepsPlain (bytes "x &amp; y; z") := by
  have hshort : (bytes "x &amp; y; z").length < 2 ^ 31 := by decide
  have hlong : (bytes "x &amp; y; z").length < 2 ^ 63 := by decide
  have hclosed : ∀ a < (bytes "x &amp; y; z").length, (bytes "x &amp; y; z")[a]? = some (char '&') → a ≤ 6 := by decide
  refine (keepsPlain_iff (bytes "x &amp; y; z") hlong).mpr ((safe_iff_of_short hshort).mpr fun a hamp => ?_)
  obtain ⟨ha, _⟩ := List.getElem?_eq_some_iff.mp hamp
  exact ⟨6, hclosed a ha hamp, by decide⟩

/-- The text around an ampersand with nothing behind it. -/
theorem ampersand_erases : unreliableDecode (bytes "fish & chips") = .ok [] ∧ ¬ KeepsPlain (bytes "fish & chips") := by
  refine ⟨by decide, fun hkeeps => ?_⟩
  obtain ⟨pieces, hpieces, hcopied, _⟩ := hkeeps
  have hnil : decodePieces (bytes "fish & chips") = .ok [] := by decide
  cases hnil.symm.trans hpieces
  refine List.not_mem_nil (hcopied 0 ⟨by decide, fun a e hspan ha => ?_⟩)
  cases Nat.le_zero.mp ha
  exact absurd hspan.begins (by decide)

end Spans

end MigangBot.HtmlEntities
