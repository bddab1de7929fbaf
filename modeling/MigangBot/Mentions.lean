import MigangBot.Digits
import MigangBot.WellFormedEvents
import Mathlib.Data.List.TakeWhile

namespace MigangBot.Mentions

open Lib.Exceptions Text JsonValue ApiTypes Digits EventHandling MessageHandling WellFormedEvents

section Scanning

theorem digits_decimal (n : UInt64) : ∀ c ∈ decimal n, 48 ≤ c.toNat ∧ c.toNat ≤ 57 := by
  intro c hc
  rw [decimal, List.mem_map] at hc
  obtain ⟨d, hd, rfl⟩ := hc
  obtain ⟨h₁, h₂⟩ := toNat_of_mem_toDigits hd
  rw [char_toNat (by omega)]
  exact ⟨h₁, h₂⟩

theorem bracket_notMem_decimal (n : UInt64) : char ']' ∉ decimal n := by
  intro h
  have := (digits_decimal n _ h).2
  revert this
  decide

theorem decimal_ne_nil (n : UInt64) : decimal n ≠ [] := by
  simp [decimal, Nat.toDigits_ne_nil]

theorem substrFrom_findFirstNotOf {s : Bytes} (hs : s.length < npos) :
    substrFrom s (findFirstNotOf (char ' ') s) =
      if s.dropWhile (· == char ' ') = [] then throwing .outOfRange
      else .ok (s.dropWhile (· == char ' ')) := by
  have hle : findFirstNotOf (char ' ') s ≤ s.length ↔ s.dropWhile (· == char ' ') ≠ [] := by
    rw [findFirstNotOf_le, ne_eq, List.dropWhile_eq_nil_iff]
    simp [show ¬ npos ≤ s.length by omega]
  rw [substrFrom]
  split
  next h =>
    rw [if_neg (hle.mp h), findFirstNotOf]
    rw [hle, ne_eq, List.dropWhile_eq_nil_iff] at h
    rw [List.findIdx?_eq_some_of_exists (by simpa using h), List.dropWhile_eq_drop_findIdx_not]
    rfl
  next h => rw [if_pos (not_not.mp (hle.not.mp h))]

theorem findIdx?_of_notMem {c : UInt8} {s : Bytes} (hs : c ∉ s) : s.findIdx? (· == c) = none := by
  rw [List.findIdx?_eq_none_iff]
  intro d hd
  exact beq_false_of_ne fun h : d = c => hs (h ▸ hd)

theorem findFirstOf_append {c : UInt8} {x : Bytes} (hx : c ∉ x) (y : Bytes) :
    findFirstOf c (x ++ c :: y) = x.length := by
  rw [findFirstOf, List.findIdx?_append, findIdx?_of_notMem hx]
  simp [List.findIdx?_cons]

theorem findFirstOf_of_notMem {c : UInt8} {s : Bytes} (hs : c ∉ s) : findFirstOf c s = npos := by
  rw [findFirstOf, findIdx?_of_notMem hs]
  rfl

/-- What follows the first closing bracket, or all of the text without one. -/
def afterBracket (msg : Bytes) : Bytes :=
  if char ']' ∈ msg then (msg.dropWhile (· != char ']')).tail else msg

theorem takeWhile_unbracketed {x : Bytes} (hx : char ']' ∉ x) : x.takeWhile (· != char ']') = x := by
  rw [List.takeWhile_eq_self_iff]
  intro c hc
  exact bne_iff_ne.mpr fun h : c = char ']' => hx (h ▸ hc)

theorem takeWhile_bracket {x : Bytes} (hx : char ']' ∉ x) (y : Bytes) :
    (x ++ char ']' :: y).takeWhile (· != char ']') = x := by
  rw [List.takeWhile_append, takeWhile_unbracketed hx]
  simp

theorem afterBracket_append {x : Bytes} (hx : char ']' ∉ x) (y : Bytes) :
    afterBracket (x ++ char ']' :: y) = y := by
  rw [afterBracket, if_pos (by simp), List.dropWhile_append_of_pos]
  · simp
  · intro c hc
    exact bne_iff_ne.mpr fun h : c = char ']' => hx (h ▸ hc)

theorem substrFrom_afterBracket {msg : Bytes} (hm : msg.length < npos) :
    substrFrom msg (sizeSucc (findFirstOf (char ']') msg)) = .ok (afterBracket msg) := by
  by_cases h : char ']' ∈ msg
  · obtain ⟨x, y, rfl, hx⟩ := List.eq_append_cons_of_mem h
    rw [findFirstOf_append hx, afterBracket_append hx, substrFrom, sizeSucc]
    simp only [List.length_append, List.length_cons, npos] at hm ⊢
    rw [Nat.mod_eq_of_lt (by omega), if_pos (by omega)]
    simp
  · rw [findFirstOf_of_notMem h, afterBracket, if_neg h]
    simp [substrFrom, sizeSucc, npos]

def afterMention (msg : Bytes) : Bytes := (afterBracket msg).dropWhile (· == char ' ')

theorem length_afterBracket (msg : Bytes) : (afterBracket msg).length ≤ msg.length := by
  rw [afterBracket]
  split
  · rw [List.length_tail]
    have := (List.dropWhile_suffix (l := msg) (· != char ']')).length_le
    omega
  · exact le_rfl

theorem afterAt_eq {msg : Bytes} (hm : msg.length < npos) :
    afterAt msg = if afterMention msg = [] then throwing .outOfRange else .ok (afterMention msg) := by
  rw [afterAt, substrFrom_afterBracket hm, ok_bind,
    substrFrom_findFirstNotOf ((length_afterBracket msg).trans_lt hm), afterMention]

end Scanning

section Recognising

theorem atId_short {msg : Bytes} (h : msg.length ≤ 10) : atId msg = [] := by
  rw [atId, Nat.min_eq_right h, List.drop_length, List.take_nil]

theorem atId_closed {x : Bytes} (hx : char ']' ∉ x) (hlen : 10 ≤ x.length) (y : Bytes) :
    atId (x ++ char ']' :: y) = x.drop 10 := by
  have h₁ : min 10 (x ++ char ']' :: y).length = 10 := by simp; omega
  have h₂ : min x.length (x ++ char ']' :: y).length = x.length := by simp
  rw [atId, findFirstOf_append hx, h₁, h₂, sizeSub, if_pos hlen, List.drop_append_of_le_length hlen,
    List.take_left']
  simp

/-- A bracket before the place of the id makes the length of the id wrap around. -/
theorem atId_early {x : Bytes} (hx : char ']' ∉ x) (hlen : x.length < 10) {y : Bytes}
    (hm : (x ++ char ']' :: y).length < npos) :
    atId (x ++ char ']' :: y) = (x ++ char ']' :: y).drop 10 := by
  have hmin : min x.length (x ++ char ']' :: y).length = x.length := by simp
  rw [atId, findFirstOf_append hx, hmin]
  rcases Nat.le_total 10 (x ++ char ']' :: y).length with h | h
  · rw [Nat.min_eq_left h, sizeSub, if_neg (by omega), List.take_of_length_le]
    rw [List.length_drop]
    rw [npos] at hm
    omega
  · rw [Nat.min_eq_right h, List.drop_length, List.take_nil, List.drop_eq_nil_of_le h]

theorem atId_open {msg : Bytes} (hm : char ']' ∉ msg) (hlen : msg.length < npos) :
    atId msg = msg.drop 10 := by
  rw [atId, findFirstOf_of_notMem hm, Nat.min_eq_right hlen.le]
  rcases Nat.le_total 10 msg.length with h | h
  · rw [Nat.min_eq_left h, sizeSub, if_pos h, List.take_of_length_le (by simp)]
  · rw [Nat.min_eq_right h, List.drop_length, List.take_nil, List.drop_eq_nil_of_le h]

def atCode (selfId : QId) : Bytes := bytes "[CQ:at,qq=" ++ (decimal selfId ++ bytes "]")

/-- The texts that the block takes for a mention: the opening of a CQ code and
the id, four characters apart, then the closing bracket or the end. -/
def Recognised (selfId : QId) (msg : Bytes) : Prop :=
  ∃ w : Bytes, w.length = 4 ∧ (msg = bytes "[CQ:at" ++ (w ++ decimal selfId) ∨
    (char ']' ∉ w ∧ ∃ rest, msg = bytes "[CQ:at" ++ (w ++ (decimal selfId ++ char ']' :: rest))))

theorem opening_append {w : Bytes} (hw : w.length = 4) (v : Bytes) :
    (bytes "[CQ:at" ++ (w ++ v)).drop 10 = v := by
  rw [← List.append_assoc, List.drop_left' (by rw [List.length_append, hw]; rfl)]

theorem bracket_notMem_opening {u : Bytes} (hu : char ']' ∉ u) : char ']' ∉ bytes "[CQ:at" ++ u := by
  rw [List.mem_append, not_or]
  exact ⟨by decide, hu⟩

theorem length_opening (u : Bytes) : (bytes "[CQ:at" ++ u).length = 6 + u.length := List.length_append

theorem atId_opening {w v : Bytes} (hw : w.length = 4) (hm : (bytes "[CQ:at" ++ (w ++ v)).length < npos) :
    atId (bytes "[CQ:at" ++ (w ++ v)) = if char ']' ∈ w then v else v.takeWhile (· != char ']') := by
  have hdrop := opening_append hw v
  split
  next hbw =>
    obtain ⟨x, y, rfl, hx⟩ := List.eq_append_cons_of_mem hbw
    have hassoc : bytes "[CQ:at" ++ (x ++ char ']' :: y ++ v) =
        bytes "[CQ:at" ++ x ++ char ']' :: (y ++ v) := by simp
    have hlen : (bytes "[CQ:at" ++ x).length < 10 := by
      rw [List.length_append, List.length_cons] at hw
      rw [length_opening]
      omega
    rw [hassoc] at hm hdrop ⊢
    rw [atId_early (bracket_notMem_opening hx) hlen hm, hdrop]
  next hbw =>
    by_cases hbv : char ']' ∈ v
    · obtain ⟨x, y, rfl, hx⟩ := List.eq_append_cons_of_mem hbv
      have hassoc : bytes "[CQ:at" ++ (w ++ (x ++ char ']' :: y)) =
          bytes "[CQ:at" ++ (w ++ x) ++ char ']' :: y := by simp
      have hnot : char ']' ∉ bytes "[CQ:at" ++ (w ++ x) := by
        apply bracket_notMem_opening
        rw [List.mem_append, not_or]
        exact ⟨hbw, hx⟩
      have hlen : 10 ≤ (bytes "[CQ:at" ++ (w ++ x)).length := by
        rw [length_opening, List.length_append, hw]
        omega
      rw [hassoc, atId_closed hnot hlen, opening_append hw, takeWhile_bracket hx]
    · have hnot : char ']' ∉ bytes "[CQ:at" ++ (w ++ v) := by
        apply bracket_notMem_opening
        rw [List.mem_append, not_or]
        exact ⟨hbw, hbv⟩
      rw [atId_open hnot hm, hdrop, takeWhile_unbracketed hbv]

theorem takeWhile_bracket_eq {x v : Bytes} (hx : char ']' ∉ x) :
    v.takeWhile (· != char ']') = x ↔ v = x ∨ ∃ rest, v = x ++ char ']' :: rest := by
  constructor
  · rintro rfl
    by_cases hv : char ']' ∈ v
    · obtain ⟨y, rest, rfl, hy⟩ := List.eq_append_cons_of_mem hv
      rw [takeWhile_bracket hy]
      exact .inr ⟨rest, rfl⟩
    · exact .inl (takeWhile_unbracketed hv).symm
  · rintro (rfl | ⟨rest, rfl⟩)
    · exact takeWhile_unbracketed hx
    · exact takeWhile_bracket hx rest

theorem atId_eq_iff_recognised {selfId : QId} {msg : Bytes} (hm : msg.length < npos)
    (hat : bytes "[CQ:at" <+: msg) : atId msg = decimal selfId ↔ Recognised selfId msg := by
  have hdec := bracket_notMem_decimal selfId
  constructor
  · intro h
    obtain ⟨t, rfl⟩ := hat
    have hlong : 4 ≤ t.length := by
      by_contra hlt
      apply decimal_ne_nil selfId
      rw [← h, atId_short (by rw [length_opening]; omega)]
    obtain ⟨w, v, rfl, hw⟩ : ∃ w v, t = w ++ v ∧ w.length = 4 :=
      ⟨t.take 4, t.drop 4, (List.take_append_drop 4 t).symm, by rw [List.length_take]; omega⟩
    rw [atId_opening hw hm] at h
    refine ⟨w, hw, ?_⟩
    split at h
    next hb => exact .inl (by rw [h])
    next hb =>
      rcases (takeWhile_bracket_eq hdec).mp h with rfl | ⟨rest, rfl⟩
      · exact .inl rfl
      · exact .inr ⟨hb, rest, rfl⟩
  · rintro ⟨w, hw, rfl | ⟨hb, rest, rfl⟩⟩
    · rw [atId_opening hw hm, (takeWhile_bracket_eq hdec).mpr (.inl rfl), ite_self]
    · rw [atId_opening hw hm, if_neg hb, (takeWhile_bracket_eq hdec).mpr (.inr ⟨rest, rfl⟩)]

/-- The event speaks to the bot and holds only the rest of its text. -/
def Marked (event event' : Object) (rest : Bytes) : Prop :=
  event'.find "__to_me__" = some (.boolean true) ∧ event'.find "message" = some (.string rest) ∧
    ∀ key, key ≠ "__to_me__" → key ≠ "message" → event'.find key = event.find key

def Unmarked (event event' : Object) (msg : Bytes) : Prop :=
  event'.contains "__to_me__" = false ∧ event'.find "message" = some (.string msg) ∧
    ∀ key, event'.find key = event.find key

def Proposed (botName : Bytes) (selfId : QId) (msg : Bytes) (event event' : Object) : Prop :=
  if atCode selfId <+: msg then
    Marked event event' ((msg.drop (atCode selfId).length).dropWhile (· == char ' '))
  else if botName <+: msg then Marked event event' (msg.drop botName.length)
  else Unmarked event event' msg

/-- What the block takes for a mention is one, or ends where the name of the bot
ends, and has text behind it; what it does not take for one begins with no name. -/
def MentionOk (botName : Bytes) (selfId : QId) (msg : Bytes) : Prop :=
  bytes "[CQ:at" <+: msg →
    (Recognised selfId msg → afterMention msg ≠ [] ∧
      (atCode selfId <+: msg ∨ msg = botName ++ afterMention msg)) ∧
    (¬ Recognised selfId msg → ¬ botName <+: msg)

section

variable {env : Environment} {event : Object} {selfId : QId} {msg : Bytes}

theorem startsWith_iff {s t : Bytes} : startsWith s t = true ↔ t <+: s := List.isPrefixOf_iff_prefix

theorem prePropose_recognised (hs : (member event "self_id").getUInt64 = .ok selfId)
    (hlen : msg.length < npos) (hat : bytes "[CQ:at" <+: msg) (hr : Recognised selfId msg) :
    prePropose env event msg = if afterMention msg = [] then throwing .outOfRange
      else .ok (markToMe event (afterMention msg), afterMention msg) := by
  rw [prePropose, if_pos (startsWith_iff.mpr hat),
    proposeAt, substr, if_pos (by omega), ok_bind, hs, ok_bind, ← atId,
    if_pos ((atId_eq_iff_recognised hlen hat).mpr hr), afterAt_eq hlen]
  split
  · rfl
  · rfl

theorem prePropose_unrecognised (hs : (member event "self_id").getUInt64 = .ok selfId)
    (hlen : msg.length < npos) (hat : bytes "[CQ:at" <+: msg) (hr : ¬ Recognised selfId msg) :
    prePropose env event msg = .ok (event, msg) := by
  rw [prePropose, if_pos (startsWith_iff.mpr hat),
    proposeAt, substr, if_pos (by omega), ok_bind, hs, ok_bind, ← atId,
    if_neg (fun h => hr ((atId_eq_iff_recognised hlen hat).mp h))]
  rfl

theorem prePropose_outside (hat : ¬ bytes "[CQ:at" <+: msg) :
    prePropose env event msg =
      if env.config.botName <+: msg then
        .ok (markToMe event (msg.drop env.config.botName.length), msg.drop env.config.botName.length)
      else .ok (event, msg) := by
  simp only [prePropose, startsWith_iff, if_neg hat]

theorem marked_markToMe {rest rest' : Bytes} : Marked event (markToMe event rest) rest' ↔ rest = rest' := by
  constructor
  · rintro ⟨_, hm, _⟩
    simpa [markToMe] using hm
  · rintro rfl
    refine ⟨by simp [markToMe, Object.find_set], by simp [markToMe], ?_⟩
    intro key hk hk'
    exact find_markToMe event rest hk hk'

theorem not_unmarked_markToMe {rest : Bytes} : ¬ Unmarked event (markToMe event rest) msg := by
  rintro ⟨hc, _⟩
  rw [contains_markToMe] at hc
  cases hc

theorem not_marked_self (hn : event.contains "__to_me__" = false) {rest : Bytes} :
    ¬ Marked event event rest := by
  rintro ⟨hf, _⟩
  rw [(Object.contains_iff _ _).mpr ⟨_, hf⟩] at hn
  cases hn

theorem exists_returned {p : Object → Prop} (rest : Bytes) :
    (∃ event' message, (.ok (event, rest) : Outcome (Object × Bytes)) = .ok (event', message) ∧ p event') ↔
      p event := by
  constructor
  · rintro ⟨event', message, h, hp⟩
    cases h
    exact hp
  · exact fun hp => ⟨event, rest, rfl, hp⟩

theorem proposed_markToMe {botName rest : Bytes} :
    Proposed botName selfId msg event (markToMe event rest) ↔
      (atCode selfId <+: msg ∧ rest = (msg.drop (atCode selfId).length).dropWhile (· == char ' ')) ∨
      (¬ atCode selfId <+: msg ∧ botName <+: msg ∧ rest = msg.drop botName.length) := by
  rw [Proposed]
  split
  next hcode => simp [hcode, marked_markToMe]
  next hcode =>
    split
    next hbot => simp [hcode, hbot, marked_markToMe]
    next hbot => simp [hcode, hbot, not_unmarked_markToMe]

theorem proposed_self {botName : Bytes} (hm : event.find "message" = some (.string msg))
    (hn : event.contains "__to_me__" = false) :
    Proposed botName selfId msg event event ↔ ¬ atCode selfId <+: msg ∧ ¬ botName <+: msg := by
  have hself : Unmarked event event msg := ⟨hn, hm, fun _ => rfl⟩
  rw [Proposed]
  split
  next hcode => simp [hcode, not_marked_self hn]
  next hcode =>
    split
    next hbot => simp [hbot, not_marked_self hn]
    next hbot => simp [hcode, hbot, hself]

theorem atCode_append (rest : Bytes) : atCode selfId ++ rest =
    bytes "[CQ:at" ++ (bytes ",qq=" ++ (decimal selfId ++ char ']' :: rest)) := by
  rw [atCode, List.append_assoc, List.append_assoc]
  rfl

theorem opening_of_atCode (h : atCode selfId <+: msg) : bytes "[CQ:at" <+: msg := by
  obtain ⟨rest, rfl⟩ := h
  rw [atCode_append]
  exact List.prefix_append _ _

theorem recognised_of_atCode (h : atCode selfId <+: msg) : Recognised selfId msg := by
  obtain ⟨rest, rfl⟩ := h
  exact ⟨bytes ",qq=", rfl, .inr ⟨by decide, rest, by rw [atCode_append]⟩⟩

theorem afterMention_of_atCode (h : atCode selfId <+: msg) :
    afterMention msg = (msg.drop (atCode selfId).length).dropWhile (· == char ' ') := by
  obtain ⟨rest, rfl⟩ := h
  have hb : char ']' ∉ bytes "[CQ:at" ++ (bytes ",qq=" ++ decimal selfId) := by
    apply bracket_notMem_opening
    rw [List.mem_append, not_or]
    exact ⟨by decide, bracket_notMem_decimal selfId⟩
  rw [List.drop_left, afterMention, atCode_append]
  have := afterBracket_append hb rest
  simp only [List.append_assoc] at this
  rw [this]

/-- What the block takes for a mention is one, or ends where the name of the bot
ends, and has text behind it; what it does not take for one begins with no name. -/
theorem mention_processed_iff (hm : event.find "message" = some (.string msg))
    (hs : (member event "self_id").getUInt64 = .ok selfId)
    (hn : event.contains "__to_me__" = false) (hlen : msg.length < npos) :
    (∃ event' message, prePropose env event msg = .ok (event', message) ∧
        Proposed env.config.botName selfId msg event event') ↔
      MentionOk env.config.botName selfId msg := by
  by_cases hat : bytes "[CQ:at" <+: msg
  · simp only [MentionOk, hat, true_implies]
    by_cases hr : Recognised selfId msg
    · simp only [prePropose_recognised hs hlen hat hr, hr, true_implies, not_true_eq_false,
        false_implies, and_true]
      by_cases hne : afterMention msg = []
      · simp [hne, throwing]
      · simp only [hne, if_false, exists_returned, proposed_markToMe, ne_eq, not_false_eq_true, true_and]
        by_cases hcode : atCode selfId <+: msg
        · simp [hcode, afterMention_of_atCode hcode]
        · simp only [hcode, false_and, not_false_eq_true, true_and, false_or]
          constructor
          · rintro ⟨⟨rest, rfl⟩, hrest⟩
            rw [hrest, List.drop_left]
          · intro h
            refine ⟨⟨_, h.symm⟩, ?_⟩
            have := congrArg (List.drop env.config.botName.length) h
            rw [List.drop_left] at this
            exact this.symm
    · have hcode : ¬ atCode selfId <+: msg := fun h => hr (recognised_of_atCode h)
      simp only [prePropose_unrecognised hs hlen hat hr, hr, false_implies, not_false_eq_true,
        true_implies, true_and, exists_returned, proposed_self hm hn, hcode]
  · have hcode : ¬ atCode selfId <+: msg := fun h => hat (opening_of_atCode h)
    simp only [MentionOk, hat, false_implies, iff_true, prePropose_outside hat]
    by_cases hbot : env.config.botName <+: msg
    · rw [if_pos hbot]
      exact ⟨_, _, rfl, proposed_markToMe.mpr (.inr ⟨hcode, hbot, rfl⟩)⟩
    · rw [if_neg hbot]
      exact ⟨_, _, rfl, (proposed_self hm hn).mpr ⟨hcode, hbot⟩⟩

end

def named : Environment where
  services _ := ⟨⟨Permission.normal, true, [], [], .null⟩, Permission.normal, false⟩
  config := ⟨[], [], bytes "MigangBot"⟩
  reMatch pattern message := pattern == message

def sayingTo (selfId : QId) (text : Bytes) : Object :=
  [("message_type", .string (bytes "group")), ("post_type", .string (bytes "message")),
    ("self_id", .numberUnsigned selfId), ("message", .string text)]

theorem mention_processed_iff_command :
    (∃ event' message, prePropose named (sayingTo 2418650100 (bytes "[CQ:at,qq=2418650100] /e hi"))
        (bytes "[CQ:at,qq=2418650100] /e hi") = .ok (event', message) ∧
      Proposed named.config.botName 2418650100 (bytes "[CQ:at,qq=2418650100] /e hi")
        (sayingTo 2418650100 (bytes "[CQ:at,qq=2418650100] /e hi")) event') ↔
      MentionOk named.config.botName 2418650100 (bytes "[CQ:at,qq=2418650100] /e hi") :=
  mention_processed_iff rfl rfl rfl (by decide)

/-- A message that only calls the bot ends the process. -/
theorem bare_mention_throws :
    ¬ ∀ env event selfId msg, event.find "message" = some (.string msg) →
      (member event "self_id").getUInt64 = .ok selfId → event.contains "__to_me__" = false →
        msg.length < npos → ∃ event' message, prePropose env event msg = .ok (event', message) ∧
          Proposed env.config.botName selfId msg event event' := by
  intro hall
  obtain ⟨event', message, hp, _⟩ := hall named (sayingTo 2418650100 (bytes "[CQ:at,qq=2418650100]"))
    2418650100 (bytes "[CQ:at,qq=2418650100]") rfl rfl rfl (by decide)
  have hthrows : prePropose named (sayingTo 2418650100 (bytes "[CQ:at,qq=2418650100]"))
      (bytes "[CQ:at,qq=2418650100]") = throwing .outOfRange := rfl
  rw [hthrows] at hp
  cases hp

end Recognising

end MigangBot.Mentions
