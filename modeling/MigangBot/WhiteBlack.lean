import MigangBot.Feedback
import MigangBot.Mentions
import MigangBot.StrictMode

namespace MigangBot.WhiteBlack

open Lib.Exceptions Text JsonValue ApiTypes ApiCalls Digits MessageUtility Blacklists BotManagement Feedback

section Code

variable (sqlInteger : UInt64 → Int)

/-- What the two branches of a handler are about. -/
inductive Kind
  | qq
  | group

namespace Kind

def word : Kind → Bytes
  | .qq => bytes "qq"
  | .group => bytes "group"

def mark : Kind → Bytes
  | .qq => bytes "(Q)"
  | .group => bytes "(群)"

def wrong : Kind → Bytes
  | .qq => bytes "]不是一个合法QQ号"
  | .group => bytes "]不是一个合法群号"

def missing : Kind → Bytes
  | .qq => bytes "请输入所需拉黑的qq号"
  | .group => bytes "请输入所需拉黑的群号"

def addTo : Kind → UInt64 → Bytes → Call
  | .qq => .addToQQBlackList
  | .group => .addToGroupBlackList

def delFrom : Kind → UInt64 → Call
  | .qq => .delFromQQBlackList
  | .group => .delFromGroupBlackList

def deleted (s : BlackLists) : Kind → UInt64 → Bool
  | .qq, id => (delFromQQBlackList sqlInteger s id).2
  | .group, id => (delFromGroupBlackList sqlInteger s id).2

def told (kind : Kind) (key : Bytes) (deleted : Bool) : Bytes :=
  if deleted then bytes "已将" ++ (kind.mark ++ (key ++ bytes "从黑名单移除"))
  else kind.mark ++ (key ++ bytes "未在黑名单中")

end Kind

def kindOf (key : Bytes) : Option Kind :=
  if startsWith key Kind.qq.word then some .qq else if startsWith key Kind.group.word then some .group else none

def delete (s : BlackLists) (event : Object) (key : Bytes) (kind : Kind) : Outcome (List Call × List Json) := do
  let key ← cutFront key (min key.length (findFirstNotOfFrom (char ' ') key kind.word.length))
  if !isDigitStr key then return ([], [← send event (bytes "[" ++ (key ++ kind.wrong)) true])
  else
    let id ← atoll key
    return ([kind.delFrom id], [← send event (kind.told key (kind.deleted sqlInteger s id)) false])

/-- WhiteBlack::HandleWhite, with the calls on the blacklists and those of the bot. -/
def handleWhite (s : BlackLists) (event : Object) : Outcome (List Call × List Json) := do
  let key ← optionOf event
  match kindOf key with
  | some kind => delete sqlInteger s event key kind
  | none => return ([], [← send event (bytes "参数错误:.white qq/group id") false])

def add (event : Object) (key : Bytes) (kind : Kind) : Outcome (List Call × List Json) := do
  let key ← cutFront key (min key.length (findFirstNotOfFrom (char ' ') key kind.word.length))
  let reason ← lStrip (← substrFrom key (min key.length (sizeSucc (findFirstOf (char ' ') key)))) (char ' ')
  let id ← substr key 0 (min key.length (findFirstOf (char ' ') key))
  if id = [] then return ([], [← send event kind.missing false])
  else if reason = [] then return ([], [← send event (bytes "请输入黑名单原因") false])
  else if !isDigitStr id then return ([], [← send event (bytes "[" ++ (id ++ kind.wrong)) true])
  else
    let call := kind.addTo (← atoll id) reason
    return ([call], [← send event (bytes "已将" ++ (kind.mark ++ (id ++ bytes "加入黑名单"))) false])

/-- WhiteBlack::HandleBlack. -/
def handleBlack (event : Object) : Outcome (List Call × List Json) := do
  let key ← optionOf event
  match kindOf key with
  | some kind => add event key kind
  | none => return ([], [← send event (bytes "参数错误:.black qq/group id reason") false])

end Code

section Words

/-- What stands behind a word and the spaces after it. -/
def operand (word key : Bytes) : Bytes := (key.drop word.length).dropWhile (· == char ' ')

theorem min_findFirstNotOfFrom {str : Bytes} (hlen : str.length < npos) (c : UInt8) {pos : Nat}
    (hpos : pos ≤ str.length) : min str.length (findFirstNotOfFrom c str pos) =
      pos + min (findFirstNotOf c (str.drop pos)) (str.drop pos).length := by
  rw [findFirstNotOfFrom, findFirstNotOf, List.length_drop]
  cases h : (str.drop pos).findIdx? (· != c) with
  | none =>
      simp only [Option.getD_none]
      omega
  | some i =>
      have hi : i < (str.drop pos).length := (List.findIdx?_eq_some_iff_findIdx_eq.mp h).1
      rw [List.length_drop] at hi
      simp only [Option.getD_some]
      omega

theorem cut_operand {key word : Bytes} (hlen : key.length < npos) (hword : startsWith key word = true) :
    cutFront key (min key.length (findFirstNotOfFrom (char ' ') key word.length)) = .ok (operand word key) := by
  have hle : word.length ≤ key.length := (List.isPrefixOf_iff_prefix.mp hword).length_le
  have hrest : (key.drop word.length).length < npos := by
    rw [List.length_drop]
    omega
  rw [cutFront, if_pos (min_le_left _ _), min_findFirstNotOfFrom hlen _ hle, ← List.drop_drop,
    drop_findFirstNotOf hrest]
  rfl

theorem operand_suffix (word key : Bytes) : operand word key <:+ key :=
  (List.dropWhile_suffix _).trans (List.drop_suffix _ _)

theorem length_operand_lt {key : Bytes} (hlen : key.length < npos) (word : Bytes) :
    (operand word key).length < npos :=
  (operand_suffix word key).length_le.trans_lt hlen

theorem head_dropWhile_space (w : Bytes) : (w.dropWhile (· == char ' ')).head? ≠ some (char ' ') := by
  intro h
  have hne : w.dropWhile (· == char ' ') ≠ [] := by
    intro hnil
    rw [hnil] at h
    cases h
  have hhead := List.head_dropWhile_not (· == char ' ') hne
  rw [List.head?_eq_some_head hne] at h
  rw [Option.some.inj h] at hhead
  exact absurd hhead (by decide)

/-- The first word of an operand, and what stands behind it and the spaces after it. -/
def firstWord (w : Bytes) : Bytes := w.takeWhile (· != char ' ')

def behind (w : Bytes) : Bytes := (w.dropWhile (· != char ' ')).dropWhile (· == char ' ')

/-- Nothing is trimmed off an operand any more. -/
theorem getLast_operand {word text : Bytes} (h : operand word (trim text (char ' ')) ≠ []) :
    (operand word (trim text (char ' '))).getLast h ≠ char ' ' := by
  have hsuffix := operand_suffix word (trim text (char ' '))
  have hne : trim text (char ' ') ≠ [] := by
    intro hnil
    rw [hnil] at hsuffix h
    exact h (List.suffix_nil.mp hsuffix)
  have hlast : ¬ ((trim text (char ' ')).getLast hne == char ' ') = true :=
    List.rdropWhile_last_not (· == char ' ') _ hne
  rw [hsuffix.getLast h]
  simpa using hlast

theorem behind_ne_nil {w : Bytes} (h : char ' ' ∈ w) (hne : w ≠ []) (hlast : w.getLast hne ≠ char ' ') :
    behind w ≠ [] := by
  intro hnil
  rw [behind, List.dropWhile_eq_nil_iff] at hnil
  have hrest : w.dropWhile (· != char ' ') ≠ [] := by
    rw [ne_eq, List.dropWhile_eq_nil_iff]
    intro hall
    exact absurd (hall _ h) (by simp)
  have hmem := hnil _ (List.getLast_mem hrest)
  rw [(List.dropWhile_suffix _).getLast hrest] at hmem
  exact hlast (by simpa using hmem)

theorem space_notMem_firstWord (w : Bytes) : char ' ' ∉ firstWord w := by
  intro h
  have := List.mem_takeWhile_imp h
  simp at this

/-- A numeral that a long long holds, spaces, and a reason. -/
structure Entry (w numeral reason : Bytes) : Prop where
  split : ∃ n, w = numeral ++ (List.replicate (n + 1) (char ' ') ++ reason)
  named : numeral ≠ []
  digits : isDigitStr numeral = true
  bound : digitsValue numeral < 2 ^ 63
  given : reason ≠ []
  solid : reason.head? ≠ some (char ' ')

theorem split_firstWord {numeral reason : Bytes} (hnumeral : char ' ' ∉ numeral) (n : Nat) :
    firstWord (numeral ++ (List.replicate (n + 1) (char ' ') ++ reason)) = numeral := by
  have hall : ∀ a ∈ numeral, (a != char ' ') = true := by
    intro a ha
    simpa using fun h : a = char ' ' => hnumeral (h ▸ ha)
  rw [firstWord, List.takeWhile_append_of_pos hall, List.replicate_succ, List.cons_append,
    List.takeWhile_cons_of_neg (by simp), List.append_nil]

theorem dropWhile_spaces {reason : Bytes} (hreason : reason.head? ≠ some (char ' ')) (n : Nat) :
    (List.replicate n (char ' ') ++ reason).dropWhile (· == char ' ') = reason := by
  have hspaces : ∀ a ∈ List.replicate n (char ' '), (a == char ' ') = true := by
    intro a ha
    simpa using (List.mem_replicate.mp ha).2
  rw [List.dropWhile_append_of_pos hspaces]
  cases reason with
  | nil => rfl
  | cons a rest => exact List.dropWhile_cons_of_neg (by simpa using hreason)

theorem split_behind {numeral reason : Bytes} (hnumeral : char ' ' ∉ numeral)
    (hreason : reason.head? ≠ some (char ' ')) (n : Nat) :
    behind (numeral ++ (List.replicate (n + 1) (char ' ') ++ reason)) = reason := by
  have hall : ∀ a ∈ numeral, (a != char ' ') = true := by
    intro a ha
    simpa using fun h : a = char ' ' => hnumeral (h ▸ ha)
  have hfront : (List.replicate (n + 1) (char ' ') ++ reason).dropWhile (· != char ' ') =
      List.replicate (n + 1) (char ' ') ++ reason := by
    rw [List.replicate_succ, List.cons_append, List.dropWhile_cons_of_neg (by simp)]
  rw [behind, List.dropWhile_append_of_pos hall, hfront, dropWhile_spaces hreason]

theorem exists_split {w : Bytes} (h : char ' ' ∈ w) :
    ∃ n, w = firstWord w ++ (List.replicate (n + 1) (char ' ') ++ behind w) := by
  have hrest : w.dropWhile (· != char ' ') ≠ [] := by
    rw [ne_eq, List.dropWhile_eq_nil_iff]
    intro hall
    exact absurd (hall _ h) (by simp)
  obtain ⟨a, rest, hcons⟩ := List.exists_cons_of_ne_nil hrest
  have ha : a = char ' ' := by
    have hhead := List.head_dropWhile_not (· != char ' ') hrest
    simpa [hcons] using hhead
  subst ha
  have hspaces : rest.takeWhile (· == char ' ') =
      List.replicate (rest.takeWhile (· == char ' ')).length (char ' ') := by
    rw [List.eq_replicate_iff]
    exact ⟨rfl, fun b hb => by simpa using List.mem_takeWhile_imp hb⟩
  refine ⟨(rest.takeWhile (· == char ' ')).length, ?_⟩
  rw [List.replicate_succ, ← hspaces, behind, hcons, List.dropWhile_cons_of_pos (by simp), List.cons_append,
    List.takeWhile_append_dropWhile, ← hcons, firstWord, List.takeWhile_append_dropWhile]

theorem entry_iff {w numeral reason : Bytes} : Entry w numeral reason ↔
    numeral = firstWord w ∧ reason = behind w ∧ char ' ' ∈ w ∧ firstWord w ≠ [] ∧ isDigitStr (firstWord w) = true ∧
      digitsValue (firstWord w) < 2 ^ 63 ∧ behind w ≠ [] := by
  constructor
  · intro h
    obtain ⟨n, rfl⟩ := h.split
    have hspace := space_notMem h.digits
    rw [split_firstWord hspace, split_behind hspace h.solid]
    exact ⟨rfl, rfl, by simp, h.named, h.digits, h.bound, h.given⟩
  · intro h
    obtain ⟨rfl, rfl, hspace, hne, hdigits, hbound, hreason⟩ := h
    exact ⟨exists_split hspace, hne, hdigits, hbound, hreason, head_dropWhile_space _⟩

end Words

section Performing

/-- A handler returns, and makes the one call on the blacklists that is wanted, if any. -/
def Performs (x : Outcome (List Call × List Json)) (wanted : Call → Prop) : Prop :=
  ∃ calls told, x = .ok (calls, told) ∧ calls.length ≤ 1 ∧ ∀ call, call ∈ calls ↔ wanted call

variable {x : Outcome (List Call × List Json)} {wanted : Call → Prop} {told : List Json}

theorem performs_none (h : x = .ok ([], told)) : Performs x wanted ↔ ∀ call, ¬ wanted call := by
  subst h
  constructor
  · intro h call hcall
    obtain ⟨calls, _, heq, _, hiff⟩ := h
    cases heq
    exact absurd ((hiff call).mpr hcall) List.not_mem_nil
  · intro h
    exact ⟨[], told, rfl, Nat.zero_le _, fun call => iff_of_false List.not_mem_nil (h call)⟩

theorem performs_one {c : Call} (h : x = .ok ([c], told)) : Performs x wanted ↔ ∀ call, call = c ↔ wanted call := by
  subst h
  simp only [← List.mem_singleton]
  constructor
  · intro h
    obtain ⟨calls, _, heq, _, hiff⟩ := h
    cases heq
    exact hiff
  · intro h
    exact ⟨[c], told, rfl, le_rfl, h⟩

theorem not_performs_undefined (h : x = .error .undefined) : ¬ Performs x wanted := by
  intro hx
  obtain ⟨calls, _, heq, _⟩ := hx
  cases h.symm.trans heq

end Performing

section Branches

variable {event : Object} {key : Bytes} {kind : Kind}

theorem kindOf_eq_some : kindOf key = some kind ↔ startsWith key kind.word = true := by
  rw [kindOf]
  have hqq : startsWith key Kind.qq.word = true → startsWith key Kind.group.word = false :=
    StrictMode.startsWith_exclusive (by decide) (by decide)
  cases kind with
  | qq => split <;> simp_all
  | group => split <;> simp_all

theorem kindOf_eq_none : kindOf key = none ↔ ∀ kind : Kind, startsWith key kind.word = false := by
  constructor
  · intro h kind
    rw [Bool.eq_false_iff, ne_eq, ← kindOf_eq_some, h]
    exact (Option.some_ne_none kind).symm
  · intro h
    rw [kindOf, h, h]
    rfl

theorem firstWord_eq_self {w : Bytes} (h : char ' ' ∉ w) : firstWord w = w := by
  rw [firstWord, List.takeWhile_eq_self_iff]
  intro a ha
  simpa using fun heq : a = char ' ' => h (heq ▸ ha)

/-- The reason that HandleBlack finds: without a space the position behind npos is
that of the id itself. -/
def reasonOf (w : Bytes) : Bytes := if char ' ' ∈ w then behind w else w

theorem firstWord_ne_nil {w : Bytes} (hw : w ≠ []) (hhead : w.head? ≠ some (char ' ')) : firstWord w ≠ [] := by
  obtain ⟨a, rest, rfl⟩ := List.exists_cons_of_ne_nil hw
  have ha : a ≠ char ' ' := fun h => hhead (congrArg some h)
  rw [firstWord, List.takeWhile_cons_of_pos (by simpa using ha)]
  exact List.cons_ne_nil _ _

theorem reasonOf_ne_nil {w : Bytes} (hw : w ≠ []) (hlast : w.getLast hw ≠ char ' ') : reasonOf w ≠ [] := by
  rw [reasonOf]
  split
  next h => exact behind_ne_nil h hw hlast
  next => exact hw

theorem parts_operand {w : Bytes} (hlen : w.length < npos) (hhead : w.head? ≠ some (char ' ')) :
    (substrFrom w (min w.length (sizeSucc (findFirstOf (char ' ') w))) >>= fun v => lStrip v (char ' ')) =
      .ok (reasonOf w) ∧
    substr w 0 (min w.length (findFirstOf (char ' ') w)) = .ok (firstWord w) := by
  rw [substrFrom, if_pos (min_le_left _ _), ok_bind, substr, if_pos (Nat.zero_le _), List.drop_zero, reasonOf,
    lStrip_eq (by rw [List.length_drop]; omega)]
  by_cases h : char ' ' ∈ w
  · obtain ⟨n, hsplit⟩ := exists_split h
    have hid := space_notMem_firstWord w
    have hreason : (behind w).head? ≠ some (char ' ') := head_dropWhile_space _
    rw [if_pos h]
    generalize firstWord w = id at *
    generalize behind w = reason at *
    subst hsplit
    rw [List.replicate_succ, List.cons_append] at hlen ⊢
    have hlt : id.length < (id ++ char ' ' :: (List.replicate n (char ' ') ++ reason)).length := by
      rw [List.length_append, List.length_cons]
      omega
    have hsucc : sizeSucc id.length = id.length + 1 := by
      rw [sizeSucc, Nat.mod_eq_of_lt]
      rw [npos] at hlen
      omega
    rw [Mentions.findFirstOf_append hid, hsucc, Nat.min_eq_right hlt, Nat.min_eq_right hlt.le, Nat.succ_eq_add_one,
      ← List.drop_drop, List.drop_left, List.drop_one, List.tail_cons, dropWhile_spaces hreason, List.take_left]
    exact ⟨rfl, rfl⟩
  · have hwhole : w.dropWhile (· == char ' ') = w := by
      cases w with
      | nil => rfl
      | cons a rest => exact List.dropWhile_cons_of_neg (by simpa using hhead)
    have hzero : sizeSucc npos = 0 := rfl
    rw [Mentions.findFirstOf_of_notMem h, hzero, Nat.min_zero, List.drop_zero, hwhole, if_neg h,
      Nat.min_eq_left hlen.le, List.take_length, firstWord_eq_self h]
    exact ⟨rfl, rfl⟩

/-- What HandleBlack does with the two parts of an operand. -/
theorem add_eq (hlen : key.length < npos) (hword : startsWith key kind.word = true) {w : Bytes}
    (hw : operand kind.word key = w) : add event key kind =
      if firstWord w = [] then do return ([], [← send event kind.missing false])
      else if reasonOf w = [] then do return ([], [← send event (bytes "请输入黑名单原因") false])
      else if !isDigitStr (firstWord w) then do
        return ([], [← send event (bytes "[" ++ (firstWord w ++ kind.wrong)) true])
      else do
        let call := kind.addTo (← atoll (firstWord w)) (reasonOf w)
        return ([call], [← send event (bytes "已将" ++ (kind.mark ++ (firstWord w ++ bytes "加入黑名单"))) false]) := by
  subst hw
  obtain ⟨hreason, hid⟩ := parts_operand (length_operand_lt hlen kind.word) (head_dropWhile_space _)
  rw [add, cut_operand hlen hword, ok_bind, ← bind_assoc, hreason, ok_bind, hid, ok_bind]

/-- In the whole domain: the entry is made that the operand spells, except for a lone
numeral, and for one that a long long does not hold. -/
theorem performs_add_iff (ha : Answerable event) (hlen : key.length < npos)
    (hword : startsWith key kind.word = true)
    (hlast : ∀ hne : operand kind.word key ≠ [], (operand kind.word key).getLast hne ≠ char ' ') :
    Performs (add event key kind) (fun call => ∃ numeral reason, Entry (operand kind.word key) numeral reason ∧
      call = kind.addTo (UInt64.ofNat (digitsValue numeral)) reason) ↔
    (operand kind.word key ≠ [] → isDigitStr (firstWord (operand kind.word key)) = true →
      char ' ' ∈ operand kind.word key ∧ digitsValue (firstWord (operand kind.word key)) < 2 ^ 63) := by
  have hadd := @add_eq event key kind hlen hword _ rfl
  have hhead : (operand kind.word key).head? ≠ some (char ' ') := head_dropWhile_space _
  generalize operand kind.word key = w at *
  by_cases hw : w = []
  · subst hw
    have hnone : add event key kind = .ok ([], [answerOf event kind.missing false]) := by
      have hnil : firstWord [] = [] := rfl
      rw [hadd, if_pos hnil, send_eq ha]
      rfl
    rw [performs_none hnone]
    refine iff_of_true ?_ (fun h => absurd rfl h)
    intro call h
    obtain ⟨numeral, reason, hentry, _⟩ := h
    obtain ⟨_, hsplit⟩ := hentry.split
    exact hentry.named (List.append_eq_nil_iff.mp hsplit.symm).1
  · have hfirst := firstWord_ne_nil hw hhead
    have hreason := reasonOf_ne_nil hw (hlast hw)
    rw [if_neg hfirst, if_neg hreason] at hadd
    cases hdigits : isDigitStr (firstWord w) with
    | false =>
        rw [hdigits, if_pos (by decide), send_eq ha] at hadd
        rw [performs_none hadd]
        refine iff_of_true ?_ (fun _ h => absurd h Bool.false_ne_true)
        intro call h
        obtain ⟨numeral, reason, hentry, _⟩ := h
        obtain ⟨_, _, _, _, h, _⟩ := entry_iff.mp hentry
        exact Bool.false_ne_true (hdigits.symm.trans h)
    | true =>
        rw [hdigits, if_neg (by decide), atoll] at hadd
        by_cases hbound : digitsValue (firstWord w) < 2 ^ 63
        · rw [if_pos hbound, ok_bind, send_eq ha] at hadd
          rw [performs_one hadd]
          simp only [entry_iff, hdigits, hbound, hfirst, ne_eq, not_false_eq_true, true_and, hw, forall_const, and_true]
          by_cases hspace : char ' ' ∈ w
          · rw [reasonOf, if_pos hspace] at hreason ⊢
            refine iff_of_true ?_ hspace
            intro call
            constructor
            · intro h
              exact ⟨_, _, ⟨rfl, rfl, hspace, hreason⟩, h⟩
            · intro h
              obtain ⟨_, _, ⟨rfl, rfl, _⟩, h⟩ := h
              exact h
          · refine iff_of_false ?_ hspace
            intro h
            obtain ⟨_, _, ⟨_, _, h, _⟩, _⟩ := (h _).mp rfl
            exact hspace h
        · rw [if_neg hbound] at hadd
          exact iff_of_false (not_performs_undefined hadd) fun h => hbound (h hw rfl).2

theorem delete_eq {sqlInteger : UInt64 → Int} (s : BlackLists) (hlen : key.length < npos)
    (hword : startsWith key kind.word = true) {w : Bytes} (hw : operand kind.word key = w) :
    delete sqlInteger s event key kind =
      if !isDigitStr w then do return ([], [← send event (bytes "[" ++ (w ++ kind.wrong)) true])
      else do
        let id ← atoll w
        return ([kind.delFrom id], [← send event (kind.told w (kind.deleted sqlInteger s id)) false]) := by
  subst hw
  rw [delete, cut_operand hlen hword, ok_bind]

/-- The same of HandleWhite: the entry is taken out that the operand names, except for
no operand at all, and for a numeral that a long long does not hold. -/
theorem performs_delete_iff {sqlInteger : UInt64 → Int} (s : BlackLists) (ha : Answerable event)
    (hlen : key.length < npos) (hword : startsWith key kind.word = true) :
    Performs (delete sqlInteger s event key kind) (fun call => operand kind.word key ≠ [] ∧
      isDigitStr (operand kind.word key) = true ∧
      call = kind.delFrom (UInt64.ofNat (digitsValue (operand kind.word key)))) ↔
    (isDigitStr (operand kind.word key) = true →
      operand kind.word key ≠ [] ∧ digitsValue (operand kind.word key) < 2 ^ 63) := by
  have hdelete := @delete_eq event key kind sqlInteger s hlen hword _ rfl
  generalize operand kind.word key = w at *
  cases hdigits : isDigitStr w with
  | false =>
      rw [hdigits, if_pos (by decide), send_eq ha] at hdelete
      rw [performs_none hdelete]
      refine iff_of_true ?_ (fun h => absurd h Bool.false_ne_true)
      intro call h
      exact Bool.false_ne_true h.2.1
  | true =>
      rw [hdigits, if_neg (by decide), atoll] at hdelete
      by_cases hbound : digitsValue w < 2 ^ 63
      · rw [if_pos hbound, ok_bind, send_eq ha] at hdelete
        rw [performs_one hdelete]
        simp only [hbound, true_and, and_true, forall_const]
        constructor
        · intro h
          exact ((h _).mp rfl).1
        · intro hne call
          exact ⟨fun h => ⟨hne, h⟩, fun h => h.2⟩
      · rw [if_neg hbound] at hdelete
        exact iff_of_false (not_performs_undefined hdelete) fun h => hbound (h rfl).2

end Branches

section Leaving

variable {s : BotManage} {event : Object} {option : Bytes}

theorem answerOf_ne_setGroupLeave (event : Object) (message : Bytes) (atSender : Bool) (groupId : GId) :
    setGroupLeave groupId false ≠ answerOf event message atSender := by
  rw [answerOf]
  split
  · exact fun h => absurd (callApi_inj.mp h).1 (by decide)
  · exact fun h => absurd (callApi_inj.mp h).1 (by decide)

theorem setGroupLeave_inj {g g' : GId} : setGroupLeave g false = setGroupLeave g' false ↔ g = g' := by
  simp [setGroupLeave, callApi_inj]

/-- The other options only answer. -/
theorem manage_other (ha : Answerable event) (h : startsWith option (bytes "-l") = false) :
    ∃ s' message, manage s event option = .ok (s', [answerOf event message false]) := by
  rw [manage, h]
  simp only [send_eq ha, ok_bind, Bool.false_eq_true, if_false]
  split
  · exact ⟨_, _, rfl⟩
  split
  · exact ⟨_, _, rfl⟩
  split
  · exact ⟨_, _, rfl⟩
  split
  · exact ⟨_, _, rfl⟩
  split
  · exact ⟨_, _, rfl⟩
  split
  · split
    · exact ⟨_, _, rfl⟩
    · exact ⟨_, _, rfl⟩
  · exact ⟨_, _, rfl⟩

/-- The handler returns, and leaves the group that the operand of -l names, and no other. -/
def Leaves (x : Outcome (BotManage × List Json)) (option : Bytes) : Prop :=
  ∃ s' calls, x = .ok (s', calls) ∧ ∀ groupId, setGroupLeave groupId false ∈ calls ↔
    startsWith option (bytes "-l") = true ∧ operand (bytes "-l") option ≠ [] ∧
      isDigitStr (operand (bytes "-l") option) = true ∧ groupId.toNat = digitsValue (operand (bytes "-l") option)

theorem manage_leave (hlen : option.length < npos) (hl : startsWith option (bytes "-l") = true) {w : Bytes}
    (hw : operand (bytes "-l") option = w) : manage s event option =
      if !isDigitStr w then do return (s, [← send event (bytes "请输入合法群号") false])
      else do
        let call := setGroupLeave (← atoll w) false
        return (s, [call, ← send event (bytes "已退出群[" ++ (w ++ bytes "](如果在群里的话)")) false]) := by
  subst hw
  have hne : option ≠ [] := by
    rintro rfl
    cases hl
  have hcut := cut_operand hlen hl
  have htwo : (bytes "-l").length = 2 := by decide
  rw [htwo] at hcut
  rw [manage, if_neg hne, if_pos hl, leave, hcut, ok_bind]
  split
  · rw [bind_assoc]
    rfl
  · simp only [bind_assoc]
    rfl

theorem leaves_manage_iff (ha : Answerable event) (hlen : option.length < npos) :
    Leaves (manage s event option) option ↔ (startsWith option (bytes "-l") = true →
      isDigitStr (operand (bytes "-l") option) = true →
        operand (bytes "-l") option ≠ [] ∧ digitsValue (operand (bytes "-l") option) < 2 ^ 63) := by
  rw [Leaves]
  cases hl : startsWith option (bytes "-l") with
  | false =>
      obtain ⟨s', message, hmanage⟩ := @manage_other s event option ha hl
      refine iff_of_true ⟨s', _, hmanage, fun groupId => ?_⟩ (fun h => absurd h Bool.false_ne_true)
      rw [List.mem_singleton]
      exact iff_of_false (answerOf_ne_setGroupLeave _ _ _ _) fun h => Bool.false_ne_true h.1
  | true =>
      have hmanage := @manage_leave s event option hlen hl _ rfl
      generalize operand (bytes "-l") option = w at *
      cases hdigits : isDigitStr w with
      | false =>
          rw [hdigits, if_pos (by decide), send_eq ha] at hmanage
          refine iff_of_true ⟨s, _, hmanage, fun groupId => ?_⟩ (fun _ h => absurd h Bool.false_ne_true)
          rw [List.mem_singleton]
          exact iff_of_false (answerOf_ne_setGroupLeave _ _ _ _) fun h => Bool.false_ne_true h.2.2.1
      | true =>
          rw [hdigits, if_neg (by decide), atoll] at hmanage
          by_cases hbound : digitsValue w < 2 ^ 63
          · rw [if_pos hbound, ok_bind, send_eq ha] at hmanage
            have hsize : (UInt64.ofNat (digitsValue w)).toNat = digitsValue w := by
              rw [UInt64.toNat_ofNat', Nat.mod_eq_of_lt (by omega)]
            have hcalls (groupId : GId) : setGroupLeave groupId false ∈ [setGroupLeave (UInt64.ofNat (digitsValue w)) false,
                answerOf event (bytes "已退出群[" ++ (w ++ bytes "](如果在群里的话)")) false] ↔
                  groupId.toNat = digitsValue w := by
              rw [List.mem_pair, setGroupLeave_inj, or_iff_left (answerOf_ne_setGroupLeave _ _ _ _), ← UInt64.toNat_inj,
                hsize]
            constructor
            · intro h _ _
              obtain ⟨_, _, heq, hiff⟩ := h
              cases hmanage.symm.trans heq
              exact ⟨((hiff (UInt64.ofNat (digitsValue w))).mp ((hcalls _).mpr hsize)).2.1, hbound⟩
            · intro h
              refine ⟨s, _, hmanage, fun groupId => ?_⟩
              rw [hcalls]
              exact ⟨fun hg => ⟨rfl, (h rfl rfl).1, rfl, hg⟩, fun hg => hg.2.2.2⟩
          · rw [if_neg hbound] at hmanage
            refine iff_of_false ?_ fun h => hbound (h rfl rfl).2
            intro h
            obtain ⟨_, _, heq, _⟩ := h
            cases hmanage.symm.trans heq

end Leaving

section Claim

inductive Command
  | black
  | white
  | leave

/-- What a command does with the text behind it is what the operand in it asks for. -/
def Command.Obeys (sqlInteger : UInt64 → Int) (s : BotManage) (event : Object) (key : Bytes) : Command → Prop
  | .black => Performs (handleBlack event) fun call => ∃ kind : Kind, startsWith key kind.word = true ∧
      ∃ numeral reason, Entry (operand kind.word key) numeral reason ∧
        call = kind.addTo (UInt64.ofNat (digitsValue numeral)) reason
  | .white => Performs (handleWhite sqlInteger s.lists event) fun call => ∃ kind : Kind,
      startsWith key kind.word = true ∧ operand kind.word key ≠ [] ∧ isDigitStr (operand kind.word key) = true ∧
        call = kind.delFrom (UInt64.ofNat (digitsValue (operand kind.word key)))
  | .leave => Leaves (handle s event) key

/-- No numeral is there without a reason, or is missing, or is too large. -/
def Command.Clear (key : Bytes) : Command → Prop
  | .black => ∀ kind : Kind, startsWith key kind.word = true → operand kind.word key ≠ [] →
      isDigitStr (firstWord (operand kind.word key)) = true →
        char ' ' ∈ operand kind.word key ∧ digitsValue (firstWord (operand kind.word key)) < 2 ^ 63
  | .white => ∀ kind : Kind, startsWith key kind.word = true → isDigitStr (operand kind.word key) = true →
      operand kind.word key ≠ [] ∧ digitsValue (operand kind.word key) < 2 ^ 63
  | .leave => startsWith key (bytes "-l") = true → isDigitStr (operand (bytes "-l") key) = true →
      operand (bytes "-l") key ≠ [] ∧ digitsValue (operand (bytes "-l") key) < 2 ^ 63

variable {sqlInteger : UInt64 → Int} {s : BotManage} {event : Object} {key : Bytes}

/-- Only one branch of a handler is taken. -/
theorem kind_unique {kind : Kind} (h : startsWith key kind.word = true) {P : Kind → Prop} :
    (∃ kind : Kind, startsWith key kind.word = true ∧ P kind) ↔ P kind := by
  constructor
  · intro h'
    obtain ⟨kind', hkind', hP⟩ := h'
    cases Option.some.inj ((kindOf_eq_some.mpr h).symm.trans (kindOf_eq_some.mpr hkind'))
    exact hP
  · intro hP
    exact ⟨kind, h, hP⟩

theorem clear_of_kind {kind : Kind} (h : startsWith key kind.word = true) {P : Kind → Prop} :
    (∀ kind : Kind, startsWith key kind.word = true → P kind) ↔ P kind := by
  constructor
  · intro hall
    exact hall kind h
  · intro hP kind' hkind'
    cases Option.some.inj ((kindOf_eq_some.mpr h).symm.trans (kindOf_eq_some.mpr hkind'))
    exact hP

/-- The branches of a handler taken together. -/
theorem performs_branches_iff {f : Kind → Outcome (List Call × List Json)} {otherwise : Outcome (List Call × List Json)}
    {wanted : Kind → Call → Prop} {good : Kind → Prop} {told : List Json} (hother : otherwise = .ok ([], told))
    (hbranch : ∀ kind, startsWith key kind.word = true → (Performs (f kind) (wanted kind) ↔ good kind)) :
    Performs (match kindOf key with | some kind => f kind | none => otherwise)
      (fun call => ∃ kind : Kind, startsWith key kind.word = true ∧ wanted kind call) ↔
    ∀ kind : Kind, startsWith key kind.word = true → good kind := by
  cases hkind : kindOf key with
  | none =>
      have hno := kindOf_eq_none.mp hkind
      refine (performs_none hother).trans (iff_of_true ?_ ?_)
      · intro call h
        obtain ⟨kind, hword, _⟩ := h
        exact Bool.false_ne_true ((hno kind).symm.trans hword)
      · intro kind hword
        exact absurd ((hno kind).symm.trans hword) Bool.false_ne_true
  | some kind =>
      have hword := kindOf_eq_some.mp hkind
      simp only [kind_unique hword]
      rw [clear_of_kind hword]
      exact hbranch kind hword

theorem obeys_black_iff (ha : Answerable event) {text : Bytes} (hkey : optionOf event = .ok key)
    (htrim : key = trim text (char ' ')) (hlen : key.length < npos) :
    Command.black.Obeys sqlInteger s event key ↔ Command.black.Clear key := by
  rw [Command.Obeys, Command.Clear, handleBlack, hkey, ok_bind]
  apply performs_branches_iff (by rw [send_eq ha]; rfl)
  intro kind hword
  apply performs_add_iff ha hlen hword
  subst htrim
  exact fun hne => getLast_operand hne

theorem obeys_white_iff (ha : Answerable event) (hkey : optionOf event = .ok key) (hlen : key.length < npos) :
    Command.white.Obeys sqlInteger s event key ↔ Command.white.Clear key := by
  rw [Command.Obeys, Command.Clear, handleWhite, hkey, ok_bind]
  apply performs_branches_iff (by rw [send_eq ha]; rfl)
  intro kind hword
  exact performs_delete_iff s.lists ha hlen hword

theorem obeys_leave_iff (ha : Answerable event) (hkey : optionOf event = .ok key) (hlen : key.length < npos) :
    Command.leave.Obeys sqlInteger s event key ↔ Command.leave.Clear key := by
  rw [Command.Obeys, Command.Clear, handle, hkey, ok_bind]
  exact leaves_manage_iff ha hlen

def Kind.list (s : BlackLists) : Kind → BlackList
  | .qq => s.qid
  | .group => s.gid

theorem lookup_addTo (s : BlackLists) (kind : Kind) (id : UInt64) (reason : Bytes) (id' : UInt64) :
    (kind.list (step sqlInteger s (kind.addTo id reason))).ids.lookup id' =
      if id' = id then some reason else (kind.list s).ids.lookup id' := by
  cases kind with
  | qq => exact Lib.Maps.lookup_insert_eq _ _ _ _
  | group => exact Lib.Maps.lookup_insert_eq _ _ _ _

theorem lookup_del (l : BlackList) (id id' : UInt64) :
    (l.del sqlInteger id).1.ids.lookup id' = if id' = id then none else l.ids.lookup id' := by
  rw [BlackList.del]
  split
  next => exact Lib.Maps.lookup_erase_eq _ _ _
  next h =>
    split
    next hid =>
      subst hid
      simpa using h
    next => rfl

theorem lookup_delFrom (s : BlackLists) (kind : Kind) (id id' : UInt64) :
    (kind.list (step sqlInteger s (kind.delFrom id))).ids.lookup id' =
      if id' = id then none else (kind.list s).ids.lookup id' := by
  cases kind with
  | qq => exact lookup_del _ _ _
  | group => exact lookup_del _ _ _

/-- On every text behind them the three commands do what their operand asks for
exactly when no numeral in it lacks its reason, is missing, or is too large. -/
theorem operand_obeyed_iff (ha : Answerable event) {text : Bytes} (htext : extraPlainText event = .ok text)
    (hlen : text.length < npos) :
    (∀ command : Command, command.Obeys sqlInteger s event (trim text (char ' ')) ↔
      command.Clear (trim text (char ' '))) ∧
    (∀ (lists : BlackLists) (kind : Kind) (id : UInt64) (reason : Bytes) (id' : UInt64),
      (kind.list (step sqlInteger lists (kind.addTo id reason))).ids.lookup id' =
        if id' = id then some reason else (kind.list lists).ids.lookup id') ∧
    ∀ (lists : BlackLists) (kind : Kind) (id id' : UInt64),
      (kind.list (step sqlInteger lists (kind.delFrom id))).ids.lookup id' =
        if id' = id then none else (kind.list lists).ids.lookup id' := by
  have hkey : optionOf event = .ok (trim text (char ' ')) := by
    rw [optionOf, htext, ok_bind, strip_eq_trim hlen]
  have hshort : (trim text (char ' ')).length < npos :=
    ((List.rdropWhile_prefix _ _).length_le.trans (List.dropWhile_suffix _).length_le).trans_lt hlen
  refine ⟨?_, lookup_addTo, lookup_delFrom⟩
  intro command
  cases command with
  | black => exact obeys_black_iff ha hkey rfl hshort
  | white => exact obeys_white_iff ha hkey hshort
  | leave => exact obeys_leave_iff ha hkey hshort

/-- A super user who sends some text behind a command. -/
def ordering (text : String) : Object :=
  [("post_type", .string (bytes "message")), ("message_type", .string (bytes "private")),
    ("user_id", .numberUnsigned 10001), ("message", .string (bytes ".black" ++ bytes text)),
    ("__command_size__", .numberUnsigned 6)]

theorem answerable_ordering (text : String) : Answerable (ordering text) :=
  answerable_private rfl ⟨_, rfl, rfl, by rintro _ ⟨⟩⟩

theorem operand_obeyed_iff_spam :
    Command.black.Obeys (fun id => id.toNat) StrictMode.configured (ordering " qq 12345 spam")
        (trim (bytes " qq 12345 spam") (char ' ')) ↔
      Command.black.Clear (trim (bytes " qq 12345 spam") (char ' ')) :=
  (operand_obeyed_iff (answerable_ordering _) (by decide) (by decide +kernel)).1 .black

/-- A numeral without a reason is entered with itself as the reason; and without a
numeral the id is nought. -/
theorem numeral_as_reason :
    handleBlack (ordering " qq 12345") = .ok ([.addToQQBlackList 12345 (bytes "12345")],
      [answerOf (ordering " qq 12345") (bytes "已将(Q)12345加入黑名单") false]) ∧
    ¬ Command.black.Obeys (fun id => id.toNat) StrictMode.configured (ordering " qq 12345") (bytes "qq 12345") ∧
    ¬ Command.white.Obeys (fun id => id.toNat) StrictMode.configured (ordering " qq") (bytes "qq") ∧
    ¬ Command.leave.Obeys (fun id => id.toNat) StrictMode.configured (ordering " -l") (bytes "-l") := by
  have hkey : optionOf (ordering " qq 12345") = .ok (bytes "qq 12345") := by decide
  have hlone : operand Kind.qq.word (bytes "qq 12345") = bytes "12345" := by decide
  have hadd : add (ordering " qq 12345") (bytes "qq 12345") .qq =
      .ok ([.addToQQBlackList 12345 (bytes "12345")],
        [answerOf (ordering " qq 12345") (bytes "已将(Q)12345加入黑名单") false]) := by
    have hid : firstWord (bytes "12345") = bytes "12345" := by decide
    have hreason : reasonOf (bytes "12345") = bytes "12345" := by decide
    have hnumber : atoll (bytes "12345") = .ok 12345 := by decide
    have htext : bytes "已将" ++ (Kind.qq.mark ++ (bytes "12345" ++ bytes "加入黑名单")) =
        bytes "已将(Q)12345加入黑名单" := by decide
    rw [add_eq (by decide) (by decide) hlone, hid, hreason, hnumber, ok_bind,
      if_neg (by decide), if_neg (by decide), if_neg (by decide), htext, send_eq (answerable_ordering _)]
    rfl
  refine ⟨?_, ?_, ?_, ?_⟩
  · rw [handleBlack, hkey, ok_bind, ← hadd]
    rfl
  · rw [@obeys_black_iff _ _ _ _ (answerable_ordering _) (bytes " qq 12345") hkey (by decide)
      (by decide)]
    intro h
    have hspace := (h .qq (by decide) (by decide) (by decide +kernel)).1
    rw [hlone] at hspace
    exact absurd hspace (by decide)
  · rw [obeys_white_iff (answerable_ordering _) (by decide) (by decide +kernel)]
    intro h
    exact absurd (h .qq (by decide) (by decide)).1 (by decide)
  · rw [obeys_leave_iff (answerable_ordering _) (by decide) (by decide +kernel)]
    intro h
    exact absurd (h (by decide) (by decide)).1 (by decide)

end Claim

end MigangBot.WhiteBlack
