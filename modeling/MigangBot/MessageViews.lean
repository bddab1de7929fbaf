import MigangBot.MessageHandling

namespace MigangBot.MessageViews

open Lib.Exceptions Text JsonValue ApiTypes Permission EventHandling MessageHandling

/-- What `msg` is in Handle: a view, and whether the text that it lies in is still
there. -/
structure View where
  text : Bytes
  alive : Bool

/-- The string that is made of a view. Of an empty one no byte is read. -/
def View.copy (msg : View) : Outcome Bytes :=
  if msg.alive || msg.text.isEmpty then .ok msg.text else .error .undefined

section Code

variable (h : EventHandler) (env : Environment)

/-- The event is given the rest of its text as a text of its own, and the old one is
freed with `msg` still in it. -/
def replaceText (event : Object) (msg : Bytes) : Object × View := (markToMe event msg, ⟨msg, false⟩)

def proposeAtView (event : Object) (msg : Bytes) : Outcome (Object × View) := do
  let atIdStart := min 10 msg.length
  let atIdEnd := min (findFirstOf (char ']') msg) msg.length
  let atId ← substr msg atIdStart (sizeSub atIdEnd atIdStart)
  let selfId ← (member event "self_id").getUInt64
  if atId = decimal selfId then do
    let msg ← afterAt msg
    return replaceText event msg
  else return (event, ⟨msg, true⟩)

def preProposeView (event : Object) (msg : Bytes) : Outcome (Object × View) :=
  if startsWith msg (bytes "[CQ:at") then proposeAtView event msg
  else if startsWith msg env.config.botName then .ok (replaceText event (msg.drop env.config.botName.length))
  else .ok (event, ⟨msg, true⟩)

/-- The matchers get a copy of what `msg` shows after the pre-processing. -/
def handleMessageView (event : Object) : Outcome (List Launch) := do
  let msg ← (member event "message").getString
  let messageType := first (← (member event "message_type").getString)
  let perm ← getUserPermission env.config event
  let event ← logMessage messageType event
  let (event, msg) ← preProposeView env event msg
  let message ← msg.copy
  dispatchMessage h env messageType perm message event

def handlePostTypeView (postType : UInt8) (event : Object) : Outcome (List Launch) :=
  if postType = char 's' then handleMessageView h env event else handlePostType h env postType event

/-- EventHandler::Handle with the lifetime of `msg` in it. -/
def handleView (event : Object) : Outcome (Bool × List Launch) := noexcept do
  if ← filter event then
    if event.contains "post_type" then do
      let postType ← (member event "post_type").getString
      let launches ← handlePostTypeView h env (← charAt postType 3) event
      return (true, launches)
    else return (true, [])
  else return (false, [])

end Code

variable {h : EventHandler} {env : Environment} {event event' : Object} {msg : Bytes}

theorem copy_eq_ok {v : View} {message : Bytes} :
    v.copy = .ok message ↔ message = v.text ∧ (v.alive = false → message = []) := by
  rw [View.copy]
  cases v.alive with
  | true => simp [eq_comm]
  | false =>
      by_cases hempty : v.text = []
      · simp [hempty, eq_comm]
      · simp only [Bool.false_or, List.isEmpty_iff, hempty, if_false, reduceCtorEq, true_implies, false_iff, not_and]
        rintro rfl
        exact hempty

/-- The view shows what the values would be, in a text that is there unless somebody
spoke to the bot. -/
theorem preProposeView_eq_ok {v : View} : preProposeView env event msg = .ok (event', v) ↔
    prePropose env event msg = .ok (event', v.text) ∧ (v.alive = true ↔ ¬ SpeaksTo env event msg) := by
  obtain ⟨text, alive⟩ := v
  rw [preProposeView, prePropose, SpeaksTo]
  split
  next hat =>
    have hsub : substr msg (min 10 msg.length)
        (sizeSub (min (findFirstOf (char ']') msg) msg.length) (min 10 msg.length)) = .ok (atId msg) := by
      rw [substr, if_pos (by omega), atId]
    simp only [proposeAtView, proposeAt, hsub, ok_bind]
    cases hself : (member event "self_id").getUInt64 with
    | error f => simp
    | ok selfId =>
        simp only [ok_bind, Except.ok.injEq, exists_eq_left']
        by_cases hid : atId msg = decimal selfId
        · rw [if_pos hid, if_pos hid]
          cases afterAt msg with
          | error f => simp
          | ok rest => cases alive <;> simp [replaceText, hid, pure, Except.pure]
        · rw [if_neg hid, if_neg hid]
          cases alive <;> simp [hid, pure, Except.pure]
  next hat =>
    split
    next hbot => cases alive <;> simp [replaceText, hbot]
    next hbot => cases alive <;> simp [hbot]

/-- Nothing is left of the text that speaks to the bot. -/
def Spent (env : Environment) (event : Object) : Prop :=
  ∀ message, MatchedText env event message → ∀ msg, event.find "message" = some (.string msg) →
    SpeaksTo env event msg → message = []

/-- Where Handle reads no freed memory it does what it does with values. -/
theorem handleMessageView_eq_ok {launches : List Launch} : handleMessageView h env event = .ok launches ↔
    handleMessage h env event = .ok launches ∧ Spent env event := by
  constructor
  · intro hh
    simp only [handleMessageView, bind_eq_ok, copy_eq_ok] at hh
    obtain ⟨msg, hmsg, messageType, htype, perm, hperm, logged, hlog, ⟨marked, v⟩, hmark, message,
      ⟨rfl, hcopy⟩, hh⟩ := hh
    obtain ⟨hmark, halive⟩ := preProposeView_eq_ok.mp hmark
    have hd : Dispatched h env event launches msg messageType perm logged marked v.text :=
      ⟨find_of_getString hmsg, find_of_getString htype, hperm, hlog, hmark, hh⟩
    refine ⟨?_, fun message hmatched msg' hmsg' hspeaks => ?_⟩
    · simp only [handleMessage, bind_eq_ok]
      exact ⟨msg, hmsg, messageType, htype, perm, hperm, logged, hlog, (marked, v.text), hmark, hh⟩
    · rw [hd.text, Option.some.injEq, Json.string.injEq] at hmsg'
      subst hmsg'
      rw [matchedText_unique hmatched hd.matchedText]
      apply hcopy
      rw [Bool.eq_false_iff, Ne, halive, not_not, speaksTo_congr (find_logMessage hlog (by decide))]
      exact hspeaks
  · rintro ⟨hh, hspent⟩
    simp only [handleMessage, bind_eq_ok] at hh
    obtain ⟨msg, hmsg, messageType, htype, perm, hperm, logged, hlog, ⟨marked, message⟩, hmark, hh⟩ := hh
    have hd : Dispatched h env event launches msg messageType perm logged marked message :=
      ⟨find_of_getString hmsg, find_of_getString htype, hperm, hlog, hmark, hh⟩
    classical
    have hview : preProposeView env logged msg = .ok (marked, ⟨message, decide (¬ SpeaksTo env logged msg)⟩) :=
      preProposeView_eq_ok.mpr ⟨hmark, decide_eq_true_iff⟩
    simp only [handleMessageView, bind_eq_ok, copy_eq_ok]
    refine ⟨msg, hmsg, messageType, htype, perm, hperm, logged, hlog, _, hview, message, ⟨rfl, ?_⟩, hh⟩
    intro hdead
    rw [decide_eq_false_iff_not, not_not, speaksTo_congr (find_logMessage hlog (by decide))] at hdead
    exact hspent message hd.matchedText msg hd.text hdead

theorem handlePostTypeView_eq_ok {c : UInt8} {launches : List Launch} :
    handlePostTypeView h env c event = .ok launches ↔
      handlePostType h env c event = .ok launches ∧ (c = char 's' → Spent env event) := by
  rw [handlePostTypeView]
  split
  next hc => rw [handleMessageView_eq_ok, handlePostType, if_pos hc]; simp only [hc, true_implies]
  next hc => simp only [hc, false_implies, and_true]

/-- The two readings of Handle agree but for a message that speaks to the bot and has
text left, where the code reads freed memory. -/
theorem handleView_eq_ok {r : Bool × List Launch} : handleView h env event = .ok r ↔
    handle h env event = .ok r ∧ (filter event = .ok true → IsMessage event → Spent env event) := by
  rw [handleView, handle, noexcept_eq_ok, noexcept_eq_ok]
  cases hf : filter event with
  | error f => simp
  | ok passes =>
      cases passes with
      | false => simp
      | true =>
          simp only [ok_bind, if_true, true_implies]
          by_cases hc : event.contains "post_type" = true
          · rw [if_pos hc, if_pos hc]
            simp only [bind_eq_ok, handlePostTypeView_eq_ok]
            constructor
            · rintro ⟨postType, hpost, c, hchar, launches, ⟨hl, hspent⟩, hr⟩
              refine ⟨⟨postType, hpost, c, hchar, launches, hl, hr⟩, ?_⟩
              rintro ⟨postType', hpost', hchar'⟩
              rw [find_of_getString hpost, Option.some.injEq, Json.string.injEq] at hpost'
              rw [← hpost', hchar, Except.ok.injEq] at hchar'
              exact hspent hchar'
            · rintro ⟨⟨postType, hpost, c, hchar, launches, hl, hr⟩, hspent⟩
              refine ⟨postType, hpost, c, hchar, launches, ⟨hl, fun hs => ?_⟩, hr⟩
              exact hspent ⟨postType, find_of_getString hpost, hs ▸ hchar⟩
          · rw [if_neg hc, if_neg hc]
            refine (and_iff_left ?_).symm
            rintro ⟨postType, hpost, _⟩
            exact absurd ((Object.contains_iff _ _).mpr ⟨_, hpost⟩) hc

end MigangBot.MessageViews
