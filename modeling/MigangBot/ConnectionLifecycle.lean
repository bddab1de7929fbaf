import MigangBot.Text
import MigangBot.Lib.Maps
import Mathlib.Data.List.Nodup

namespace MigangBot.ConnectionLifecycle

open Lib.Exceptions Lib.Maps Text

/-- A list of bots with its nodes named, so that an iterator is the name of a
node. -/
structure BotSet where
  bots : List (Nat × Nat)
  nextNode : Nat

def BotSet.addBot (set : BotSet) (bot : Nat) : Nat × BotSet :=
  (set.nextNode, ⟨(set.nextNode, bot) :: set.bots, set.nextNode + 1⟩)

/-- Erasing through an iterator that points to no node has no meaning. -/
def BotSet.removeBot (set : BotSet) (it : Option Nat) : Outcome BotSet :=
  match it with
  | none => .error .undefined
  | some n =>
      if n ∈ set.bots.map Prod.fst then .ok { set with bots := set.bots.filter (fun e => e.1 != n) }
      else .error .undefined

/-- The iterator is singular until the bot has run. -/
structure Bot where
  botsetIt : Option Nat

/-- Bots are named by the channel whose context they are. -/
structure Server where
  botSet : BotSet
  contexts : FiniteMap Nat Bot

def Server.initial : Server := ⟨⟨[], 0⟩, ∅⟩

inductive Event
  | onopen (channel : Nat)
  | run (channel : Nat)
  | onclose (channel : Nat)
  deriving DecidableEq

def Server.onopen (s : Server) (channel : Nat) : Server :=
  { s with contexts := s.contexts.insert channel ⟨none⟩ }

/-- The coroutine holds a plain pointer to the bot. -/
def Server.run (s : Server) (channel : Nat) : Outcome Server :=
  match s.contexts.lookup channel with
  | none => .error .undefined
  | some _ =>
      let (it, botSet) := s.botSet.addBot channel
      .ok ⟨botSet, s.contexts.insert channel ⟨some it⟩⟩

def Server.onclose (s : Server) (channel : Nat) : Outcome Server :=
  match s.contexts.lookup channel with
  | none => .ok s
  | some bot => do
      let botSet ← s.botSet.removeBot bot.botsetIt
      return ⟨botSet, s.contexts.erase channel⟩

def Server.step (s : Server) : Event → Outcome Server
  | .onopen channel => .ok (s.onopen channel)
  | .run channel => s.run channel
  | .onclose channel => s.onclose channel

def Server.execute (s : Server) (es : List Event) : Outcome Server := es.foldlM Server.step s

/-- Each channel is opened before it runs or closes, and does each of the three
at most once. -/
def Possible (past : List Event) : Event → Prop
  | .onopen c => .onopen c ∉ past
  | .run c => .onopen c ∈ past ∧ .run c ∉ past
  | .onclose c => .onopen c ∈ past ∧ .onclose c ∉ past

inductive Schedule : List Event → Prop
  | nil : Schedule []
  | snoc {es : List Event} {e : Event} : Schedule es → Possible es e → Schedule (es ++ [e])

/-- The bots in the set are those that have run and are not destroyed, each
once, and each live one holds the iterator of its own node. -/
structure Exact (es : List Event) (s : Server) : Prop where
  members : ∀ c, c ∈ s.botSet.bots.map Prod.snd ↔ .run c ∈ es ∧ .onclose c ∉ es
  distinct : (s.botSet.bots.map Prod.snd).Nodup
  live : ∀ c, (∃ bot, s.contexts.lookup c = some bot) ↔ .onopen c ∈ es ∧ .onclose c ∉ es
  iterators : ∀ c bot, s.contexts.lookup c = some bot →
    match bot.botsetIt with
    | some n => (n, c) ∈ s.botSet.bots
    | none => .run c ∉ es

/-- In every state reached. -/
def Kept (es : List Event) : Prop :=
  ∀ pre, pre <+: es → ∃ s, Server.initial.execute pre = .ok s ∧ Exact pre s

def RunBeforeClose (es : List Event) : Prop :=
  ∀ pre c, pre ++ [.onclose c] <+: es → .run c ∈ pre

/-- The bookkeeping from which the set's contents follow. -/
structure Inv (es : List Event) (s : Server) : Prop where
  live : ∀ c, (∃ bot, s.contexts.lookup c = some bot) ↔ .onopen c ∈ es ∧ .onclose c ∉ es
  iterators : ∀ c bot, s.contexts.lookup c = some bot →
    match bot.botsetIt with
    | some n => (n, c) ∈ s.botSet.bots ∧ .run c ∈ es
    | none => .run c ∉ es
  nodes : (s.botSet.bots.map Prod.fst).Nodup
  owners : ∀ n c, (n, c) ∈ s.botSet.bots → n < s.botSet.nextNode ∧ s.contexts.lookup c = some ⟨some n⟩

theorem Schedule.opened {es : List Event} (h : Schedule es) {c : Nat} (hc : .run c ∈ es ∨ .onclose c ∈ es) :
    .onopen c ∈ es := by
  induction h with
  | nil => rcases hc with hc | hc <;> cases hc
  | @snoc es e _ hp ih =>
      simp only [List.mem_append, List.mem_singleton] at hc
      refine List.mem_append_left _ ?_
      rcases hc with (hc | rfl) | (hc | rfl)
      · exact ih (.inl hc)
      · exact hp.1
      · exact ih (.inr hc)
      · exact hp.1

theorem inv_initial : Inv [] Server.initial where
  live c := by simp [Server.initial]
  iterators c bot h := by simp [Server.initial] at h
  nodes := .nil
  owners n c h := by cases h

theorem Inv.onopen {es : List Event} {s : Server} (h : Inv es s) (hs : Schedule es) {c : Nat}
    (hp : .onopen c ∉ es) : Inv (es ++ [.onopen c]) (s.onopen c) := by
  have hrun : .run c ∉ es := fun hr => hp (hs.opened (.inl hr))
  have hclose : .onclose c ∉ es := fun hc => hp (hs.opened (.inr hc))
  refine ⟨fun c' => ?_, fun c' bot hl => ?_, h.nodes, fun n c' hm => ?_⟩
  · simp only [Server.onopen, lookup_insert_eq, List.mem_append, List.mem_singleton, reduceCtorEq, or_false,
      Event.onopen.injEq]
    by_cases hc : c' = c
    · subst hc
      simp [hclose]
    · simp only [hc, if_false, or_false]
      exact h.live c'
  · simp only [Server.onopen, lookup_insert_eq] at hl
    by_cases hc : c' = c
    · rw [if_pos hc] at hl
      cases hl
      subst hc
      simpa using hrun
    · rw [if_neg hc] at hl
      have hi := h.iterators c' bot hl
      simp only [List.mem_append, List.mem_singleton, reduceCtorEq, or_false]
      exact hi
  · obtain ⟨hlt, hl⟩ := h.owners n c' hm
    refine ⟨hlt, ?_⟩
    rw [Server.onopen, lookup_insert_eq, if_neg, hl]
    rintro rfl
    exact hp (((h.live c').mp ⟨_, hl⟩).1)

theorem Inv.run {es : List Event} {s : Server} (h : Inv es s) {c : Nat} (hopen : .onopen c ∈ es)
    (hnew : .run c ∉ es) (hclose : .onclose c ∉ es) :
    ∃ t, s.run c = .ok t ∧ Inv (es ++ [.run c]) t := by
  obtain ⟨bot, hbot⟩ := (h.live c).mpr ⟨hopen, hclose⟩
  refine ⟨_, by rw [Server.run, hbot], fun c' => ?_, fun c' bot' hl => ?_, ?_, fun n c' hm => ?_⟩
  · simp only [lookup_insert_eq, List.mem_append, List.mem_singleton, reduceCtorEq, or_false]
    by_cases hc : c' = c
    · subst hc
      simp [hopen, hclose]
    · rw [if_neg hc]
      exact h.live c'
  · simp only [lookup_insert_eq] at hl
    by_cases hc : c' = c
    · rw [if_pos hc] at hl
      cases hl
      subst hc
      exact ⟨List.mem_cons_self, List.mem_append_right _ List.mem_cons_self⟩
    · rw [if_neg hc] at hl
      have hi := h.iterators c' bot' hl
      split at hi
      next n hn =>
        exact ⟨List.mem_cons_of_mem _ hi.1, List.mem_append_left _ hi.2⟩
      next hn =>
        simp only [List.mem_append, List.mem_singleton, Event.run.injEq, hc, or_false]
        exact hi
  · simp only [BotSet.addBot, List.map_cons, List.nodup_cons]
    refine ⟨fun hm => ?_, h.nodes⟩
    obtain ⟨⟨n, c'⟩, hm, hn⟩ := List.mem_map.mp hm
    exact absurd (h.owners n c' hm).1 (hn ▸ Nat.lt_irrefl _)
  · simp only [BotSet.addBot] at hm ⊢
    rcases List.mem_cons.mp hm with heq | hm
    · cases heq
      exact ⟨Nat.lt_succ_self _, by rw [lookup_insert_eq, if_pos rfl]⟩
    · obtain ⟨hlt, hl⟩ := h.owners n c' hm
      refine ⟨Nat.lt_succ_of_lt hlt, ?_⟩
      rw [lookup_insert_eq, if_neg, hl]
      rintro rfl
      have hi := h.iterators c' _ hl
      exact hnew hi.2

theorem Inv.onclose {es : List Event} {s : Server} (h : Inv es s) {c : Nat} (hopen : .onopen c ∈ es)
    (hrun : .run c ∈ es) (hnew : .onclose c ∉ es) :
    ∃ t, s.onclose c = .ok t ∧ Inv (es ++ [.onclose c]) t := by
  obtain ⟨bot, hbot⟩ := (h.live c).mpr ⟨hopen, hnew⟩
  have hi := h.iterators c bot hbot
  cases hn : bot.botsetIt with
  | none =>
      rw [hn] at hi
      exact absurd hrun hi
  | some n =>
      rw [hn] at hi
      have hmem : n ∈ s.botSet.bots.map Prod.fst := List.mem_map_of_mem hi.1
      refine ⟨_, by rw [Server.onclose, hbot]; simp only [hn, BotSet.removeBot, if_pos hmem]; rfl,
        fun c' => ?_, fun c' bot' hl => ?_, ?_, fun n' c' hm => ?_⟩
      · simp only [lookup_erase_eq, List.mem_append, List.mem_singleton, reduceCtorEq, or_false,
          Event.onclose.injEq]
        by_cases hc : c' = c
        · simp [hc]
        · simp only [hc, if_false, or_false]
          exact h.live c'
      · simp only [lookup_erase_eq] at hl
        by_cases hc : c' = c
        · rw [if_pos hc] at hl
          cases hl
        · rw [if_neg hc] at hl
          have hi' := h.iterators c' bot' hl
          split at hi'
          next n' hn' =>
            refine ⟨List.mem_filter.mpr ⟨hi'.1, ?_⟩, List.mem_append_left _ hi'.2⟩
            rw [bne_iff_ne]
            rintro rfl
            have heq := List.inj_on_of_nodup_map h.nodes hi.1 hi'.1 rfl
            exact hc (congrArg Prod.snd heq).symm
          next hn' =>
            simp only [List.mem_append, List.mem_singleton, reduceCtorEq, or_false]
            exact hi'
      · exact h.nodes.sublist (List.filter_sublist.map _)
      · obtain ⟨hm, hne⟩ := List.mem_filter.mp hm
        obtain ⟨hlt, hl⟩ := h.owners n' c' hm
        refine ⟨hlt, ?_⟩
        rw [lookup_erase_eq, if_neg, hl]
        rintro rfl
        rw [hbot] at hl
        cases hl
        cases hn
        simp at hne

theorem Inv.exact {es : List Event} {s : Server} (h : Inv es s) (hs : Schedule es) : Exact es s := by
  refine ⟨fun c => ⟨fun hm => ?_, fun hm => ?_⟩, ?_, h.live, fun c bot hl => ?_⟩
  · obtain ⟨⟨n, c'⟩, he, rfl⟩ := List.mem_map.mp hm
    have hl := (h.owners n c' he).2
    have hi := h.iterators c' _ hl
    exact ⟨hi.2, ((h.live c').mp ⟨_, hl⟩).2⟩
  · obtain ⟨bot, hl⟩ := (h.live c).mpr ⟨hs.opened (.inl hm.1), hm.2⟩
    have hi := h.iterators c bot hl
    split at hi
    next n hn => exact List.mem_map.mpr ⟨(n, c), hi.1, rfl⟩
    next hn => exact absurd hm.1 hi
  · refine h.nodes.of_map.map_on fun e he e' he' heq => ?_
    have hl := (h.owners e.1 e.2 he).2
    have hl' := (h.owners e'.1 e'.2 he').2
    rw [heq, hl'] at hl
    exact Prod.ext (Option.some.inj (Bot.mk.inj (Option.some.inj hl))).symm heq
  · have hi := h.iterators c bot hl
    split at hi
    next n hn => exact hi.1
    next hn => exact hi

theorem execute_append (s : Server) (es : List Event) (e : Event) :
    s.execute (es ++ [e]) = s.execute es >>= fun t => t.step e := by
  simp only [Server.execute, List.foldlM_append, List.foldlM_cons, List.foldlM_nil, bind_pure]

theorem RunBeforeClose.of_prefix {es es' : List Event} (h : RunBeforeClose es) (hp : es' <+: es) :
    RunBeforeClose es' :=
  fun pre c hpre => h pre c (hpre.trans hp)

theorem Schedule.of_prefix {es es' : List Event} (h : Schedule es) (hp : es' <+: es) : Schedule es' := by
  induction h with
  | nil => exact List.prefix_nil.mp hp ▸ .nil
  | @snoc es e h he ih =>
      rcases List.prefix_concat_iff.mp hp with rfl | hp
      · exact .snoc h he
      · exact ih hp

/-- A bot that ran once and is closed was already run when it was closed. -/
theorem RunBeforeClose.not_closed {es : List Event} (h : RunBeforeClose es) {c : Nat}
    (hr : .run c ∉ es) : .onclose c ∉ es := by
  intro hc
  obtain ⟨pre, post, rfl⟩ := List.append_of_mem hc
  have := h pre c ⟨post, by simp⟩
  exact hr (List.mem_append_left _ this)

theorem Schedule.executes {es : List Event} (h : Schedule es) (hrb : RunBeforeClose es) :
    ∃ s, Server.initial.execute es = .ok s ∧ Inv es s := by
  induction h with
  | nil => exact ⟨_, rfl, inv_initial⟩
  | @snoc es e h he ih =>
      have hrb' := hrb.of_prefix (List.prefix_append es [e])
      obtain ⟨s, hs, hinv⟩ := ih hrb'
      simp only [execute_append, hs, ok_bind]
      cases e with
      | onopen c => exact ⟨_, rfl, hinv.onopen h he⟩
      | run c => exact hinv.run he.1 he.2 (hrb'.not_closed he.2)
      | onclose c => exact hinv.onclose he.1 (hrb es c List.prefix_rfl) he.2

theorem Inv.onclose_ran {es : List Event} {s t : Server} (h : Inv es s) {c : Nat} (hopen : .onopen c ∈ es)
    (hnew : .onclose c ∉ es) (ht : s.onclose c = .ok t) : .run c ∈ es := by
  obtain ⟨bot, hbot⟩ := (h.live c).mpr ⟨hopen, hnew⟩
  have hi := h.iterators c bot hbot
  split at hi
  next n hn => exact hi.2
  next hn => simp [Server.onclose, hbot, hn, BotSet.removeBot, bind, Except.bind] at ht

theorem Schedule.ran_before_close {es : List Event} {s : Server} (h : Schedule es)
    (hs : Server.initial.execute es = .ok s) : RunBeforeClose es := by
  induction h generalizing s with
  | nil => exact fun pre c hp => absurd (List.prefix_nil.mp hp) (by simp)
  | @snoc es e h he ih =>
      rw [execute_append] at hs
      obtain ⟨t, ht, hstep⟩ := bind_eq_ok.mp hs
      have hrb := ih ht
      intro pre c hp
      rcases List.prefix_concat_iff.mp hp with heq | hp
      · obtain ⟨rfl, hc⟩ := List.append_inj' heq rfl
        cases hc
        obtain ⟨t', ht', hinv⟩ := h.executes hrb
        cases ht.symm.trans ht'
        exact hinv.onclose_ran he.1 he.2 hstep
      · exact hrb pre c hp

theorem bot_set_exact_iff {es : List Event} (h : Schedule es) : Kept es ↔ RunBeforeClose es := by
  constructor
  · intro hk
    obtain ⟨s, hs, -⟩ := hk es List.prefix_rfl
    exact h.ran_before_close hs
  · intro hrb pre hp
    have hpre := h.of_prefix hp
    obtain ⟨s, hs, hinv⟩ := hpre.executes (hrb.of_prefix hp)
    exact ⟨s, hs, hinv.exact hpre⟩

/-- Two connections, the first closed while the second stays. -/
theorem bot_set_exact_two : Kept [.onopen 0, .onopen 1, .run 1, .run 0, .onclose 0] := by
  have hs : Schedule [.onopen 0, .onopen 1, .run 1, .run 0, .onclose 0] := by
    refine .snoc (.snoc (.snoc (.snoc (.snoc .nil ?_) ?_) ?_) ?_) ?_ <;> simp [Possible]
  refine (bot_set_exact_iff hs).mpr fun pre c hp => ?_
  rcases pre with _ | ⟨_, _ | ⟨_, _ | ⟨_, _ | ⟨_, _ | ⟨_, pre⟩⟩⟩⟩⟩ <;> simp at hp ⊢
  obtain ⟨rfl, rfl, rfl, rfl, rfl⟩ := hp
  simp

/-- The socket is closed before the coroutine starts: the destructor hands over
an iterator that no AddBot returned. -/
theorem closed_before_run : Schedule [.onopen 0, .onclose 0] ∧
    Server.initial.execute [.onopen 0, .onclose 0] = .error .undefined ∧ ¬ Kept [.onopen 0, .onclose 0] := by
  have hs : Schedule [.onopen 0, .onclose 0] :=
    .snoc (.snoc .nil (by simp [Possible])) (by simp [Possible])
  refine ⟨hs, rfl, fun hk => ?_⟩
  obtain ⟨s, he, -⟩ := hk _ List.prefix_rfl
  cases he

end MigangBot.ConnectionLifecycle
