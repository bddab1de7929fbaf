import MigangBot.BilibiliParser
import MigangBot.Lib.Runs

namespace MigangBot.BilibiliRepetition

open Lib.Exceptions Lib.Expiry Lib.Runs Text ApiTypes MessageUtility BilibiliParser

/-- A message with details that went to a group: for which address, with which link,
when, and whether out of bcache. -/
structure Sent where
  groupId : GId
  url : Bytes
  link : Bytes
  time : Nat
  cached : Bool

structure State where
  redis : Redis
  log : List Sent
  clock : Nat

section Turns

def recorded (r : Request) : Said → Outcome (List Sent)
  | .nothing => return []
  | .notice _ => return []
  | .cached details => do return [⟨r.groupId, ← rStrip r.url (char ' '), details.link, r.finish, true⟩]
  | .fetched details => do return [⟨r.groupId, ← rStrip r.url (char ' '), details.link, r.finish, false⟩]

def turn (s : State) (r : Request) : Outcome State := do
  let (redis, said) ← handleUrl s.redis r
  return ⟨redis, s.log ++ (← recorded r said), r.finish⟩

/-- The loop of Parser. -/
def parser (s : State) : List Request → Outcome State
  | [] => return s
  | r :: rs => do parser (← turn s r) rs

structure Step (s : State) (r : Request) (t : State) : Prop where
  begun : s.clock ≤ r.start
  ended : r.start ≤ r.finish
  turned : turn s r = .ok t

/-- Each address is handled after the one before it. -/
def InTurn : Nat → List Request → Prop
  | _, [] => True
  | clock, r :: rs => clock ≤ r.start ∧ r.start ≤ r.finish ∧ InTurn r.finish rs

variable {s t : State}

theorem Step.unique {r : Request} {t' : State} (h : Step s r t) (h' : Step s r t') : t = t' :=
  Except.ok.inj (h.turned.symm.trans h'.turned)

theorem clock_turn {r : Request} (h : turn s r = .ok t) : t.clock = r.finish := by
  obtain ⟨_, _, h⟩ := bind_eq_ok.mp h
  obtain ⟨_, _, h⟩ := bind_eq_ok.mp h
  cases h
  rfl

/-- Parsers that run one after the other make a run of their turns. -/
theorem run_of_turns {rs : List Request} (htime : InTurn s.clock rs) (h : parser s rs = .ok t) :
    Run Step s rs t := by
  induction rs generalizing s with
  | nil =>
      cases h
      exact .nil _
  | cons r rs ih =>
      obtain ⟨u, hturn, h⟩ := bind_eq_ok.mp h
      obtain ⟨hbegun, hended, htime⟩ := htime
      rw [← clock_turn hturn] at htime
      exact .cons ⟨hbegun, hended, hturn⟩ (ih htime h)

theorem exists_run {rs : List Request} {p : State → Bool} (htime : InTurn s.clock rs)
    (h : (parser s rs).toOption.any p) : ∃ t, Run Step s rs t ∧ p t := by
  cases hparser : parser s rs with
  | error e =>
      rw [hparser] at h
      cases h
  | ok t =>
      rw [hparser] at h
      exact ⟨t, run_of_turns htime hparser, h⟩

end Turns

section Branches

variable (s : Redis) (r : Request)

/-- The link that the answer of the web leads to, and when it is looked for. -/
def webLink (url : Bytes) : Kind → Option (Bytes × Nat)
  | .video => r.web.video.map fun info => (videoLink url info, r.finish)
  | .bangumi => r.web.bangumi.map fun page => (bangumiLink url page, r.finish)
  | .live =>
      match r.web.live with
      | .found _ => (liveLink url).map fun link => (link, r.start)
      | _ => none

/-- An address that is not looked up as a repetition and is in bcache. -/
structure FromCache (url : Bytes) (details : Details) : Prop where
  free : isInCache s r.start r.url r.groupId = false
  bare : rStrip r.url (char ' ') = .ok url
  known : kindOf url ≠ none
  entry : getFromCache s r.start url = some details

def Fresh (url : Bytes) (kind : Kind) (link : Bytes) : Prop :=
  ∃ time, webLink r url kind = some (link, time) ∧ isInCache s time link r.groupId = false

/-- One that is not in bcache, with a link that is no repetition either. -/
structure FromWeb (url : Bytes) (kind : Kind) (link : Bytes) : Prop where
  free : isInCache s r.start r.url r.groupId = false
  bare : rStrip r.url (char ' ') = .ok url
  known : kindOf url = some kind
  entry : getFromCache s r.start url = none
  fresh : Fresh s r url kind link

/-- Nothing that is said is details. -/
def Quiet (result : Redis × Said) : Prop :=
  result = (s, .nothing) ∨ ∃ link text, result = (addInCacheNotRepeat s r.finish link r.groupId, .notice text)

def detail (url : Bytes) : Kind → Outcome (Redis × Said)
  | .video => videoDetail s r url
  | .bangumi => bangumiDetail s r url
  | .live => liveSummary s r url

variable {s r} {url : Bytes} {result : Redis × Said}

theorem extractDetails_eq {kind : Kind} (h : kindOf url = some kind) :
    extractDetails s r url = throughCache s r url (detail s r url kind) := by
  rw [extractDetails, h]
  cases kind <;> rfl

/-- Where the link is looked for, whatever comes behind. -/
theorem cases_of_link {kind : Kind} {link : Bytes} {time : Nat} {msg : Outcome Bytes}
    (hlink : webLink r url kind = some (link, time))
    (h : (if isInCache s time link r.groupId then return (s, .nothing) else return remember s r url link (← msg)) =
      Except.ok result) :
    (∃ link msg, Fresh s r url kind link ∧ result = remember s r url link msg) ∨
      (∀ link, ¬ Fresh s r url kind link) ∧ Quiet s r result := by
  split at h
  next hfound =>
    refine .inr ⟨?_, .inl (Except.ok.inj h).symm⟩
    rintro link' ⟨time', hlink', hfree⟩
    cases hlink.symm.trans hlink'
    rw [hfound] at hfree
    cases hfree
  next hfree =>
    obtain ⟨text, _, h⟩ := bind_eq_ok.mp h
    exact .inl ⟨link, text, ⟨time, hlink, Bool.eq_false_iff.mpr hfree⟩, (Except.ok.inj h).symm⟩

theorem not_fresh_of_none {kind : Kind} (h : webLink r url kind = none) (link : Bytes) :
    ¬ Fresh s r url kind link := by
  rintro ⟨time, hlink, _⟩
  rw [h] at hlink
  cases hlink

/-- A live room is asked for behind the look at the link, and may not be there. -/
theorem liveSummary_cases (h : liveSummary s r url = .ok result) :
    (∃ link msg, Fresh s r url .live link ∧ result = remember s r url link msg) ∨
      (∀ link, ¬ Fresh s r url .live link) ∧ Quiet s r result := by
  rw [liveSummary] at h
  cases hlink : liveLink url with
  | none =>
      rw [hlink] at h
      have hweb : webLink r url .live = none := by
        rw [webLink, hlink]
        split <;> rfl
      exact .inr ⟨not_fresh_of_none hweb, .inl (Except.ok.inj h).symm⟩
  | some link =>
      rw [hlink] at h
      cases hlive : r.web.live with
      | missing =>
          have hweb : webLink r url .live = none := by rw [webLink, hlive]
          refine .inr ⟨not_fresh_of_none hweb, ?_⟩
          rw [hlive] at h
          dsimp only at h
          split at h
          · exact .inl (Except.ok.inj h).symm
          · exact .inr ⟨link, _, (Except.ok.inj h).symm⟩
      | failed =>
          have hweb : webLink r url .live = none := by rw [webLink, hlive]
          refine .inr ⟨not_fresh_of_none hweb, .inl ?_⟩
          rw [hlive] at h
          dsimp only at h
          split at h
          · exact (Except.ok.inj h).symm
          · exact (Except.ok.inj h).symm
      | found info =>
          have hweb : webLink r url .live = some (link, r.start) := by
            rw [webLink, hlive, hlink]
            rfl
          rw [hlive] at h
          exact @cases_of_link _ _ _ _ _ _ _ (.ok _) hweb h

theorem detail_cases {kind : Kind} (h : detail s r url kind = .ok result) :
    (∃ link msg, Fresh s r url kind link ∧ result = remember s r url link msg) ∨
      (∀ link, ¬ Fresh s r url kind link) ∧ Quiet s r result := by
  cases kind with
  | video =>
      rw [detail, videoDetail] at h
      cases hinfo : r.web.video with
      | none =>
          rw [hinfo] at h
          exact .inr ⟨not_fresh_of_none (by rw [webLink, hinfo]; rfl), .inl (Except.ok.inj h).symm⟩
      | some info =>
          rw [hinfo] at h
          exact cases_of_link (by rw [webLink, hinfo]; rfl) h
  | bangumi =>
      rw [detail, bangumiDetail] at h
      cases hpage : r.web.bangumi with
      | none =>
          rw [hpage] at h
          exact .inr ⟨not_fresh_of_none (by rw [webLink, hpage]; rfl), .inl (Except.ok.inj h).symm⟩
      | some page =>
          rw [hpage] at h
          exact cases_of_link (by rw [webLink, hpage]; rfl) h
  | live => exact liveSummary_cases h

/-- The three ways that the turn of an address goes. -/
inductive Handled (s : Redis) (r : Request) : Redis × Said → Prop
  | cached {url : Bytes} {details : Details} : FromCache s r url details →
      Handled s r (addInCacheNotRepeat s r.finish url r.groupId, .cached details)
  | fetched {url link msg : Bytes} {kind : Kind} : FromWeb s r url kind link →
      Handled s r (remember s r url link msg)
  | quiet {result : Redis × Said} : (∀ url details, ¬ FromCache s r url details) →
      (∀ url kind link, ¬ FromWeb s r url kind link) → Quiet s r result → Handled s r result

theorem handled_of_handleUrl (h : handleUrl s r = .ok result) : Handled s r result := by
  rw [handleUrl] at h
  split at h
  next hfound =>
    refine .quiet ?_ ?_ (.inl (Except.ok.inj h).symm)
    · intro url details hcache
      exact absurd (hcache.free.symm.trans hfound) (by decide)
    · intro url kind link hweb
      exact absurd (hweb.free.symm.trans hfound) (by decide)
  next hfree =>
    obtain ⟨url, hbare, h⟩ := bind_eq_ok.mp h
    have hsame {url' : Bytes} (h' : rStrip r.url (char ' ') = .ok url') : url' = url :=
      Except.ok.inj (h'.symm.trans hbare)
    have hfree := Bool.eq_false_iff.mpr hfree
    cases hkind : kindOf url with
    | none =>
        rw [extractDetails, hkind] at h
        refine .quiet ?_ ?_ (.inl (Except.ok.inj h).symm)
        · intro url' details hcache
          exact hcache.known (hsame hcache.bare ▸ hkind)
        · intro url' kind link hweb
          cases hweb.known.symm.trans (hsame hweb.bare ▸ hkind)
    | some kind =>
        rw [extractDetails_eq hkind, throughCache] at h
        cases hentry : getFromCache s r.start url with
        | some details =>
            rw [hentry] at h
            cases h
            exact .cached ⟨hfree, hbare, by rw [hkind]; exact Option.some_ne_none kind, hentry⟩
        | none =>
            rw [hentry] at h
            rcases detail_cases h with ⟨link, msg, hfresh, rfl⟩ | ⟨hstale, hquiet⟩
            · exact .fetched ⟨hfree, hbare, hkind, hentry, hfresh⟩
            · refine .quiet ?_ ?_ hquiet
              · intro url' details hcache
                obtain rfl := hsame hcache.bare
                cases hcache.entry.symm.trans hentry
              · intro url' kind' link hweb
                obtain rfl := hsame hweb.bare
                cases hweb.known.symm.trans hkind
                exact hstale link hweb.fresh

theorem FromCache.unique {url url' : Bytes} {details details' : Details} (h : FromCache s r url details)
    (h' : FromCache s r url' details') : url = url' ∧ details = details' := by
  cases h.bare.symm.trans h'.bare
  exact ⟨rfl, Option.some.inj (h.entry.symm.trans h'.entry)⟩

theorem FromWeb.unique {url url' link link' : Bytes} {kind kind' : Kind} (h : FromWeb s r url kind link)
    (h' : FromWeb s r url' kind' link') : url = url' ∧ link = link' := by
  cases h.bare.symm.trans h'.bare
  cases h.known.symm.trans h'.known
  obtain ⟨time, hlink, _⟩ := h.fresh
  obtain ⟨time', hlink', _⟩ := h'.fresh
  cases hlink.symm.trans hlink'
  exact ⟨rfl, rfl⟩

theorem FromCache.not_fromWeb {url url' link : Bytes} {details : Details} {kind : Kind}
    (h : FromCache s r url details) : ¬ FromWeb s r url' kind link := by
  intro h'
  cases h.bare.symm.trans h'.bare
  cases h.entry.symm.trans h'.entry

theorem time_of_webLink {kind : Kind} {link : Bytes} {time : Nat} (h : webLink r url kind = some (link, time)) :
    time = r.start ∨ time = r.finish := by
  cases kind with
  | video =>
      obtain ⟨info, _, h⟩ := Option.map_eq_some_iff.mp h
      cases h
      exact .inr rfl
  | bangumi =>
      obtain ⟨page, _, h⟩ := Option.map_eq_some_iff.mp h
      cases h
      exact .inr rfl
  | live =>
      rw [webLink] at h
      split at h
      · obtain ⟨link, _, h⟩ := Option.map_eq_some_iff.mp h
        cases h
        exact .inl rfl
      · cases h

end Branches

section Runs

/-- A message counts as a repetition of one with the same link in the same group, less
than kExpiredTime seconds before. -/
def Lately (e : Sent) (groupId : GId) (link : Bytes) (time : Nat) : Prop :=
  e.groupId = groupId ∧ e.link = link ∧ time < e.time + kExpiredTime

instance (e : Sent) (groupId : GId) (link : Bytes) (time : Nat) : Decidable (Lately e groupId link time) :=
  inferInstanceAs (Decidable (_ ∧ _ ∧ _))

def NoRepeat (log : List Sent) : Prop := log.Pairwise fun e f => ¬ Lately e f.groupId f.link f.time

instance (log : List Sent) : Decidable (NoRepeat log) := inferInstanceAs (Decidable (log.Pairwise _))

/-- The turn of an address does not go to a repetition: neither out of bcache, nor, with
no key for the link, from the web. -/
structure Meets (s : State) (r : Request) : Prop where
  cached : ∀ url details, FromCache s.redis r url details →
    ∀ e ∈ s.log, Lately e r.groupId details.link r.finish → e.url = r.url
  fetched : ∀ url kind link, FromWeb s.redis r url kind link →
    ∀ e ∈ s.log, Lately e r.groupId link r.finish → e.cached = true → e.url = r.url

/-- What the keys tell about a message that was sent. -/
structure Kept (s : Redis) (e : Sent) : Prop where
  url : HeldUntil s.bnotrepeat (e.groupId, e.url) (e.time + kExpiredTime)
  link : e.cached = false → HeldUntil s.bnotrepeat (e.groupId, e.link) (e.time + kExpiredTime)

structure Inv (s : State) : Prop where
  past : ∀ e ∈ s.log, e.time ≤ s.clock
  kept : ∀ e ∈ s.log, Kept s.redis e

theorem isInCache_of_held {s : Redis} {groupId : GId} {url : Bytes} {time now : Nat}
    (h : HeldUntil s.bnotrepeat (groupId, url) time) (hnow : now < time) : isInCache s now url groupId = true :=
  h now hnow

theorem Kept.add {s : Redis} {e : Sent} (h : Kept s e) {now : Nat} (hnow : e.time ≤ now) (url : Bytes) (groupId : GId) :
    Kept (addInCacheNotRepeat s now url groupId) e where
  url := h.url.set _ () (Nat.add_le_add_right hnow kExpiredTime)
  link hc := (h.link hc).set _ () (Nat.add_le_add_right hnow kExpiredTime)

theorem Kept.remember {s : Redis} {e : Sent} (h : Kept s e) {r : Request} (hnow : e.time ≤ r.finish)
    (url link msg : Bytes) : Kept (BilibiliParser.remember s r url link msg).1 e := by
  have hcached : Kept (addInCache s r.finish url ⟨msg, link⟩) e := ⟨h.url, h.link⟩
  exact (hcached.add hnow link r.groupId).add hnow url r.groupId

variable {s t : State} {r : Request}

theorem turn_cases (h : turn s r = .ok t) :
    (∃ url details, FromCache s.redis r url details ∧
      t = ⟨addInCacheNotRepeat s.redis r.finish url r.groupId,
        s.log ++ [⟨r.groupId, url, details.link, r.finish, true⟩], r.finish⟩) ∨
    (∃ url kind link msg, FromWeb s.redis r url kind link ∧
      t = ⟨(remember s.redis r url link msg).1, s.log ++ [⟨r.groupId, url, link, r.finish, false⟩], r.finish⟩) ∨
    ((∀ url details, ¬ FromCache s.redis r url details) ∧ (∀ url kind link, ¬ FromWeb s.redis r url kind link) ∧
      ∃ redis, (redis = s.redis ∨ ∃ link, redis = addInCacheNotRepeat s.redis r.finish link r.groupId) ∧
        t = ⟨redis, s.log, r.finish⟩) := by
  obtain ⟨⟨redis, said⟩, hhandled, h⟩ := bind_eq_ok.mp h
  obtain ⟨new, hnew, h⟩ := bind_eq_ok.mp h
  cases h
  cases handled_of_handleUrl hhandled with
  | cached hcache =>
      rw [recorded, hcache.bare] at hnew
      cases hnew
      exact .inl ⟨_, _, hcache, rfl⟩
  | fetched hweb =>
      rw [recorded, hweb.bare] at hnew
      cases hnew
      exact .inr (.inl ⟨_, _, _, _, hweb, rfl⟩)
  | quiet hcache hweb hquiet =>
      refine .inr (.inr ⟨hcache, hweb, redis, ?_⟩)
      rcases hquiet with hsame | ⟨link, text, hsame⟩
      · cases hsame
        cases hnew
        exact ⟨.inl rfl, by rw [List.append_nil]⟩
      · cases hsame
        cases hnew
        exact ⟨.inr ⟨link, rfl⟩, by rw [List.append_nil]⟩

theorem inv_snoc {redis : Redis} (hold : ∀ e ∈ s.log, e.time ≤ r.finish ∧ Kept redis e) {a : Sent}
    (htime : a.time = r.finish) (hnew : Kept redis a) : Inv ⟨redis, s.log ++ [a], r.finish⟩ := by
  constructor
  · intro e he
    rcases List.mem_append.mp he with he | he
    · exact (hold e he).1
    · cases List.mem_singleton.mp he
      exact htime.le
  · intro e he
    rcases List.mem_append.mp he with he | he
    · exact (hold e he).2
    · cases List.mem_singleton.mp he
      exact hnew

theorem Inv.step (hs : Inv s) (h : Step s r t) : Inv t := by
  have hpast (e : Sent) (he : e ∈ s.log) : e.time ≤ r.finish := ((hs.past e he).trans h.begun).trans h.ended
  rcases turn_cases h.turned with ⟨url, details, _, rfl⟩ | ⟨url, kind, link, msg, _, rfl⟩ | ⟨_, _, redis, hredis, rfl⟩
  · refine inv_snoc (fun e he => ⟨hpast e he, (hs.kept e he).add (hpast e he) url r.groupId⟩) rfl ⟨?_, ?_⟩
    · exact heldUntil_set _ _ () _
    · intro hc
      cases hc
  · refine inv_snoc (fun e he => ⟨hpast e he, (hs.kept e he).remember (hpast e he) url link msg⟩) rfl ⟨?_, ?_⟩
    · exact heldUntil_set _ _ () _
    · intro _
      exact (heldUntil_set _ _ () _).set _ () le_rfl
  · refine ⟨hpast, fun e he => ?_⟩
    rcases hredis with rfl | ⟨link, rfl⟩
    · exact hs.kept e he
    · exact (hs.kept e he).add (hpast e he) link r.groupId

theorem noRepeat_snoc {log : List Sent} {a : Sent} :
    NoRepeat (log ++ [a]) ↔ NoRepeat log ∧ ∀ e ∈ log, ¬ Lately e a.groupId a.link a.time := by
  rw [NoRepeat, List.pairwise_append]
  constructor
  · rintro ⟨hlog, _, hnew⟩
    exact ⟨hlog, fun e he => hnew e he a List.mem_cons_self⟩
  · rintro ⟨hlog, hnew⟩
    refine ⟨hlog, List.pairwise_singleton _ a, fun e he f hf => ?_⟩
    cases List.mem_singleton.mp hf
    exact hnew e he

/-- The key of the address as it was posted. -/
theorem ne_of_free (hs : Inv s) (h : Step s r t) (hfree : isInCache s.redis r.start r.url r.groupId = false) {e : Sent}
    (he : e ∈ s.log) {link : Bytes} (hlately : Lately e r.groupId link r.finish) : e.url ≠ r.url := by
  intro hurl
  obtain ⟨hgroup, _, htime⟩ := hlately
  have hheld := (hs.kept e he).url
  rw [hgroup, hurl] at hheld
  exact absurd (isInCache_of_held hheld (Nat.lt_of_le_of_lt h.ended htime)) (by rw [hfree]; decide)

theorem cached_of_fresh (hs : Inv s) (h : Step s r t) {url link : Bytes} {kind : Kind}
    (hfresh : Fresh s.redis r url kind link) {e : Sent} (he : e ∈ s.log) (hlately : Lately e r.groupId link r.finish) :
    e.cached = true := by
  by_contra hc
  obtain ⟨hgroup, hlink, htime⟩ := hlately
  obtain ⟨time, hweb, hfree⟩ := hfresh
  have hnow : time ≤ r.finish := by
    rcases time_of_webLink hweb with rfl | rfl
    · exact h.ended
    · exact le_rfl
  have hheld := (hs.kept e he).link (Bool.eq_false_iff.mpr hc)
  rw [hgroup, hlink] at hheld
  exact absurd (isInCache_of_held hheld (Nat.lt_of_le_of_lt hnow htime)) (by rw [hfree]; decide)

/-- One turn adds no repetition exactly if it meets the condition. -/
theorem noRepeat_step (hs : Inv s) (h : Step s r t) : NoRepeat t.log ↔ NoRepeat s.log ∧ Meets s r := by
  rcases turn_cases h.turned with ⟨url, details, hcache, rfl⟩ | ⟨url, kind, link, msg, hweb, rfl⟩ |
    ⟨hcache, hweb, redis, _, rfl⟩
  · rw [noRepeat_snoc]
    refine and_congr_right fun _ => ⟨fun hnew => ⟨?_, ?_⟩, fun hmeets e he hlately => ?_⟩
    · intro url' details' hcache' e he hlately
      obtain ⟨rfl, rfl⟩ := hcache.unique hcache'
      exact absurd hlately (hnew e he)
    · intro url' kind link hweb
      exact absurd hweb hcache.not_fromWeb
    · exact ne_of_free hs h hcache.free he hlately (hmeets.cached url details hcache e he hlately)
  · rw [noRepeat_snoc]
    refine and_congr_right fun _ => ⟨fun hnew => ⟨?_, ?_⟩, fun hmeets e he hlately => ?_⟩
    · intro url' details hcache
      exact absurd hweb hcache.not_fromWeb
    · intro url' kind' link' hweb' e he hlately
      obtain ⟨rfl, rfl⟩ := hweb.unique hweb'
      exact absurd hlately (hnew e he)
    · have hc := cached_of_fresh hs h hweb.fresh he hlately
      exact ne_of_free hs h hweb.free he hlately (hmeets.fetched url kind link hweb e he hlately hc)
  · refine ⟨fun hlog => ⟨hlog, ?_, ?_⟩, fun hlog => hlog.1⟩
    · intro url details hcache'
      exact absurd hcache' (hcache url details)
    · intro url kind link hweb'
      exact absurd hweb' (hweb url kind link)

theorem prefix_log {rs : List Request} (h : Run Step s rs t) : s.log <+: t.log := by
  refine h.invariant (fun u => s.log <+: u.log) ?_ (List.prefix_refl _)
  intro u r v hu hstep
  rcases turn_cases hstep.turned with ⟨_, _, _, rfl⟩ | ⟨_, _, _, _, _, rfl⟩ | ⟨_, _, _, _, rfl⟩
  · exact hu.trans (List.prefix_append _ _)
  · exact hu.trans (List.prefix_append _ _)
  · exact hu

theorem noRepeat_run {rs : List Request} (h : Run Step s rs t) (hs : Inv s) (hlog : NoRepeat s.log) :
    NoRepeat t.log ↔ Run (Guarded Step Meets) s rs t := by
  induction h with
  | nil s => exact ⟨fun _ => .nil s, fun _ => hlog⟩
  | @cons s u t r rs hstep hrun ih =>
      have hnext := noRepeat_step hs hstep
      constructor
      · intro ht
        have hu : NoRepeat u.log := List.Pairwise.sublist (prefix_log hrun).sublist ht
        exact .cons ⟨(hnext.mp hu).2, hstep⟩ ((ih (hs.step hstep) hu).mp ht)
      · intro hguarded
        cases hguarded with
        | cons hfirst hrest =>
            obtain ⟨hmeets, hfirst⟩ := hfirst
            obtain rfl := hstep.unique hfirst
            exact (ih (hs.step hstep) (hnext.mpr ⟨hlog, hmeets⟩)).mpr hrest

/-- Whatever redis holds, and from whatever time on. -/
theorem details_once_iff {redis : Redis} {clock : Nat} {rs : List Request} (h : Run Step ⟨redis, [], clock⟩ rs t) :
    NoRepeat t.log ↔ Run (Guarded Step Meets) ⟨redis, [], clock⟩ rs t :=
  noRepeat_run h ⟨List.forall_mem_nil _, List.forall_mem_nil _⟩ .nil

def video : VideoInfo := ⟨bytes "title", bytes "about", bytes "up", bytes "http://i/p.jpg", bytes "BV17x411w7KC"⟩

/-- Everything is at hand at once. -/
def post (groupId : GId) (url : String) (now : Nat) : Request :=
  ⟨groupId, bytes url, now, now, ⟨some video, none, .failed⟩⟩

theorem details_once_in_turn :
    let rs := [post 1 "https://www.bilibili.com/video/av170001" 0, post 1 "https://www.bilibili.com/video/av170001/" 5,
      post 2 "https://www.bilibili.com/video/av170001/" 6, post 1 "https://www.bilibili.com/video/av170001/" 20]
    ∃ t, t.log.length = 3 ∧ Run (Guarded Step Meets) ⟨⟨∅, ∅⟩, [], 0⟩ rs t := by
  intro rs
  have hall : (parser ⟨⟨∅, ∅⟩, [], 0⟩ rs).toOption.any (fun t => t.log.length = 3 ∧ NoRepeat t.log) := by
    decide
  have htime : InTurn 0 rs := by simp [InTurn, rs, post]
  obtain ⟨t, hrun, ht⟩ := exists_run htime hall
  obtain ⟨hlength, hlog⟩ := of_decide_eq_true ht
  exact ⟨t, hlength, (details_once_iff hrun).mp hlog⟩

/-- An address that another group had looked up goes past the key of the link. -/
theorem details_twice :
    let rs := [post 1 "https://www.bilibili.com/video/av170001" 0, post 2 "https://www.bilibili.com/video/av170001/" 5,
      post 1 "https://www.bilibili.com/video/av170001/" 10]
    ∃ t, Run Step ⟨⟨∅, ∅⟩, [], 0⟩ rs t ∧ ¬ NoRepeat t.log := by
  intro rs
  have hall : (parser ⟨⟨∅, ∅⟩, [], 0⟩ rs).toOption.any (fun t => ¬ NoRepeat t.log) := by decide
  have htime : InTurn 0 rs := by simp [InTurn, rs, post]
  obtain ⟨t, hrun, ht⟩ := exists_run htime hall
  exact ⟨t, hrun, of_decide_eq_true ht⟩

end Runs

end MigangBot.BilibiliRepetition
