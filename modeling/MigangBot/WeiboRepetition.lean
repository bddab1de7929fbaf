import MigangBot.WeiboSpider
import MigangBot.Lib.Memories

namespace MigangBot.WeiboRepetition

open Lib.Exceptions Lib.Memories Text JsonValue WeiboSpider

variable {c : Config} {s : Spider} {x : Bytes}

/-- No id is returned by two calls of a history. -/
def NoRepeat (c : Config) (es : List Event) : Prop :=
  ∀ pre p mid q post, es = pre ++ .pull p :: mid ++ .pull q :: post →
    ∀ x ∈ (reached c pre).answered c p, x ∉ (reached c (pre ++ .pull p :: mid)).answered c q

/-- The posts a call hands to the buffer with the clock readings, and how it
ends. -/
def scan (p : Pull) (i : Nat) : List Json → List (Int × Weibo) × Outcome Unit
  | [] => ([], .ok ())
  | card :: cards =>
      match cardType card with
      | .error e => ([], .error e)
      | .ok t =>
          if t = 9 then
            match p.getOneWeibo i card with
            | .error e => ([], .error e)
            | .ok wb => ((p.time i, wb) :: (scan p (i + 1) cards).1, (scan p (i + 1) cards).2)
          else scan p (i + 1) cards

def seen (p : Pull) : List (Int × Weibo) × Outcome Unit :=
  match p.cards with
  | .error e => ([], .error e)
  | .ok cards => scan p 0 cards

def Matches (c : Config) (wb : Weibo) : Prop := ∃ word ∈ c.filterWords, hits wb word = true

/-- Young enough, and let through by the flag. -/
def Shows (c : Config) (v : Int × Weibo) : Prop :=
  v.1 - v.2.createdAt ≤ 7200 ∧ (c.filter = false ∨ v.2.retweet = none)

/-- After this post its id is in the buffer, whatever the buffer held. -/
def Records (c : Config) (x : Bytes) (v : Int × Weibo) : Prop :=
  v.2.id = x ∧ (Matches c v.2 ∨ Shows c v)

/-- The first post that records the id has no filter word. -/
def Offers (c : Config) (x : Bytes) (vs : List (Int × Weibo)) : Prop :=
  ∃ pre v post, vs = pre ++ v :: post ∧ (∀ u ∈ pre, ¬ Records c x u) ∧ Records c x v ∧ ¬ Matches c v.2

def RecordedBy (c : Config) (x : Bytes) : Event → Prop
  | .pull p => ∃ v ∈ (seen p).1, Records c x v
  | .cleanBuffer => False

/-- The next call that records the id offers it, and does not fail. -/
def Resurfaces (c : Config) (x : Bytes) (es : List Event) : Prop :=
  ∃ pre q post, es = pre ++ .pull q :: post ∧ (∀ e ∈ pre, ¬ RecordedBy c x e) ∧
    Offers c x (seen q).1 ∧ (seen q).2 = .ok ()

/-- What CleanBuffer is about to forget. -/
def Drops (x : Bytes) (s : Spider) : Event → Prop
  | .pull _ => False
  | .cleanBuffer => x ∈ s.receivedWeiboList.take (s.receivedWeiboList.length - 10)

/-- CleanBuffer forgets no id that was returned before and resurfaces. -/
def ForgetsSafely (c : Config) (es : List Event) : Prop :=
  ∀ pre post, es = pre ++ .cleanBuffer :: post → ∀ x, Drops x (reached c pre) .cleanBuffer →
    x ∈ (reached c pre).receivedWeiboIds →
    (∃ pre' p mid, pre = pre' ++ .pull p :: mid ∧ x ∈ (reached c pre').answered c p) →
    ¬ Resurfaces c x post

theorem mem_record (id : Bytes) :
    x ∈ (s.record id).receivedWeiboIds ↔ id = x ∨ x ∈ s.receivedWeiboIds := by
  rw [Spider.record, Finset.mem_insert, eq_comm]

theorem mem_filterLoop (wb : Weibo) (words : List Bytes) :
    x ∈ (s.filterLoop wb words).receivedWeiboIds ↔
      x ∈ s.receivedWeiboIds ∨ wb.id = x ∧ ∃ word ∈ words, hits wb word = true := by
  induction words generalizing s with
  | nil => simp [Spider.filterLoop]
  | cons word words ih =>
      rw [Spider.filterLoop, ih]
      simp only [List.mem_cons, exists_eq_or_imp]
      by_cases hw : hits wb word = true
      · rw [if_pos hw, mem_record]
        tauto
      · rw [if_neg hw]
        tauto

theorem visit_recorded {now : Int} {wb : Weibo}
    (h : wb.id ∈ (s.filterLoop wb c.filterWords).receivedWeiboIds ∨ ¬ Shows c (now, wb)) :
    s.visit c now wb = (s.filterLoop wb c.filterWords, []) := by
  rw [Spider.visit]
  split_ifs with hskip hpass
  · rfl
  · have hshow : Shows c (now, wb) := by
      refine ⟨Int.not_lt.mp fun hlt => hskip (.inr hlt), ?_⟩
      simpa using hpass
    exact absurd (h.resolve_right (not_not_intro hshow)) (fun hin => hskip (.inl hin))
  · rfl

theorem visit_fresh {now : Int} {wb : Weibo}
    (hnew : wb.id ∉ (s.filterLoop wb c.filterWords).receivedWeiboIds) (hshow : Shows c (now, wb)) :
    s.visit c now wb = ((s.filterLoop wb c.filterWords).record wb.id, [wb]) := by
  have hyoung : ¬ (now - wb.createdAt > 7200) := Int.not_lt.mpr hshow.1
  rw [Spider.visit, if_neg (by tauto), if_pos]
  simpa using hshow.2

theorem mem_visit (now : Int) (wb : Weibo) : x ∈ (s.visit c now wb).1.receivedWeiboIds ↔
    x ∈ s.receivedWeiboIds ∨ Records c x (now, wb) := by
  have hloop := mem_filterLoop (s := s) (x := x) wb c.filterWords
  by_cases hshow : Shows c (now, wb)
  · by_cases hin : wb.id ∈ (s.filterLoop wb c.filterWords).receivedWeiboIds
    · rw [visit_recorded (.inl hin)]
      have hid : wb.id = x → x ∈ (s.filterLoop wb c.filterWords).receivedWeiboIds := fun h => h ▸ hin
      unfold Records Matches
      tauto
    · rw [visit_fresh hin hshow, mem_record]
      unfold Records Matches
      tauto
  · rw [visit_recorded (.inr hshow)]
    simp only [Records, Matches, hshow, or_false]
    exact hloop

theorem answered_visit (now : Int) (wb : Weibo) : x ∈ (s.visit c now wb).2.map (fun wb => wb.id) ↔
    x ∉ s.receivedWeiboIds ∧ Records c x (now, wb) ∧ ¬ Matches c wb := by
  have hloop := mem_filterLoop (s := s) (x := wb.id) wb c.filterWords
  by_cases hshow : Shows c (now, wb)
  · by_cases hin : wb.id ∈ (s.filterLoop wb c.filterWords).receivedWeiboIds
    · rw [visit_recorded (.inl hin)]
      refine iff_of_false List.not_mem_nil fun ⟨hx, hr, hm⟩ => ?_
      rcases hloop.mp hin with hs | ⟨-, hm'⟩
      · exact absurd (hr.1 ▸ hs) hx
      · exact absurd hm' hm
    · rw [visit_fresh hin hshow]
      simp only [List.map_cons, List.map_nil, List.mem_singleton]
      constructor
      · rintro rfl
        exact ⟨fun hs => hin (hloop.mpr (.inl hs)), ⟨rfl, .inr hshow⟩, fun hm => hin (hloop.mpr (.inr ⟨rfl, hm⟩))⟩
      · exact fun h => h.2.1.1.symm
  · rw [visit_recorded (.inr hshow)]
    refine iff_of_false List.not_mem_nil fun ⟨_, hr, hm⟩ => ?_
    exact absurd (hr.2.resolve_left hm) hshow

def visits (c : Config) (s : Spider) : List (Int × Weibo) → Spider × List Weibo
  | [] => (s, [])
  | (now, wb) :: vs =>
      let r := s.visit c now wb
      ((visits c r.1 vs).1, r.2 ++ (visits c r.1 vs).2)

theorem cardLoop_eq (p : Pull) (i : Nat) (lastest : List Weibo) (cards : List Json) :
    s.cardLoop c p i lastest cards = ((visits c s (scan p i cards).1).1,
      (scan p i cards).2.map (fun _ => lastest ++ (visits c s (scan p i cards).1).2)) := by
  induction cards generalizing s i lastest with
  | nil => simp [Spider.cardLoop, scan, visits, Except.map]
  | cons card cards ih =>
      rw [Spider.cardLoop, scan]
      cases cardType card with
      | error e => simp [visits, Except.map]
      | ok t =>
          simp only
          split_ifs
          · cases p.getOneWeibo i card with
            | error e => simp [visits, Except.map]
            | ok wb => simp [ih, visits]
          · exact ih (i + 1) lastest

theorem getLastestWeibos_eq (p : Pull) : s.getLastestWeibos c p =
    ((visits c s (seen p).1).1, (seen p).2.map (fun _ => (visits c s (seen p).1).2)) := by
  rw [Spider.getLastestWeibos, seen]
  cases p.cards with
  | error e => rfl
  | ok cards =>
      have := cardLoop_eq (c := c) (s := s) p 0 [] cards
      simpa using this

theorem mem_visits (vs : List (Int × Weibo)) : x ∈ (visits c s vs).1.receivedWeiboIds ↔
    x ∈ s.receivedWeiboIds ∨ ∃ v ∈ vs, Records c x v := by
  induction vs generalizing s with
  | nil => simp [visits]
  | cons v vs ih =>
      rw [visits, ih, mem_visit]
      simp only [List.mem_cons, exists_eq_or_imp]
      tauto

theorem offers_cons (v : Int × Weibo) (vs : List (Int × Weibo)) : Offers c x (v :: vs) ↔
    Records c x v ∧ ¬ Matches c v.2 ∨ ¬ Records c x v ∧ Offers c x vs := by
  constructor
  · rintro ⟨pre, u, post, heq, hpre, hr, hm⟩
    cases pre with
    | nil =>
        cases heq
        exact .inl ⟨hr, hm⟩
    | cons w pre =>
        cases heq
        exact .inr ⟨hpre v List.mem_cons_self,
          pre, u, post, rfl, fun w hw => hpre w (List.mem_cons_of_mem _ hw), hr, hm⟩
  · rintro (⟨hr, hm⟩ | ⟨hr, pre, u, post, rfl, hpre, hu, hm⟩)
    · exact ⟨[], v, vs, rfl, by simp, hr, hm⟩
    · refine ⟨v :: pre, u, post, rfl, fun w hw => ?_, hu, hm⟩
      rcases List.mem_cons.mp hw with rfl | hw
      · exact hr
      · exact hpre w hw

theorem answered_visits (vs : List (Int × Weibo)) : x ∈ (visits c s vs).2.map (fun wb => wb.id) ↔
    x ∉ s.receivedWeiboIds ∧ Offers c x vs := by
  induction vs generalizing s with
  | nil =>
      have : ¬ Offers c x [] := by rintro ⟨pre, v, post, h, -⟩; simp at h
      simp [visits, this]
  | cons v vs ih =>
      rw [visits, List.map_append, List.mem_append, answered_visit, ih, mem_visit, offers_cons]
      tauto

theorem mem_pull (p : Pull) : x ∈ (s.getLastestWeibos c p).1.receivedWeiboIds ↔
    x ∈ s.receivedWeiboIds ∨ RecordedBy c x (.pull p) := by
  rw [getLastestWeibos_eq]
  exact mem_visits (seen p).1

theorem mem_answered (p : Pull) : x ∈ s.answered c p ↔
    x ∉ s.receivedWeiboIds ∧ Offers c x (seen p).1 ∧ (seen p).2 = .ok () := by
  rw [Spider.answered, getLastestWeibos_eq]
  cases (seen p).2 with
  | error e => simp [Except.map]
  | ok _ =>
      simp only [Except.map, and_true]
      exact answered_visits (seen p).1

theorem Offers.records {vs : List (Int × Weibo)} (h : Offers c x vs) : ∃ v ∈ vs, Records c x v := by
  obtain ⟨pre, v, post, rfl, -, hr, -⟩ := h
  exact ⟨v, List.mem_append_right _ List.mem_cons_self, hr⟩

theorem mem_cleanLoop (ids : Finset Bytes) (list : List Bytes) :
    x ∈ (Spider.cleanLoop ids list).receivedWeiboIds ↔ x ∈ ids ∧ x ∉ list.take (list.length - 10) := by
  induction list generalizing ids with
  | nil => simp [Spider.cleanLoop]
  | cons id list ih =>
      rw [Spider.cleanLoop]
      split_ifs with hlen
      · have hlen : (id :: list).length - 10 = (list.length - 10) + 1 := by
          rw [List.length_cons] at hlen ⊢
          omega
        rw [ih, hlen, List.take_succ_cons, Finset.mem_erase, List.mem_cons]
        tauto
      · have hlen : (id :: list).length - 10 = 0 := by omega
        rw [hlen]
        simp

theorem remembers (c : Config) (x : Bytes) :
    Remembers (Spider.step c) (fun s => x ∈ s.receivedWeiboIds) (RecordedBy c x) (Drops x) := by
  intro s e
  cases e with
  | pull p =>
      simp only [Drops, not_false_eq_true, and_true]
      exact (mem_pull p).trans or_comm
  | cleanBuffer =>
      simp only [RecordedBy, false_or]
      exact mem_cleanLoop s.receivedWeiboIds s.receivedWeiboList

theorem reached_append (c : Config) (es es' : List Event) :
    reached c (es ++ es') = es'.foldl (Spider.step c) (reached c es) :=
  List.foldl_append

/-- The clock does not matter here: it decides only which posts are shown. -/
theorem no_repeat_iff (c : Config) (es : List Event) : NoRepeat c es ↔ ForgetsSafely c es := by
  constructor
  · rintro hno pre post rfl x hd - ⟨pre', p, mid, rfl, hp⟩ ⟨mid', q, post', rfl, hquiet, hq⟩
    have heq : pre' ++ .pull p :: mid ++ .cleanBuffer :: (mid' ++ .pull q :: post') =
        pre' ++ .pull p :: (mid ++ .cleanBuffer :: mid') ++ .pull q :: post' := by simp
    refine hno pre' p (mid ++ .cleanBuffer :: mid') q post' heq x hp (mem_answered q |>.mpr ⟨?_, hq⟩)
    have happ : pre' ++ .pull p :: (mid ++ .cleanBuffer :: mid') =
        pre' ++ .pull p :: mid ++ .cleanBuffer :: mid' := by simp
    rw [happ, reached_append, List.foldl_cons]
    refine (remembers c x).stays_out (fun h => ?_) hquiet
    rcases (remembers c x _ _).mp h with h | h
    · exact h
    · exact h.2 hd
  · rintro hsafe pre p mid q post rfl x hp hq
    obtain ⟨hout, hoffer⟩ := (mem_answered q).mp hq
    have hin : x ∈ (reached c (pre ++ [.pull p])).receivedWeiboIds := by
      rw [reached_append]
      exact (mem_pull p).mpr (.inr ((mem_answered p).mp hp).2.1.records)
    have happ : pre ++ .pull p :: mid = pre ++ [.pull p] ++ mid := by simp
    rw [happ, reached_append] at hout
    obtain ⟨a, e, b, rfl, hina, hd, -, hquiet⟩ := (remembers c x).forgotten hin hout
    cases e with
    | pull _ => exact hd
    | cleanBuffer =>
        rw [← reached_append] at hina hd
        have heq : pre ++ .pull p :: (a ++ .cleanBuffer :: b) ++ .pull q :: post =
            pre ++ [.pull p] ++ a ++ .cleanBuffer :: (b ++ .pull q :: post) := by simp
        exact hsafe _ _ heq x hd hina ⟨pre, p, a, by simp, hp⟩ ⟨b, q, post, rfl, hquiet, hoffer⟩

def pulls (es : List Event) : List Pull :=
  es.filterMap fun e => match e with
    | .pull p => some p
    | .cleanBuffer => none

/-- The readings never go back, within a call and from call to call. -/
def ClockKept (es : List Event) : Prop :=
  (∀ p ∈ pulls es, ∀ i j, i ≤ j → p.time i ≤ p.time j) ∧
    (pulls es).Pairwise fun p q => ∀ i j, p.time i ≤ q.time j

section Example

def post (id text : String) : Post := ⟨none, bytes id, bytes text, [], [], 0⟩

/-- A page of two posts of the same minute, of which the second carries the
filter word. -/
def page (minute : Int) : Pull where
  js := .ok (.object [("ok", .numberUnsigned 1), ("data", .object [("cards", .array
    [.object [("card_type", .numberUnsigned 9)], .object [("card_type", .numberUnsigned 9)]])])])
  getOneWeibo i _ := .ok ⟨if i = 0 then post "1" "news" else post "2" "ad", none⟩
  time _ := 60 * minute

def minutes (n : Nat) : List Event := (List.range n).map (fun k => .pull (page k))

/-- The filtered post is entered again by each call, so that after ten of them
the clean-up drops the other one, which is ten minutes old. -/
theorem repeated_after_cleaning : ClockKept (minutes 10 ++ [.cleanBuffer, .pull (page 10)]) ∧
    ¬ NoRepeat ⟨[bytes "ad"], false⟩ (minutes 10 ++ [.cleanBuffer, .pull (page 10)]) := by
  refine ⟨?_, fun h => ?_⟩
  · have hpulls : pulls (minutes 10 ++ [.cleanBuffer, .pull (page 10)]) =
        (List.range 11).map (fun k : Nat => page k) := rfl
    rw [ClockKept, hpulls, List.forall_mem_map, List.pairwise_map]
    refine ⟨fun k _ i j _ => Int.le_refl _, List.pairwise_lt_range.imp fun {k l} hkl i j => ?_⟩
    simp only [page]
    omega
  · refine h [] (page 0) ((minutes 10).tail ++ [.cleanBuffer]) (page 10) [] rfl (bytes "1") ?_ ?_
    · decide
    · decide

end Example

end MigangBot.WeiboRepetition
