import MigangBot.Services
import MigangBot.WeiboSpider
import Mathlib.Algebra.Order.BigOperators.Group.List
import Mathlib.Algebra.GroupWithZero.Nat
import Mathlib.Algebra.Order.Group.Nat

namespace MigangBot.WeiboPush

open Lib.Exceptions Text ApiTypes Services WeiboSpider

def image (view : Bytes) : Bytes := bytes "[CQ:image,file=" ++ view ++ bytes "]"

/-- Reading the name of a post that has none throws. The post is passed by
reference, and a retweet is overwritten with the post it forwards. -/
def weiboToText (wb : Weibo) : Outcome (Weibo × Bytes × Bytes) := do
  let name ← match wb.screenName with
    | some name => .ok name
    | none => throwing (.json 302)
  let msg := name ++ bytes "'s Weibo:\n====================="
  let idCache := wb.id
  let (wb, msg) := match wb.retweet with
    | some r => ((⟨r, none⟩ : Weibo), msg ++ bytes "\n" ++ wb.text ++ bytes "\n=======转发微博=======")
    | none => (wb, msg)
  let msg := msg ++ bytes "\n" ++ wb.text
  let msg := if wb.pics.isEmpty then msg else msg ++ bytes "\n" ++ wb.pics.flatMap image
  let msg := if wb.videoPoster.isEmpty then msg
    else msg ++ bytes "\n[视频封面]\n" ++ image wb.videoPoster
  return (wb, msg ++ bytes "\nURL:https://m.weibo.cn/detail/" ++ idCache, idCache)

structure Record where
  weiboId : Bytes
  pushTime : Bytes
  content : Bytes
  deriving DecidableEq

/-- What a bot's broadcast is handed, and what it sends of it. -/
structure Delivery where
  service : Bytes
  bot : Nat
  messages : List Bytes
  sent : List (GId × Bytes)
  deriving DecidableEq

/-- One service's share of a pull: the new weibos that each of its spiders
returns, the bots connected when they are handed out, and what each bot answers
to get_group_list. -/
structure Turn where
  service : ScheduleService
  lastest : List (List Weibo)
  bots : List Nat
  groupList : Nat → Outcome (List GroupInfo)

/-- std::transform over the list, which changes as it goes. -/
def transform (curTime : Bytes) : List Weibo → Outcome (List Weibo × List Record)
  | [] => .ok ([], [])
  | wb :: wbs => do
      let (wb, text, id) ← weiboToText wb
      let (wbs, records) ← transform curTime wbs
      return (wb :: wbs, ⟨id, curTime, text⟩ :: records)

/-- The loop around it, with the number of elements it has yet to visit. -/
def spiderLoop (curTime : Bytes) : Nat → List Weibo → Outcome (List Record)
  | 0, _ => .ok []
  | n + 1, lastest => do
      let (lastest, records) ← transform curTime lastest
      return records ++ (← spiderLoop curTime n lastest)

def Turn.handOut (t : Turn) (weibos : List Bytes) : Outcome (List Delivery) :=
  t.bots.mapM fun bot => do
    let sent ← t.service.broadCast (t.groupList bot) weibos
    return ⟨t.service.serviceName, bot, weibos, sent⟩

def Turn.push (t : Turn) (curTime : Bytes) : Outcome (List Record × List Delivery) := do
  let records ← t.lastest.mapM (fun lastest => spiderLoop curTime lastest.length lastest)
  let deliveries ← t.handOut (records.flatten.map (fun r => r.content))
  return (records.flatten, deliveries)

def gather (shares : List (List Record × List Delivery)) : List Record × List Delivery :=
  (shares.flatMap Prod.fst, shares.flatMap Prod.snd)

def weiboPuller (curTime : Bytes) (turns : List Turn) : Outcome (List Record × List Delivery) := do
  let shares ← turns.mapM (fun t => t.push curTime)
  return gather shares

/-- A post as it was fetched, under its own id. -/
def recordOf (curTime : Bytes) (wb : Weibo) : Outcome Record := do
  let (_, text, id) ← weiboToText wb
  return ⟨id, curTime, text⟩

/-- What a service is to do: each new weibo once, in the order fetched. -/
def Turn.pushOnce (t : Turn) (curTime : Bytes) : Outcome (List Record × List Delivery) := do
  let records ← t.lastest.flatten.mapM (recordOf curTime)
  let deliveries ← t.handOut (records.map (fun r => r.content))
  return (records, deliveries)

def pullOnce (curTime : Bytes) (turns : List Turn) : Outcome (List Record × List Delivery) := do
  let shares ← turns.mapM (fun t => t.pushOnce curTime)
  return gather shares

def DeliversOnce (curTime : Bytes) (turns : List Turn) : Prop :=
  ∃ out, weiboPuller curTime turns = .ok out ∧ pullOnce curTime turns = .ok out

/-- At most one new weibo for each spider, each of a named sender, and bots that
answer. -/
def Turn.Simple (t : Turn) : Prop :=
  (∀ lastest ∈ t.lastest, lastest.length ≤ 1 ∧ ∀ wb ∈ lastest, wb.screenName ≠ none) ∧
    ∀ bot ∈ t.bots, Returns (t.service.getEnableGroup (t.groupList bot))

theorem weiboToText_eq_ok {wb wb' : Weibo} {text id : Bytes} (h : weiboToText wb = .ok (wb', text, id)) :
    wb.screenName ≠ none := by
  intro hn
  rw [weiboToText, hn] at h
  cases h

theorem returns_weiboToText (wb : Weibo) : Returns (weiboToText wb) ↔ wb.screenName ≠ none := by
  constructor
  · rintro ⟨⟨wb', text, id⟩, h⟩
    exact weiboToText_eq_ok h
  · intro h
    obtain ⟨name, hname⟩ := Option.ne_none_iff_exists'.mp h
    rw [weiboToText, hname]
    exact ⟨_, rfl⟩

variable {curTime : Bytes}

theorem returns_recordOf (wb : Weibo) : Returns (recordOf curTime wb) ↔ wb.screenName ≠ none := by
  rw [← returns_weiboToText, recordOf]
  exact returns_map

/-- A single post is visited once, before it changes. -/
theorem spiderLoop_single {lastest : List Weibo} (h : lastest.length ≤ 1) :
    spiderLoop curTime lastest.length lastest = lastest.mapM (recordOf curTime) := by
  match lastest, h with
  | [], _ => rfl
  | [wb], _ =>
      rw [List.length_singleton, spiderLoop, transform, List.mapM_cons, recordOf]
      cases weiboToText wb <;> rfl

theorem returns_handOut (t : Turn) (weibos : List Bytes) : Returns (t.handOut weibos) ↔
    ∀ bot ∈ t.bots, Returns (t.service.getEnableGroup (t.groupList bot)) := by
  rw [Turn.handOut, returns_mapM]
  refine forall₂_congr fun bot _ => ?_
  rw [ScheduleService.broadCast, returns_bind_iff (fun _ _ => iff_true_intro (returns_pure _)), and_true]
  rw [returns_bind_iff (fun _ _ => iff_true_intro (returns_pure _)), and_true]

theorem Turn.Simple.push_eq {t : Turn} (h : t.Simple) : t.push curTime = t.pushOnce curTime := by
  have hloops : t.lastest.mapM (fun lastest => spiderLoop curTime lastest.length lastest) =
      t.lastest.mapM (fun lastest => lastest.mapM (recordOf curTime)) :=
    mapM_congr fun lastest hl => spiderLoop_single (h.1 lastest hl).1
  rw [Turn.push, Turn.pushOnce, hloops, mapM_flatten]
  cases t.lastest.mapM (fun lastest => lastest.mapM (recordOf curTime)) <;> rfl

theorem Turn.Simple.returns {t : Turn} (h : t.Simple) : Returns (t.pushOnce curTime) := by
  have hrecords : Returns (t.lastest.flatten.mapM (recordOf curTime)) := by
    rw [returns_mapM]
    intro wb hwb
    obtain ⟨lastest, hl, hwb⟩ := List.mem_flatten.mp hwb
    exact (returns_recordOf wb).mpr ((h.1 lastest hl).2 wb hwb)
  rw [Turn.pushOnce, returns_bind_iff (p := True)]
  · exact ⟨hrecords, trivial⟩
  · intro records _
    rw [returns_bind_iff (fun _ _ => iff_true_intro (returns_pure _)), and_true, returns_handOut]
    exact iff_true_intro h.2

section Passes

variable {lastest lastest' : List Weibo} {records : List Record}

theorem transform_eq_ok (h : transform curTime lastest = .ok (lastest', records)) :
    lastest'.length = lastest.length ∧ records.length = lastest.length ∧ ∀ wb ∈ lastest, wb.screenName ≠ none := by
  induction lastest generalizing lastest' records with
  | nil =>
      cases h
      exact ⟨rfl, rfl, by simp⟩
  | cons wb lastest ih =>
      rw [transform] at h
      obtain ⟨⟨wb', text, id⟩, hwb, h⟩ := bind_eq_ok.mp h
      obtain ⟨⟨rest, more⟩, hrest, h⟩ := bind_eq_ok.mp h
      cases h
      obtain ⟨hlen, hrecords, hnames⟩ := ih hrest
      refine ⟨congrArg (· + 1) hlen, congrArg (· + 1) hrecords, ?_⟩
      rw [List.forall_mem_cons]
      exact ⟨weiboToText_eq_ok hwb, hnames⟩

theorem spiderLoop_length {n : Nat} (h : spiderLoop curTime n lastest = .ok records) :
    records.length = n * lastest.length := by
  induction n generalizing lastest records with
  | zero =>
      cases h
      simp
  | succ n ih =>
      rw [spiderLoop] at h
      obtain ⟨⟨lastest', first⟩, hfirst, h⟩ := bind_eq_ok.mp h
      obtain ⟨more, hmore, h⟩ := bind_eq_ok.mp h
      cases h
      obtain ⟨hlen, hrecords, -⟩ := transform_eq_ok hfirst
      rw [List.length_append, ih hmore, hlen, hrecords, Nat.succ_mul, Nat.add_comm]

theorem spiderLoop_names (h : Returns (spiderLoop curTime lastest.length lastest)) :
    ∀ wb ∈ lastest, wb.screenName ≠ none := by
  cases lastest with
  | nil => simp
  | cons wb lastest =>
      rw [List.length_cons, spiderLoop] at h
      obtain ⟨⟨lastest', first⟩, hfirst, -⟩ := returns_bind.mp h
      exact (transform_eq_ok hfirst).2.2

end Passes

theorem Turn.push_eq_ok {t : Turn} {out : List Record × List Delivery} (h : t.push curTime = .ok out) :
    (∀ lastest ∈ t.lastest, ∀ wb ∈ lastest, wb.screenName ≠ none) ∧
      (∀ bot ∈ t.bots, Returns (t.service.getEnableGroup (t.groupList bot))) ∧
      out.1.length = (t.lastest.map (fun lastest => lastest.length * lastest.length)).sum := by
  rw [Turn.push] at h
  obtain ⟨records, hrecords, h⟩ := bind_eq_ok.mp h
  obtain ⟨deliveries, hdeliveries, h⟩ := bind_eq_ok.mp h
  cases h
  refine ⟨fun lastest hl => ?_, (returns_handOut t _).mp ⟨_, hdeliveries⟩, ?_⟩
  · exact spiderLoop_names (returns_mapM.mp ⟨_, hrecords⟩ lastest hl)
  · rw [List.length_flatten]
    exact mapM_measure List.length _ (fun lastest rs h => spiderLoop_length h) hrecords

theorem Turn.pushOnce_length {t : Turn} {out : List Record × List Delivery} (h : t.pushOnce curTime = .ok out) :
    out.1.length = (t.lastest.map List.length).sum := by
  rw [Turn.pushOnce] at h
  obtain ⟨records, hrecords, h⟩ := bind_eq_ok.mp h
  obtain ⟨deliveries, -, h⟩ := bind_eq_ok.mp h
  cases h
  have hcount := mapM_measure (fun _ => 1) (fun _ => 1) (fun _ _ _ => rfl) hrecords
  have hlen : records.length = t.lastest.flatten.length := by
    simpa only [List.map_const', List.sum_replicate_nat, Nat.mul_one] using hcount
  rw [hlen, List.length_flatten]

theorem gather_length (shares : List (List Record × List Delivery)) :
    (gather shares).1.length = (shares.map (fun share => share.1.length)).sum :=
  List.length_flatMap

/-- Squares of lengths add up to the lengths only if none is above one. -/
theorem le_one_of_sum {ls : List (List Weibo)}
    (h : (ls.map (fun l => l.length * l.length)).sum = (ls.map List.length).sum) : ∀ l ∈ ls, l.length ≤ 1 := by
  intro l hl
  by_contra hlt
  refine Nat.ne_of_gt (List.sum_lt_sum _ _ (fun l _ => ?_) ⟨l, hl, ?_⟩) h
  · exact Nat.le_mul_self l.length
  · have := Nat.mul_lt_mul_of_pos_right (Nat.lt_of_not_le hlt) (Nat.lt_of_lt_of_le Nat.one_pos (Nat.le_of_not_le hlt))
    simpa using this

theorem sum_lastest (turns : List Turn) (size : List Weibo → Nat) :
    ((turns.flatMap (fun t => t.lastest)).map size).sum =
      (turns.map (fun t => (t.lastest.map size).sum)).sum := by
  rw [List.flatMap_def, List.map_flatten, List.sum_flatten, List.map_map, List.map_map]
  rfl

theorem delivers_once_iff (curTime : Bytes) (turns : List Turn) :
    DeliversOnce curTime turns ↔ ∀ t ∈ turns, t.Simple := by
  constructor
  · rintro ⟨out, hpull, honce⟩
    obtain ⟨shares, hshares, hout⟩ := bind_eq_ok.mp hpull
    obtain ⟨shares', hshares', hout'⟩ := bind_eq_ok.mp honce
    cases hout
    have hgather : gather shares' = gather shares := Except.ok.inj hout'
    have hsquares := mapM_measure (fun share => share.1.length) _ (fun t out h => (Turn.push_eq_ok h).2.2) hshares
    have hlengths := mapM_measure (fun share => share.1.length) _ (fun t out h => Turn.pushOnce_length h) hshares'
    rw [← gather_length] at hsquares hlengths
    rw [hgather, hsquares, ← sum_lastest, ← sum_lastest] at hlengths
    have hone := le_one_of_sum hlengths
    intro t ht
    obtain ⟨share, hshare⟩ := returns_mapM.mp ⟨_, hshares⟩ t ht
    obtain ⟨hnames, hbots, -⟩ := Turn.push_eq_ok hshare
    refine ⟨fun lastest hl => ⟨?_, hnames lastest hl⟩, hbots⟩
    exact hone lastest (List.mem_flatMap.mpr ⟨t, ht, hl⟩)
  · intro h
    have heq : turns.mapM (fun t => t.push curTime) = turns.mapM (fun t => t.pushOnce curTime) :=
      mapM_congr fun t ht => (h t ht).push_eq
    have hreturns : ∀ t ∈ turns, Returns (t.pushOnce curTime) := fun t ht => (h t ht).returns
    obtain ⟨shares, hshares⟩ := returns_mapM.mpr hreturns
    exact ⟨gather shares, by rw [weiboPuller, heq, hshares]; rfl, by rw [pullOnce, hshares]; rfl⟩

/-- Two new posts, of which the second forwards a third: each pass of the outer
loop records both, and the second pass finds the forwarded post in its place. -/
def twoPosts : Turn where
  service := ⟨⟨2, false, [7], bytes "news", .null⟩⟩
  lastest :=
    let own (id : String) : Post := ⟨some (bytes "sender"), bytes id, bytes "text", [], [], 0⟩
    [[⟨own "1", none⟩, ⟨own "2", some (own "3")⟩]]
  bots := [0]
  groupList _ := .ok []

theorem delivered_twice : ¬ DeliversOnce (bytes "now") [twoPosts] ∧
    ∃ out, weiboPuller (bytes "now") [twoPosts] = .ok out ∧
      out.1.map (fun r => r.weiboId) = [bytes "1", bytes "2", bytes "1", bytes "3"] := by
  refine ⟨?_, _, rfl, by decide⟩
  rintro ⟨out, hpull, honce⟩
  have hcount := congrArg (Except.map fun out => out.1.length) (hpull.trans honce.symm)
  have hpull : (weiboPuller (bytes "now") [twoPosts]).map (fun out => out.1.length) = .ok 4 := by rfl
  have honce : (pullOnce (bytes "now") [twoPosts]).map (fun out => out.1.length) = .ok 2 := by rfl
  rw [hpull, honce] at hcount
  cases hcount

end MigangBot.WeiboPush
