import MigangBot.Blacklists
import MigangBot.Zhanbu

namespace MigangBot.ZhanbuStability

open Lib.Exceptions Lib.Maps Text ApiTypes Blacklists Zhanbu

section Clock

/-- A broken-down local time: the date is everything but the three fields that
LastSecondOfToday sets. -/
structure Tm (Date : Type) where
  date : Date
  hour : Int
  min : Int
  sec : Int

structure Calendar where
  Date : Type
  localtime : Int → Tm Date
  mktime : Tm Date → Int

def getCurrentLocalTimeStamp (cal : Calendar) (now : Int) : Int := cal.mktime (cal.localtime now)

def lastSecondOfToday (cal : Calendar) (now : Int) : Int :=
  cal.mktime { cal.localtime now with hour := 23, min := 59, sec := 59 }

end Clock

section Recorder

structure Row where
  luck : Bytes
  yi : Bytes
  ji : Bytes
  dye : Bytes
  appendMsg : Bytes
  basemap : Bytes
  expireTime : Int

/-- What the columns of a row can hold. -/
def Row.fits (row : Row) : Bool :=
  varchar255 row.luck && varchar255 row.yi && varchar255 row.ji && varchar255 row.dye && varchar255 row.appendMsg &&
    varchar255 row.basemap && 0 ≤ row.expireTime && row.expireTime < 2 ^ 64

abbrev ZhanbuResults := FiniteMap QId Row

/-- The insert of a new row and the update of an old one leave the same. -/
def recordZhanbu (t : ZhanbuResults) (uid : QId) (row : Row) (served : Bool) : ZhanbuResults × Bool :=
  if served && row.fits then (t.insert uid row, true) else (t, false)

/-- The tuple of GetZhanbuRecord, in its order. -/
def getZhanbuRecord (t : ZhanbuResults) (uid : QId) : Bytes × Bytes × Bytes × Bytes × Bytes × Bytes × Int :=
  match t.lookup uid with
  | some row => (row.luck, row.yi, row.ji, row.appendMsg, row.dye, row.basemap, row.expireTime)
  | none => ([], [], [], [], [], [], 0)

end Recorder

section Requests

/-- A call of GetEorzeaZhanbu: when it is made, what GetZhanbuResult and GetBasemap
draw if they are called, when the record is then made, and whether the server
takes it. -/
structure Request where
  uid : QId
  now : Int
  result : Result
  file : Bytes
  recordedAt : Int
  served : Bool

variable (cal : Calendar) (basemapPath : Bytes → Bytes)

namespace Request

def basemap (r : Request) : Bytes := r.result.occupation ++ (bytes "/" ++ r.file)

def row (r : Request) : Row :=
  ⟨r.result.luck, r.result.yi, r.result.ji, r.result.dye, r.result.appendMsg, r.basemap,
    lastSecondOfToday cal r.recordedAt⟩

/-- What is drawn from the result itself. -/
def freshCard (r : Request) : Card :=
  ⟨r.result.luck, r.result.yi, r.result.ji, r.result.dye, r.result.appendMsg, basemapPath r.basemap⟩

def stored (r : Request) : Bool := r.served && (r.row cal).fits

end Request

def expired (expireTime : Int) (r : Request) : Bool :=
  expireTime = 0 || expireTime ≤ getCurrentLocalTimeStamp cal r.now

/-- EorzeaZhanbu::GetEorzeaZhanbu, with what it passes to Draw. -/
def getEorzeaZhanbu (t : ZhanbuResults) (r : Request) : ZhanbuResults × Card :=
  match getZhanbuRecord t r.uid with
  | (text0, text1, text2, text3, text4, text5, expireTime) =>
      if expired cal expireTime r then ((recordZhanbu t r.uid (r.row cal) r.served).1, r.freshCard basemapPath)
      else (t, ⟨text0, text1, text2, text3, text4, basemapPath text5⟩)

def serve (t : ZhanbuResults) (rs : List Request) : ZhanbuResults :=
  rs.foldl (fun t r => (getEorzeaZhanbu cal basemapPath t r).1) t

end Requests

/-- The request whose draw is on record after some more requests: only the clock
decides which draws again. -/
def inForce (cal : Calendar) (first : Request) (mid : List Request) : Request :=
  mid.foldl (fun p r => if r.uid = p.uid ∧ expired cal (p.row cal).expireTime r = true ∧ r.stored cal = true then r
    else p) first

/-- The card with the dye and the appended message in each other's place. -/
def exchanged (c : Card) : Card := { c with dye := c.appendMsg, appendMsg := c.dye }

section Stability

variable {cal : Calendar} {basemapPath : Bytes → Bytes} {t : ZhanbuResults}

theorem record_of_lookup {uid : QId} {row : Row} (h : t.lookup uid = some row) : getZhanbuRecord t uid =
    (row.luck, row.yi, row.ji, row.appendMsg, row.dye, row.basemap, row.expireTime) := by
  rw [getZhanbuRecord, h]

theorem recordZhanbu_stored {r : Request} (h : r.stored cal = true) :
    (recordZhanbu t r.uid (r.row cal) r.served).1 = t.insert r.uid (r.row cal) := by
  rw [Request.stored] at h
  rw [recordZhanbu, if_pos h]

theorem recordZhanbu_refused {r : Request} (h : r.stored cal = false) :
    (recordZhanbu t r.uid (r.row cal) r.served).1 = t := by
  rw [Request.stored] at h
  rw [recordZhanbu, h, if_neg Bool.false_ne_true]

/-- What a request does with a record there is. -/
theorem getEorzeaZhanbu_recorded {p r : Request} (h : t.lookup r.uid = some (p.row cal)) :
    getEorzeaZhanbu cal basemapPath t r =
      if expired cal (p.row cal).expireTime r then
        ((recordZhanbu t r.uid (r.row cal) r.served).1, r.freshCard basemapPath)
      else (t, exchanged (p.freshCard basemapPath)) := by
  rw [getEorzeaZhanbu, record_of_lookup h]
  rfl

theorem lookup_step_other {uid : QId} {r : Request} (h : uid ≠ r.uid) :
    (getEorzeaZhanbu cal basemapPath t r).1.lookup uid = t.lookup uid := by
  rw [getEorzeaZhanbu]
  split
  next text0 text1 text2 text3 text4 text5 expireTime _ =>
    split
    next =>
      cases hs : r.stored cal with
      | true => rw [recordZhanbu_stored hs, lookup_insert_eq, if_neg h]
      | false => rw [recordZhanbu_refused hs]
    next => rfl

theorem lookup_step_self {p r : Request} (h : t.lookup r.uid = some (p.row cal)) :
    (getEorzeaZhanbu cal basemapPath t r).1.lookup r.uid =
      if expired cal (p.row cal).expireTime r = true ∧ r.stored cal = true then some (r.row cal)
      else some (p.row cal) := by
  rw [getEorzeaZhanbu_recorded h]
  by_cases he : expired cal (p.row cal).expireTime r = true
  · rw [if_pos he]
    cases hs : r.stored cal with
    | true => rw [recordZhanbu_stored hs, lookup_insert_eq, if_pos rfl, if_pos ⟨he, rfl⟩]
    | false => rw [recordZhanbu_refused hs, if_neg (by simp), h]
  · rw [if_neg he, if_neg (fun hp => he hp.1), h]

theorem inForce_cons (first r : Request) (mid : List Request) : inForce cal first (r :: mid) =
    inForce cal (if r.uid = first.uid ∧ expired cal (first.row cal).expireTime r = true ∧ r.stored cal = true then r
      else first) mid := rfl

theorem lookup_serve {first : Request} (h : t.lookup first.uid = some (first.row cal)) (mid : List Request) :
    (serve cal basemapPath t mid).lookup first.uid = some ((inForce cal first mid).row cal) := by
  induction mid generalizing t first with
  | nil => exact h
  | cons r mid ih =>
      rw [inForce_cons]
      change (serve cal basemapPath (getEorzeaZhanbu cal basemapPath t r).1 mid).lookup first.uid = _
      by_cases hu : r.uid = first.uid
      · have hr : t.lookup r.uid = some (first.row cal) := by rw [hu, h]
        have hstep := @lookup_step_self cal basemapPath t first r hr
        by_cases hd : expired cal (first.row cal).expireTime r = true ∧ r.stored cal = true
        · rw [if_pos hd] at hstep
          rw [if_pos ⟨hu, hd⟩, ← hu]
          exact ih hstep
        · rw [if_neg hd, hu] at hstep
          rw [if_neg (fun hp => hd hp.2)]
          exact ih hstep
      · rw [if_neg (fun hp => hu hp.1)]
        exact ih ((lookup_step_other (Ne.symm hu)).trans h)

/-- A first draw, as the request sees it. -/
def Fresh (cal : Calendar) (t : ZhanbuResults) (r : Request) : Prop :=
  expired cal (getZhanbuRecord t r.uid).2.2.2.2.2.2 r = true

instance (cal : Calendar) (t : ZhanbuResults) (r : Request) : Decidable (Fresh cal t r) :=
  inferInstanceAs (Decidable (_ = true))

theorem getEorzeaZhanbu_fresh {r : Request} (h : Fresh cal t r) : getEorzeaZhanbu cal basemapPath t r =
    ((recordZhanbu t r.uid (r.row cal) r.served).1, r.freshCard basemapPath) := by
  rw [getEorzeaZhanbu]
  split
  next text0 text1 text2 text3 text4 text5 expireTime heq =>
    rw [Fresh, heq] at h
    rw [if_pos h]

/-- The same card is drawn again exactly when the record in force is not expired
and gives the first card with two texts exchanged, or it is expired and the new
draw happens to be the first one. -/
theorem card_again_iff {first : Request} {mid : List Request} {later : Request} (hfresh : Fresh cal t first)
    (hstored : first.stored cal = true) (hlater : later.uid = first.uid) :
    (getEorzeaZhanbu cal basemapPath (serve cal basemapPath t (first :: mid)) later).2 =
        (getEorzeaZhanbu cal basemapPath t first).2 ↔
      (expired cal ((inForce cal first mid).row cal).expireTime later = false ∧
          exchanged ((inForce cal first mid).freshCard basemapPath) = first.freshCard basemapPath) ∨
        (expired cal ((inForce cal first mid).row cal).expireTime later = true ∧
          later.freshCard basemapPath = first.freshCard basemapPath) := by
  have hafter : (getEorzeaZhanbu cal basemapPath t first).1.lookup first.uid = some (first.row cal) := by
    rw [getEorzeaZhanbu_fresh hfresh, recordZhanbu_stored hstored, lookup_insert_eq, if_pos rfl]
  have hrecord : (serve cal basemapPath t (first :: mid)).lookup later.uid =
      some ((inForce cal first mid).row cal) := by
    rw [hlater]
    exact lookup_serve hafter mid
  rw [getEorzeaZhanbu_recorded hrecord, getEorzeaZhanbu_fresh hfresh]
  cases expired cal ((inForce cal first mid).row cal).expireTime later <;> simp

/-- Without a new draw in between this says that the dye and the appended message
are one text. -/
theorem exchanged_eq_iff (r : Request) :
    exchanged (r.freshCard basemapPath) = r.freshCard basemapPath ↔ r.result.dye = r.result.appendMsg := by
  rw [exchanged, Request.freshCard, Card.mk.injEq]
  constructor
  · intro h
    exact h.2.2.2.2.1
  · intro h
    exact ⟨rfl, rfl, rfl, h.symm, h, rfl⟩

end Stability

section Example

/-- Eight hours east of UTC, the dates as days since 1970. -/
def beijing : Calendar where
  Date := Int
  localtime t := ⟨(t + 28800) / 86400, (t + 28800) % 86400 / 3600, (t + 28800) % 3600 / 60, (t + 28800) % 60⟩
  mktime tm := tm.date * 86400 + tm.hour * 3600 + tm.min * 60 + tm.sec - 28800

def asking (now : Int) : Request where
  uid := 10001
  now := now
  result := ⟨bytes "60%", bytes "宜 诸事皆宜", bytes "忌 无", bytes "无瑕白染剂", bytes "美好的一天，适合挂机呢~", bytes "白魔"⟩
  file := bytes "1.png"
  recordedAt := now
  served := true

theorem card_again_iff_asking :
    (getEorzeaZhanbu beijing id (serve beijing id ∅ [asking 1650604529]) (asking 1650604539)).2 =
        (getEorzeaZhanbu beijing id ∅ (asking 1650604529)).2 ↔
      (expired beijing ((inForce beijing (asking 1650604529) []).row beijing).expireTime (asking 1650604539) = false ∧
          exchanged ((inForce beijing (asking 1650604529) []).freshCard id) = (asking 1650604529).freshCard id) ∨
        (expired beijing ((inForce beijing (asking 1650604529) []).row beijing).expireTime (asking 1650604539) = true ∧
          (asking 1650604539).freshCard id = (asking 1650604529).freshCard id) :=
  card_again_iff (by decide) (by decide +kernel) rfl

/-- Ten seconds later the dye stands where the message stood. -/
theorem card_changes :
    (beijing.localtime (asking 1650604529).now).date = (beijing.localtime (asking 1650604539).now).date ∧
      Fresh beijing ∅ (asking 1650604529) ∧ (asking 1650604529).stored beijing = true ∧
      (getEorzeaZhanbu beijing id ∅ (asking 1650604529)).2.dye = bytes "无瑕白染剂" ∧
      (getEorzeaZhanbu beijing id (serve beijing id ∅ [asking 1650604529]) (asking 1650604539)).2.dye =
        bytes "美好的一天，适合挂机呢~" ∧
      (getEorzeaZhanbu beijing id (serve beijing id ∅ [asking 1650604529]) (asking 1650604539)).2 ≠
        (getEorzeaZhanbu beijing id ∅ (asking 1650604529)).2 := by
  refine ⟨rfl, ?_, ?_, ?_, ?_, ?_⟩ <;> decide

end Example

end MigangBot.ZhanbuStability
