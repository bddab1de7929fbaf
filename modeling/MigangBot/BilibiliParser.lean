import MigangBot.ApiTypes
import MigangBot.Digits
import MigangBot.Lib.Expiry
import MigangBot.MessageUtility
import MigangBot.WeiboPush

namespace MigangBot.BilibiliParser

open Lib.Exceptions Lib.Expiry Text ApiTypes Digits MessageUtility
open WeiboPush (image)

section Patterns

/-- The leftmost match of a pattern. -/
def search (matchAt : Bytes → Option Bytes) : Bytes → Option Bytes
  | [] => matchAt []
  | c :: rest => (matchAt (c :: rest)).or (search matchAt rest)

/-- `\d+` -/
def digitsAt (s : Bytes) : Option Bytes := if s.takeWhile isdigit = [] then none else some (s.takeWhile isdigit)

/-- A fixed text in front of what another pattern matches. -/
def after (text : Bytes) (matchAt : Bytes → Option Bytes) (s : Bytes) : Option Bytes :=
  if startsWith s text then (matchAt (s.drop text.length)).map (text ++ ·) else none

/-- The dot of a pattern: no end of a line. -/
def anyThen (matchAt : Bytes → Option Bytes) : Bytes → Option Bytes
  | [] => none
  | c :: rest => if c = char '\n' ∨ c = char '\r' then none else (matchAt rest).map (c :: ·)

/-- `\?p=\d+` -/
def partPattern : Bytes → Option Bytes := after (bytes "?p=") digitsAt

/-- `(https|http)://live.bilibili.com/\d+` -/
def linkSearchPattern (s : Bytes) : Option Bytes :=
  let host := anyThen (after (bytes "bilibili") (anyThen (after (bytes "com/") digitsAt)))
  (after (bytes "https") (after (bytes "://live") host) s).or (after (bytes "http") (after (bytes "://live") host) s)

/-- `(ss|ep)\d+` -/
def epSsPattern (s : Bytes) : Option Bytes := (after (bytes "ss") digitsAt s).or (after (bytes "ep") digitsAt s)

/-- std::regex_replace with a text that has no references in it; no match is empty. -/
def replaceAll (matchAt : Bytes → Option Bytes) (replacement : Bytes) : Nat → Bytes → Bytes
  | _, [] => []
  | skip + 1, _ :: rest => replaceAll matchAt replacement skip rest
  | 0, c :: rest =>
      match matchAt (c :: rest) with
      | some found => replacement ++ replaceAll matchAt replacement (found.length - 1) rest
      | none => c :: replaceAll matchAt replacement 0 rest

end Patterns

section Messages

def shownDescription (description : Bytes) : Outcome Bytes := do
  return if (← strip description (char ' ')).isEmpty then description else bytes "\n" ++ description

def videoMessage (title author description imgUrl link : Bytes) : Outcome Bytes := do
  return bytes "[标题] " ++ (title ++ (bytes "\n[作者] " ++ (author ++ (bytes "\n[简介] " ++
    ((← shownDescription description) ++ (bytes "\n[封面] " ++ (image imgUrl ++ (bytes "URL:" ++ link))))))))

def bangumiMessage (title description coverImage link : Bytes) : Outcome Bytes := do
  return bytes "[标题] " ++ (title ++ (bytes "\n[简介] " ++ ((← shownDescription description) ++
    (bytes "\n[封面] " ++ (image coverImage ++ (bytes "\nURL:" ++ (link ++ bytes "\n")))))))

def liveMessage (status : Int) (title name cover link : Bytes) : Bytes :=
  (if status = 1 then bytes "[直播中]" else bytes "[未开播]") ++ (bytes "\n[标题] " ++ (title ++
    (bytes "\n[主播] " ++ (name ++ (bytes "\n[封面]" ++ (image cover ++ (bytes "\nURL:" ++ (link ++ bytes "\n"))))))))

end Messages

/-- What the network has for an address. -/
structure VideoInfo where
  title : Bytes
  desc : Bytes
  owner : Bytes
  pic : Bytes
  bvid : Bytes

structure BangumiPage where
  ogUrl : Bytes
  title : Bytes
  homeLink : Bytes
  pubInfo : Bytes
  absolute : Bytes
  ogImage : Bytes

structure LiveInfo where
  liveStatus : Int
  title : Bytes
  name : Bytes
  cover : Bytes

inductive LiveAnswer
  | missing
  | failed
  | found (info : LiveInfo)

structure Web where
  video : Option VideoInfo
  bangumi : Option BangumiPage
  live : LiveAnswer

/-- A message with the link that is printed behind URL:. -/
structure Details where
  text : Bytes
  link : Bytes

section Addresses

/-- The part of a video that is not its first. -/
def partOf (url : Bytes) : Option Bytes :=
  (search partPattern url).filter fun part => part ≠ bytes "?p=1"

def videoLink (url : Bytes) (info : VideoInfo) : Bytes :=
  bytes "https://www.bilibili.com/video/" ++ (info.bvid ++ (partOf url).getD [])

def videoTitle (url : Bytes) (info : VideoInfo) : Bytes :=
  match partOf url with
  | some part => info.title ++ (bytes "[P" ++ (part.drop 3 ++ bytes "]"))
  | none => info.title

def bangumiLink (url : Bytes) (page : BangumiPage) : Bytes :=
  replaceAll epSsPattern ((search epSsPattern url).getD []) 0 page.ogUrl

def bangumiTitle (page : BangumiPage) : Bytes :=
  page.title ++ (bytes " [" ++ (page.homeLink ++ (bytes "-" ++ (page.pubInfo ++ bytes "]"))))

def liveLink (url : Bytes) : Option Bytes := search linkSearchPattern url

inductive Kind
  | video
  | bangumi
  | live
  deriving DecidableEq

/-- The branches of ExtractDetails. -/
def kindOf (url : Bytes) : Option Kind :=
  if startsWith url (bytes "https://www.bilibili.com/video") ∨ startsWith url (bytes "http://www.bilibili.com/video") then
    some .video
  else if startsWith url (bytes "https://www.bilibili.com/bangumi") ∨
      startsWith url (bytes "http://www.bilibili.com/bangumi") then some .bangumi
  else if startsWith url (bytes "https://live.bilibili.com") ∨ startsWith url (bytes "http://live.bilibili.com") then
    some .live
  else none

end Addresses

/-- The store, with the two kinds of its keys apart. An entry of bcache is kept with
what it was made from. -/
structure Redis where
  bcache : Store Bytes Details
  bnotrepeat : Store (GId × Bytes) Unit

def kExpiredTime : Nat := 15

def kExpiredTimeCache : Nat := 120

section Cache

variable (s : Redis) (now : Nat)

def isInCache (url : Bytes) (groupId : GId) : Bool := (get s.bnotrepeat now (groupId, url)).isSome

def addInCacheNotRepeat (url : Bytes) (groupId : GId) : Redis :=
  { s with bnotrepeat := set s.bnotrepeat (groupId, url) () (some (now + kExpiredTime)) }

def addInCache (url : Bytes) (value : Details) : Redis :=
  { s with bcache := set s.bcache url value (some (now + kExpiredTimeCache)) }

/-- An empty text counts as none. -/
def getFromCache (url : Bytes) : Option Details := (get s.bcache now url).filter fun value => value.text ≠ []

end Cache

/-- What is sent for an address: details are told apart by where they come from. -/
inductive Said
  | nothing
  | notice (text : Bytes)
  | cached (details : Details)
  | fetched (details : Details)

/-- The addresses of a message are handled one after the other, each from a time on and
until a time; the network is waited for in between. -/
structure Request where
  groupId : GId
  url : Bytes
  start : Nat
  finish : Nat
  web : Web

section Parsing

variable (s : Redis) (r : Request) (url : Bytes)

/-- The end of the three functions. -/
def remember (link msg : Bytes) : Redis × Said :=
  let details := ⟨msg, link⟩
  let s := addInCache s r.finish url details
  let s := addInCacheNotRepeat s r.finish link r.groupId
  (addInCacheNotRepeat s r.finish url r.groupId, .fetched details)

def videoDetail : Outcome (Redis × Said) :=
  match r.web.video with
  | none => return (s, .nothing)
  | some info => do
      let link := videoLink url info
      if isInCache s r.finish link r.groupId then return (s, .nothing)
      else return remember s r url link (← videoMessage (videoTitle url info) info.owner info.desc info.pic link)

def bangumiDetail : Outcome (Redis × Said) :=
  match r.web.bangumi with
  | none => return (s, .nothing)
  | some page => do
      let link := bangumiLink url page
      if isInCache s r.finish link r.groupId then return (s, .nothing)
      else return remember s r url link (← bangumiMessage (bangumiTitle page) page.absolute page.ogImage link)

/-- The link is looked for before the network is asked. -/
def liveSummary : Outcome (Redis × Said) :=
  match liveLink url with
  | none => return (s, .nothing)
  | some link =>
      if isInCache s r.start link r.groupId then return (s, .nothing)
      else match r.web.live with
        | .missing => return (addInCacheNotRepeat s r.finish link r.groupId, .notice (bytes "↑ 直播间不存在~"))
        | .failed => return (s, .nothing)
        | .found info => return remember s r url link (liveMessage info.liveStatus info.title info.name info.cover link)

/-- What the three functions begin with. -/
def throughCache (detail : Outcome (Redis × Said)) : Outcome (Redis × Said) :=
  match getFromCache s r.start url with
  | some details => return (addInCacheNotRepeat s r.finish url r.groupId, .cached details)
  | none => detail

def getBilibiliVideoDetail : Outcome (Redis × Said) := throughCache s r url (videoDetail s r url)

def getBilibiliBangumiDetail : Outcome (Redis × Said) := throughCache s r url (bangumiDetail s r url)

def getLiveSummary : Outcome (Redis × Said) := throughCache s r url (liveSummary s r url)

def extractDetails : Outcome (Redis × Said) :=
  match kindOf url with
  | some .video => getBilibiliVideoDetail s r url
  | some .bangumi => getBilibiliBangumiDetail s r url
  | some .live => getLiveSummary s r url
  | none => return (s, .nothing)

/-- One turn of the loop of Parser, behind the redirects. -/
def handleUrl : Outcome (Redis × Said) := do
  if isInCache s r.start r.url r.groupId then return (s, .nothing)
  else extractDetails s r (← rStrip r.url (char ' '))

end Parsing

end MigangBot.BilibiliParser
