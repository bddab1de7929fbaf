import MigangBot.ApiTypes
import MigangBot.Digits

namespace MigangBot.ZhanbuSeed

open Text ApiTypes Digits

/-- The functions of OpenSSL and of the standard library, with the text of the
product that GetLuckNum computes with doubles. -/
structure Libraries where
  md5 : Bytes → Bytes
  length_md5 : ∀ s, (md5 s).length = 16
  hash : Bytes → UInt64
  Engine : Type
  mt19937 : UInt64 → Engine
  uniformInt : Int → Int → Engine → Int
  uniformUnsigned : UInt32 → UInt32 → Engine → UInt32
  productText : Int32 → QId → Int → Bytes

/-- std::string of a number of times one character. -/
def ofCount (count : Nat) (ch : UInt8) : Bytes := List.replicate count ch

/-- What a string holds after bytes are written from its data on: it does not get
longer by it. -/
def writeData (s data : Bytes) : Bytes := data.take s.length ++ s.drop data.length

variable (lib : Libraries)

/-- The string md5 of both functions after the digest is written. -/
def digestString (strForMd5 : Bytes) : Bytes :=
  let md5 := ofCount (char '\x00').toNat 16
  writeData md5 (lib.md5 strForMd5)

/-- GetLuckNum, with the date that %Y%m%d gives and the random number. -/
def getLuckNum (todayInt : Int32) (randomNum : Int) (uid : QId) : Int :=
  let strForMd5 := lib.productText todayInt uid randomNum
  let e := lib.mt19937 (lib.hash (digestString lib strForMd5))
  lib.uniformInt 0 100 e

/-- The products are taken modulo 2^64. -/
def eventText (todayInt : Int32) (uid : QId) (thing : Bytes) : Bytes :=
  let today := UInt64.ofInt todayInt.toInt
  decimal (UInt64.ofNat thing.length * today) ++ (decimal (today * uid) ++ thing)

def comment (luckToday : UInt32) : Bytes :=
  if luckToday ≤ 20 then bytes "大凶"
  else if luckToday ≤ 40 then bytes "凶"
  else if luckToday ≤ 60 then bytes "小吉"
  else if luckToday ≤ 80 then bytes "中吉"
  else bytes "大吉"

def eventLuck (todayInt : Int32) (uid : QId) (thing : Bytes) : UInt32 :=
  let e := lib.mt19937 (lib.hash (digestString lib (eventText todayInt uid thing)))
  lib.uniformUnsigned 0 100 e

def getEventZhanbu (todayInt : Int32) (uid : QId) (thing : Bytes) : Bytes :=
  let luckToday := eventLuck lib todayInt uid thing
  bytes "占卜[" ++ (thing ++ (bytes "]:\n    " ++ (comment luckToday ++ (bytes "(" ++
    (decimal luckToday.toUInt64 ++ bytes ")")))))

/-- A call of one of the two functions. -/
inductive Request
  | luckNum (todayInt : Int32) (randomNum : Int) (uid : QId)
  | eventZhanbu (todayInt : Int32) (uid : QId) (thing : Bytes)

namespace Request

def strForMd5 : Request → Bytes
  | .luckNum todayInt randomNum uid => lib.productText todayInt uid randomNum
  | .eventZhanbu todayInt uid thing => eventText todayInt uid thing

def digest (r : Request) : Bytes := lib.md5 (r.strForMd5 lib)

/-- What the seed of the engine is the hash of. -/
def hashed (r : Request) : Bytes := digestString lib (r.strForMd5 lib)

end Request

theorem writeData_nil (data : Bytes) : writeData [] data = [] := by
  rw [writeData, List.length_nil, List.take_zero, List.drop_nil, List.append_nil]

/-- The first argument is the number of characters. -/
theorem digestString_eq (strForMd5 : Bytes) : digestString lib strForMd5 = [] := writeData_nil _

theorem hashed_eq (r : Request) : r.hashed lib = [] := digestString_eq lib _

theorem getLuckNum_eq (todayInt : Int32) (randomNum : Int) (uid : QId) :
    getLuckNum lib todayInt randomNum uid = lib.uniformInt 0 100 (lib.mt19937 (lib.hash [])) := by
  simp only [getLuckNum, digestString_eq]

theorem eventLuck_eq (todayInt : Int32) (uid : QId) (thing : Bytes) :
    eventLuck lib todayInt uid thing = lib.uniformUnsigned 0 100 (lib.mt19937 (lib.hash [])) := by
  simp only [eventLuck, digestString_eq]

/-- No request hashes its digest, any two hash the same string, and either
function draws the same luck for everything. -/
theorem digest_never_hashed :
    (∀ r : Request, r.hashed lib ≠ r.digest lib) ∧
      (∀ r r' : Request, r.hashed lib = r'.hashed lib) ∧
      (∃ luck, ∀ todayInt randomNum uid, getLuckNum lib todayInt randomNum uid = luck) ∧
      ∃ luck, ∀ todayInt uid thing, eventLuck lib todayInt uid thing = luck := by
  refine ⟨?_, ?_, ⟨_, getLuckNum_eq lib⟩, ⟨_, eventLuck_eq lib⟩⟩
  · intro r h
    have hlen := congrArg List.length h
    rw [hashed_eq, Request.digest, lib.length_md5, List.length_nil] at hlen
    cases hlen
  · intro r r'
    rw [hashed_eq, hashed_eq]

section Example

def treasure (uid : QId) : Request := .eventZhanbu 20220422 uid (bytes "挖宝")

def digest10001 : Bytes := [245, 170, 121, 121, 179, 190, 142, 131, 77, 183, 248, 23, 54, 104, 209, 127]

def digest10002 : Bytes := [77, 1, 162, 159, 162, 174, 150, 221, 94, 124, 170, 243, 11, 223, 211, 115]

def text10001 : Bytes := bytes "121322532202224440422挖宝"

def text10002 : Bytes := bytes "121322532202244660844挖宝"

/-- The libraries as far as the two requests go. -/
def libraries : Libraries where
  md5 s := if s = text10001 then digest10001 else if s = text10002 then digest10002 else List.replicate 16 0
  length_md5 := by
    intro s
    split
    · rfl
    · split
      · rfl
      · exact List.length_replicate
  hash s :=
    if s = digest10001 then 18252921386217581988
    else if s = digest10002 then 16962647290517793655
    else 6142509188972423790
  Engine := UInt64
  mt19937 seed := seed
  uniformInt _ _ _ := 60
  uniformUnsigned _ _ _ := 60
  productText _ _ _ := []

theorem text_treasure :
    (treasure 10001).strForMd5 libraries = text10001 ∧ (treasure 10002).strForMd5 libraries = text10002 := by
  constructor <;> decide

/-- The digests of the two users differ, and both hash the empty string. -/
theorem digests_differ_seeds_equal : (treasure 10001).digest libraries = digest10001 ∧
    (treasure 10002).digest libraries = digest10002 ∧ (treasure 10001).digest libraries ≠ (treasure 10002).digest libraries ∧
    (treasure 10001).hashed libraries = [] ∧ (treasure 10002).hashed libraries = [] := by
  have h : (treasure 10001).digest libraries = digest10001 := by
    rw [Request.digest, text_treasure.1]
    decide
  have h' : (treasure 10002).digest libraries = digest10002 := by
    rw [Request.digest, text_treasure.2]
    decide
  refine ⟨h, h', ?_, hashed_eq libraries _, hashed_eq libraries _⟩
  rw [h, h']
  decide

end Example

end MigangBot.ZhanbuSeed
