import MigangBot.BilibiliParser
import MigangBot.Lib.Runs
import MigangBot.Mentions
import MigangBot.RedisCommand

namespace MigangBot.BilibiliCache

open Lib.Exceptions Lib.Runs Text ApiTypes RedisCommand
open BilibiliParser (videoMessage bangumiMessage liveMessage kExpiredTime kExpiredTimeCache)

section Code

def seconds (n : Nat) : Bytes := decimal (UInt64.ofNat n)

def cacheKey (url : Bytes) : Bytes := bytes "bcache:" ++ url

def repeatKey (url : Bytes) (groupId : GId) : Bytes :=
  bytes "bnotrepeat:" ++ (decimal groupId ++ (bytes ":" ++ url))

inductive Operation
  | isInCache (url : Bytes) (groupId : GId)
  | addInCacheNotRepeat (url : Bytes) (groupId : GId)
  | addInCache (url value : Bytes)
  | getFromCache (url : Bytes)

/-- The texts that are handed to Execute. -/
def Operation.command : Operation → Bytes
  | isInCache url groupId => bytes "GET" ++ char ' ' :: repeatKey url groupId
  | addInCacheNotRepeat url groupId => bytes "SET" ++ char ' ' :: (repeatKey url groupId ++ char ' ' ::
      (bytes "0" ++ char ' ' :: (bytes "EX" ++ char ' ' :: seconds kExpiredTime)))
  | addInCache url value => bytes "SET" ++ char ' ' :: (cacheKey url ++ char ' ' ::
      (value ++ char ' ' :: (bytes "EX" ++ char ' ' :: seconds kExpiredTimeCache)))
  | getFromCache url => bytes "GET" ++ char ' ' :: cacheKey url

variable (directive : Directive) (link : Link) (s : Server) (now : Nat)

def isInCache (url : Bytes) (groupId : GId) : Bool :=
  match (execute directive link s now (Operation.isInCache url groupId).command).2 with
  | none => false
  | some .nil => false
  | some _ => true

def addInCacheNotRepeat (url : Bytes) (groupId : GId) : Server × Bool :=
  let (s, reply) := execute directive link s now (Operation.addInCacheNotRepeat url groupId).command
  (s, reply.isSome)

def addInCache (url value : Bytes) : Server × Bool :=
  let (s, reply) := execute directive link s now (Operation.addInCache url value).command
  (s, reply.isSome)

/-- The reply's text is read whatever the reply is. -/
def getFromCache (url : Bytes) : Bytes :=
  match (execute directive link s now (Operation.getFromCache url).command).2 with
  | none => []
  | some .nil => []
  | some reply => cString reply.str

end Code

section Messages

/-- What a message begins with, up to its first space. -/
def heads : List Bytes := [bytes "[标题]", bytes "[直播中]\n[标题]", bytes "[未开播]\n[标题]"]

/-- The messages that the three functions build. -/
inductive Built : Bytes → Prop
  | video {title author description imgUrl link v : Bytes} :
      videoMessage title author description imgUrl link = .ok v → Built v
  | bangumi {title description coverImage link v : Bytes} :
      bangumiMessage title description coverImage link = .ok v → Built v
  | live (status : Int) (title name cover link : Bytes) : Built (liveMessage status title name cover link)

theorem word_heads : ∀ head ∈ heads, Word head := by
  have h : ∀ head ∈ heads, char ' ' ∉ head ∧ char '%' ∉ head ∧ head ≠ [] ∧ 0 ∉ head := by decide
  exact fun head hhead => word_of (h head hhead)

theorem bracket_heads : ∀ head ∈ heads, ∃ rest, head = char '[' :: rest := by
  have h : ∀ head ∈ heads, head.head? = some (char '[') := by decide
  intro head hhead
  exact List.head?_eq_some_iff.mp (h head hhead)

theorem cString_cons {c : UInt8} (h : c ≠ 0) (x : Bytes) : cString (c :: x) = c :: cString x :=
  List.takeWhile_cons_of_pos (by simpa using h)

/-- The text of a refusal begins with a capital letter. -/
theorem cString_str (e : Refusal) : ∃ c rest, cString e.str = c :: rest ∧ c ≤ char 'Z' := by
  obtain ⟨c, kind, hkind⟩ := List.exists_cons_of_ne_nil e.kind_ne_nil
  obtain ⟨hlow, hhigh⟩ := e.capital c (hkind ▸ List.mem_cons_self)
  have hzero : c ≠ 0 := by
    rintro rfl
    exact absurd hlow (by decide)
  rw [Refusal.str, hkind]
  exact ⟨c, _, cString_cons hzero _, hhigh⟩

theorem cString_str_ne_nil (e : Refusal) : cString e.str ≠ [] := by
  obtain ⟨c, rest, h, _⟩ := cString_str e
  rw [h]
  exact List.cons_ne_nil c rest

theorem cString_str_ne_head (e : Refusal) {head : Bytes} (hhead : head ∈ heads) : cString e.str ≠ cString head := by
  obtain ⟨c, rest, hstr, hc⟩ := cString_str e
  obtain ⟨tail, rfl⟩ := bracket_heads head hhead
  rw [hstr, cString_cons (by decide)]
  intro h
  rw [(List.cons.inj h).1] at hc
  exact absurd hc (by decide)

theorem Built.head {v : Bytes} (h : Built v) : ∃ head ∈ heads, ∃ rest, v = head ++ char ' ' :: rest := by
  have htitle : bytes "[标题] " = bytes "[标题]" ++ [char ' '] := by decide
  have hline : bytes "\n[标题] " = bytes "\n[标题]" ++ [char ' '] := by decide
  cases h with
  | video h =>
      obtain ⟨_, _, h⟩ := bind_eq_ok.mp h
      cases h
      rw [htitle, List.append_assoc]
      exact ⟨_, List.mem_cons_self, _, rfl⟩
  | bangumi h =>
      obtain ⟨_, _, h⟩ := bind_eq_ok.mp h
      cases h
      rw [htitle, List.append_assoc]
      exact ⟨_, List.mem_cons_self, _, rfl⟩
  | live status title name cover link =>
      rw [liveMessage, hline, List.append_assoc, ← List.append_assoc]
      split
      · exact ⟨bytes "[直播中]" ++ bytes "\n[标题]", by decide, _, rfl⟩
      · exact ⟨bytes "[未开播]" ++ bytes "\n[标题]", by decide, _, rfl⟩

end Messages

section Arguments

variable {directive : Directive} {args : List Bytes} {url : Bytes}

/-- What the text of a command is cut into. -/
def argsOf (directive : Directive) (op : Operation) : Option (List Bytes) :=
  format directive 0 none [] (cString op.command)

theorem plain_append {x y : Bytes} (hx : Plain x) (hy : Plain y) : Plain (x ++ y) where
  space h := (List.mem_append.mp h).elim hx.space hy.space
  percent h := (List.mem_append.mp h).elim hx.percent hy.percent

theorem plain_cString {x : Bytes} (hx : Plain x) : Plain (cString x) where
  space h := hx.space (List.takeWhile_subset _ h)
  percent h := hx.percent (List.takeWhile_subset _ h)

theorem plain_decimal (n : UInt64) : Plain (decimal n) := by
  constructor
  · intro h
    have := (Mentions.digits_decimal n _ h).1
    revert this
    decide
  · intro h
    have := (Mentions.digits_decimal n _ h).1
    revert this
    decide

theorem plain_cacheKey (h : Plain url) : Plain (cacheKey url) :=
  plain_append ⟨by decide, by decide⟩ h

theorem plain_repeatKey (h : Plain url) (groupId : GId) : Plain (repeatKey url groupId) :=
  plain_append ⟨by decide, by decide⟩
    (plain_append (plain_decimal groupId) (plain_append ⟨by decide, by decide⟩ h))

theorem format_head {word : Bytes} (h : Word word) (args : List Bytes) (rest : Bytes) :
    format directive 0 none args (cString (word ++ char ' ' :: rest)) =
      format directive 0 none (args ++ [word]) (cString rest) := by
  have hspace : (0 : UInt8) ∉ [char ' '] := by decide
  rw [cString_append_clean h.clean, ← List.singleton_append, cString_append_clean hspace]
  exact format_word h.toPlain h.ne_nil args (cString rest)

theorem format_last {word : Bytes} (hword : Plain word) (hne : cString word ≠ []) (args : List Bytes) :
    format directive 0 none args (cString word) = some (args ++ [cString word]) := by
  have h := @format_start directive _ (plain_cString hword) hne args []
  rw [List.append_nil] at h
  rw [h]
  rfl

/-- A key that has an end in it is the last argument. -/
theorem format_key {key : Bytes} (hkey : Plain key) (hne : cString key ≠ []) {args args' : List Bytes} {rest : Bytes}
    (h : format directive 0 none args (cString (key ++ char ' ' :: rest)) = some args') :
    args' = args ++ [cString key] ∨ format directive 0 none (args ++ [key]) (cString rest) = some args' := by
  by_cases hzero : 0 ∈ key
  · rw [cString_append_cut hzero, format_last hkey hne] at h
    exact .inl (Option.some.inj h).symm
  · have hkey' : key ≠ [] := by
      rintro rfl
      exact hne rfl
    rw [format_head ⟨hkey, hkey', hzero⟩] at h
    exact .inr h

theorem cString_cacheKey (url : Bytes) : cString (cacheKey url) = cacheKey (cString url) :=
  cString_append_clean (by decide) url

theorem cacheKey_ne_nil (url : Bytes) : cacheKey url ≠ [] := List.append_ne_nil_of_left_ne_nil (by decide) _

theorem argsOf_getFromCache (h : Plain url) :
    argsOf directive (.getFromCache url) = some [bytes "GET", cacheKey (cString url)] := by
  have hne : cString (cacheKey url) ≠ [] := by
    rw [cString_cacheKey]
    exact cacheKey_ne_nil _
  rw [argsOf, Operation.command, format_head (word_of (by decide)),
    format_last (plain_cacheKey h) hne, cString_cacheKey]
  rfl

/-- The operations of the claim's domain. -/
def Proper : Operation → Prop
  | .isInCache url _ => Plain url
  | .addInCacheNotRepeat url _ => Plain url
  | .addInCache url value => Plain url ∧ Built value
  | .getFromCache url => Plain url

theorem cString_repeatKey (url : Bytes) (groupId : GId) :
    ∃ rest, cString (repeatKey url groupId) = bytes "bnotrepeat:" ++ rest :=
  ⟨_, cString_append_clean (by decide) _⟩

theorem cString_repeatKey_ne_nil (url : Bytes) (groupId : GId) : cString (repeatKey url groupId) ≠ [] := by
  obtain ⟨rest, h⟩ := cString_repeatKey url groupId
  rw [h]
  exact List.append_ne_nil_of_left_ne_nil (by decide) _

theorem repeatKey_ne_cacheKey (rest url : Bytes) : bytes "bnotrepeat:" ++ rest ≠ cacheKey url := by
  intro h
  have hprefix := congrArg (List.take 2) h
  rw [cacheKey, List.take_append_of_le_length (by decide), List.take_append_of_le_length (by decide)]
    at hprefix
  exact absurd hprefix (by decide)

/-- Whatever text is to be stored for an address, the value of the SET is what the
message begins with. -/
theorem value_of_args {op : Operation} (hop : Proper op) {value : Bytes} {more : List Bytes}
    (h : argsOf directive op = some (bytes "SET" :: cacheKey url :: value :: more)) : value ∈ heads := by
  have hget {key : Bytes} (hargs : format directive 0 none [] (cString (bytes "GET" ++ char ' ' :: key)) =
      some (bytes "SET" :: cacheKey url :: value :: more)) : False := by
    rw [format_head (word_of (by decide))] at hargs
    have := List.cons_prefix_cons.mp (prefix_of_format hargs)
    exact absurd this.1 (by decide)
  cases op with
  | isInCache url' groupId => exact (hget h).elim
  | getFromCache url' => exact (hget h).elim
  | addInCacheNotRepeat url' groupId =>
      obtain ⟨rest, hrest⟩ := cString_repeatKey url' groupId
      have hne := cString_repeatKey_ne_nil url' groupId
      rw [argsOf, Operation.command, format_head (word_of (by decide))] at h
      rcases format_key (plain_repeatKey hop groupId) hne h with h | h
      · cases h
      · have hkey := (List.cons_prefix_cons.mp (List.cons_prefix_cons.mp (prefix_of_format h)).2).1
        exact absurd hkey (repeatKey_ne_cacheKey _ url)
  | addInCache url' v =>
      obtain ⟨hurl, hv⟩ := hop
      obtain ⟨head, hhead, rest, rfl⟩ := hv.head
      have hne : cString (cacheKey url') ≠ [] := by
        rw [cString_cacheKey]
        exact cacheKey_ne_nil _
      rw [argsOf, Operation.command, format_head (word_of (by decide))] at h
      rcases format_key (plain_cacheKey hurl) hne h with h | h
      · cases h
      · rw [List.append_assoc head, @List.cons_append _ (char ' '), format_head (word_heads head hhead)] at h
        have htail := (List.cons_prefix_cons.mp (prefix_of_format h)).2
        have hvalue := (List.cons_prefix_cons.mp (List.cons_prefix_cons.mp htail).2).1
        rw [← hvalue]
        exact hhead

end Arguments

section RepeatKeys

variable {directive : Directive} {url : Bytes}

theorem clean_repeatKey (h : 0 ∉ url) (groupId : GId) : 0 ∉ repeatKey url groupId := by
  have hdecimal : (0 : UInt8) ∉ decimal groupId := by
    intro hm
    exact absurd (Mentions.digits_decimal groupId 0 hm).1 (by decide)
  have htitle : (0 : UInt8) ∉ bytes "bnotrepeat:" := by decide
  have hcolon : (0 : UInt8) ∉ bytes ":" := by decide
  simp only [repeatKey, List.mem_append, not_or]
  exact ⟨htitle, hdecimal, hcolon, h⟩

theorem repeatKey_ne_nil (url : Bytes) (groupId : GId) : repeatKey url groupId ≠ [] :=
  List.append_ne_nil_of_left_ne_nil (by decide) _

/-- The group ends at the colon. -/
theorem repeatKey_inj {url' : Bytes} {groupId groupId' : GId} (h : repeatKey url groupId = repeatKey url' groupId') :
    groupId = groupId' ∧ url = url' := by
  have hgroup (groupId : GId) (url : Bytes) :
      (decimal groupId ++ (bytes ":" ++ url)).takeWhile (· != char ':') = decimal groupId := by
    have hdigits : ∀ c ∈ decimal groupId, (c != char ':') = true := by
      intro c hc
      rw [bne_iff_ne]
      rintro rfl
      exact absurd (Mentions.digits_decimal groupId _ hc).2 (by decide)
    have hcolon : bytes ":" ++ url = char ':' :: url := by
      rw [show bytes ":" = [char ':'] by decide, List.singleton_append]
    rw [List.takeWhile_append_of_pos hdigits, hcolon, List.takeWhile_cons_of_neg (by simp), List.append_nil]
  have h := List.append_cancel_left h
  have hsame := hgroup groupId url
  rw [h, hgroup] at hsame
  rw [hsame] at h
  exact ⟨(Digits.decimal_inj.mp hsame).symm, List.append_cancel_left (List.append_cancel_left h)⟩

theorem argsOf_isInCache (h : Plain url) (groupId : GId) :
    argsOf directive (.isInCache url groupId) = some [bytes "GET", cString (repeatKey url groupId)] := by
  rw [argsOf, Operation.command, format_head (word_of (by decide)),
    format_last (plain_repeatKey h groupId) (cString_repeatKey_ne_nil url groupId)]
  rfl

theorem argsOf_addInCacheNotRepeat (h : Plain url) (hzero : 0 ∉ url) (groupId : GId) :
    argsOf directive (.addInCacheNotRepeat url groupId) =
      some [bytes "SET", repeatKey url groupId, bytes "0", bytes "EX", bytes "15"] := by
  have hseconds : seconds kExpiredTime = bytes "15" := by decide
  rw [argsOf, Operation.command, format_head (word_of (by decide)),
    format_head ⟨plain_repeatKey h groupId, repeatKey_ne_nil url groupId, clean_repeatKey hzero groupId⟩,
    format_head (word_of (by decide)), format_head (word_of (by decide)), hseconds,
    format_last ⟨by decide, by decide⟩ (by decide)]
  rfl

/-- The server holds the keys that the ideal store holds, for the addresses that the
commands leave as they are. -/
def Represents (s : Server) (redis : BilibiliParser.Redis) : Prop :=
  ∀ url groupId now, Plain url → 0 ∉ url →
    (Lib.Expiry.get s now (repeatKey url groupId)).isSome = (Lib.Expiry.get redis.bnotrepeat now (groupId, url)).isSome

theorem Represents.isInCache {s : Server} {redis : BilibiliParser.Redis} (h : Represents s redis) (hurl : Plain url)
    (hzero : 0 ∉ url) (now : Nat) (groupId : GId) :
    isInCache directive .up s now url groupId = BilibiliParser.isInCache redis now url groupId := by
  have hargs := @argsOf_isInCache directive url hurl groupId
  rw [argsOf, cString_clean (clean_repeatKey hzero groupId)] at hargs
  rw [BilibiliParser.isInCache, ← h url groupId now hurl hzero, BilibiliCache.isInCache, execute, hargs]
  simp only [exec, if_true, RedisCommand.get]
  cases Lib.Expiry.get s now (repeatKey url groupId) with
  | none => rfl
  | some value => rfl

theorem addInCacheNotRepeat_eq (hurl : Plain url) (hzero : 0 ∉ url) (s : Server) (now : Nat) (groupId : GId) :
    addInCacheNotRepeat directive .up s now url groupId =
      (Lib.Expiry.set s (repeatKey url groupId) (bytes "0") (some (now + kExpiredTime)), true) := by
  have hargs := @argsOf_addInCacheNotRepeat directive url hurl hzero groupId
  have hdeadline : deadlineOf now [bytes "EX", bytes "15"] = some (some (now + kExpiredTime)) := by
    rw [deadlineOf, if_pos (by decide)]
    rfl
  rw [argsOf] at hargs
  rw [addInCacheNotRepeat, execute, hargs]
  simp only [exec, if_true, RedisCommand.set, hdeadline, Option.isSome_some]

theorem Represents.addInCacheNotRepeat {s : Server} {redis : BilibiliParser.Redis} (h : Represents s redis)
    (hurl : Plain url) (hzero : 0 ∉ url) (now : Nat) (groupId : GId) :
    Represents (addInCacheNotRepeat directive .up s now url groupId).1
      (BilibiliParser.addInCacheNotRepeat redis now url groupId) := by
  intro url' groupId' later hurl' hzero'
  rw [addInCacheNotRepeat_eq hurl hzero, BilibiliParser.addInCacheNotRepeat, Lib.Expiry.get_set, Lib.Expiry.get_set]
  by_cases hkey : groupId' = groupId ∧ url' = url
  · obtain ⟨rfl, rfl⟩ := hkey
    rw [if_pos rfl, if_pos rfl]
    split <;> rfl
  · have hserver : repeatKey url' groupId' ≠ repeatKey url groupId := fun heq => hkey (repeatKey_inj heq)
    have hideal : (groupId', url') ≠ (groupId, url) := fun heq => hkey (Prod.mk.inj heq)
    rw [if_neg hserver, if_neg hideal]
    exact h url' groupId' later hurl' hzero'

end RepeatKeys

section Runs

variable (directive : Directive)

structure Call where
  op : Operation
  link : Link
  now : Nat

structure State where
  server : Server
  clock : Nat

def start : State := ⟨∅, 0⟩

/-- The operations of the module, one after the other as the clock goes. -/
structure Step (s : State) (c : Call) (t : State) : Prop where
  proper : Proper c.op
  clock : s.clock ≤ c.now
  after : t = ⟨(execute directive c.link s.server c.now c.op.command).1, c.now⟩

variable {directive}

/-- A value got there by a SET with it. -/
theorem set_of_get {s : Server} {now later : Nat} {args : List Bytes} {key value : Bytes}
    (h : Lib.Expiry.get (exec s now args).1 later key = some value) :
    Lib.Expiry.get s later key = some value ∨ ∃ more, args = bytes "SET" :: key :: value :: more := by
  match args with
  | [] => exact .inl h
  | [_] => exact .inl h
  | [command, _] =>
      rw [exec] at h
      split at h
      · exact .inl h
      · exact .inl h
  | command :: key' :: value' :: options =>
      rw [exec] at h
      split at h
      next hset =>
        unfold RedisCommand.set at h
        split at h
        next deadline _ =>
          rw [Lib.Expiry.get_set] at h
          split at h
          next hkey =>
            subst hkey hset
            obtain ⟨_, hvalue⟩ := Option.ite_none_right_eq_some.mp h
            rw [Option.some.inj hvalue]
            exact .inr ⟨options, rfl⟩
          next => exact .inl h
        next => exact .inl h
      next => exact .inl h

theorem set_of_execute {link : Link} {s : Server} {now later : Nat} {op : Operation} {key value : Bytes}
    (h : Lib.Expiry.get (execute directive link s now op.command).1 later key = some value) :
    Lib.Expiry.get s later key = some value ∨
      ∃ more, argsOf directive op = some (bytes "SET" :: key :: value :: more) := by
  rw [execute] at h
  split at h
  next => exact .inl h
  next args hargs =>
    have hset : Lib.Expiry.get (exec s now args).1 later key = some value →
        Lib.Expiry.get s later key = some value ∨
          ∃ more, argsOf directive op = some (bytes "SET" :: key :: value :: more) := by
      intro hexec
      rcases set_of_get hexec with hold | ⟨more, rfl⟩
      · exact .inl hold
      · exact .inr ⟨more, hargs⟩
    cases link with
    | up => exact hset h
    | refused => exact .inl h
    | lost => exact hset h
    | down => exact .inl h

/-- The text was the value of a SET for the key. -/
def Stored (directive : Directive) (past : List Call) (key value : Bytes) : Prop :=
  ∃ c ∈ past, Proper c.op ∧ ∃ more, argsOf directive c.op = some (bytes "SET" :: key :: value :: more)

theorem stored_of_get {past : List Call} {s : State} (h : Run (Step directive) start past s) {later : Nat}
    {key value : Bytes} (hget : Lib.Expiry.get s.server later key = some value) : Stored directive past key value := by
  have hinv := h.history_invariant (fun past s => ∀ key value, Lib.Expiry.get s.server later key = some value →
    Stored directive past key value) ?_ [] ?_
  · exact hinv key value hget
  · intro past s c t hpast hstep key value hget
    rw [hstep.after] at hget
    rcases set_of_execute hget with hold | ⟨more, hargs⟩
    · obtain ⟨c', hc', hstored⟩ := hpast key value hold
      exact ⟨c', List.mem_append_left _ hc', hstored⟩
    · exact ⟨c, List.mem_append_right _ List.mem_cons_self, hstep.proper, more, hargs⟩
  · intro key value hget
    cases hget

theorem value_of_stored {past : List Call} {url value : Bytes} (h : Stored directive past (cacheKey url) value) :
    value ∈ heads := by
  obtain ⟨c, _, hproper, more, hargs⟩ := h
  exact value_of_args hproper hargs

theorem getFromCache_refused {url : Bytes} (h : Plain url) (e : Refusal) (s : Server) (now : Nat) :
    getFromCache directive (.refused e) s now url = cString e.str := by
  have hargs := @argsOf_getFromCache directive url h
  rw [argsOf] at hargs
  rw [getFromCache, execute, hargs]
  rfl

theorem getFromCache_eq {url : Bytes} (h : Plain url) {link : Link} (hlink : link.refuses = false) (s : Server)
    (now : Nat) : getFromCache directive link s now url = [] ∨ ∃ value,
      Lib.Expiry.get s now (cacheKey (cString url)) = some value ∧
      getFromCache directive link s now url = cString value := by
  have hargs := @argsOf_getFromCache directive url h
  rw [argsOf] at hargs
  rw [getFromCache, execute, hargs]
  cases link with
  | up =>
      simp only [exec, if_true, RedisCommand.get]
      cases Lib.Expiry.get s now (cacheKey (cString url)) with
      | none => exact .inl rfl
      | some value => exact .inr ⟨value, rfl, rfl⟩
  | refused => cases hlink
  | lost => exact .inl rfl
  | down => exact .inl rfl

theorem addInCache_true (link : Link) (s : Server) (now : Nat) (url v : Bytes) :
    (addInCache directive link s now url v).2 = true ↔
      link.answers = true ∧ argsOf directive (.addInCache url v) ≠ none := by
  rw [addInCache, execute, argsOf]
  cases format directive 0 none [] (cString (Operation.addInCache url v).command) with
  | none =>
      constructor
      · intro h
        cases h
      · intro h
        exact absurd rfl h.2
  | some args =>
      have hargs : some args ≠ none := Option.some_ne_none args
      cases link with
      | up => exact ⟨fun _ => ⟨rfl, hargs⟩, fun _ => rfl⟩
      | refused => exact ⟨fun _ => ⟨rfl, hargs⟩, fun _ => rfl⟩
      | lost => exact ⟨nofun, fun h => h.1⟩
      | down => exact ⟨nofun, fun h => h.1⟩

end Runs

section Law

variable (directive : Directive)

/-- Nothing but another AddInCache for the address changes what GetFromCache gives, for
as long as the entry is to be kept. -/
def RoundTrip (link : Link) (s : Server) (now : Nat) (url v : Bytes) : Prop :=
  (addInCache directive link s now url v).2 = true →
    ∀ (calls : List Call) (t : State), Run (Step directive) ⟨(addInCache directive link s now url v).1, now⟩ calls t →
      (∀ c ∈ calls, ∀ v', c.op ≠ .addInCache url v') →
      ∀ later, t.clock ≤ later → later < now + kExpiredTimeCache → getFromCache directive .up t.server later url = v

def OnlyStored (past : List Call) (link : Link) (s : Server) (now : Nat) (url : Bytes) : Prop :=
  getFromCache directive link s now url = [] ∨ ∃ value, Stored directive past (cacheKey (cString url)) value ∧
    getFromCache directive link s now url = cString value

variable {directive} {past : List Call} {s : State}

theorem RoundTrip.at_once {link : Link} {s : Server} {now : Nat} {url v : Bytes}
    (h : RoundTrip directive link s now url v) (hadded : (addInCache directive link s now url v).2 = true) {later : Nat}
    (hfrom : now ≤ later) (hto : later < now + kExpiredTimeCache) :
    getFromCache directive .up (addInCache directive link s now url v).1 later url = v :=
  h hadded [] _ (.nil _) (fun _ hc => by cases hc) later hfrom hto

/-- A message has a space in it, which no value has that a SET can store. -/
theorem getFromCache_ne (h : Run (Step directive) start past s) {url v : Bytes} (hurl : Plain url) (hv : Built v)
    (later : Nat) : getFromCache directive .up s.server later url ≠ v := by
  intro hget
  have hspace : char ' ' ∈ v := by
    obtain ⟨head, _, rest, rfl⟩ := hv.head
    exact List.mem_append_right _ List.mem_cons_self
  have hempty : getFromCache directive .up s.server later url ≠ [] := by
    rw [hget]
    exact List.ne_nil_of_mem hspace
  obtain ⟨value, hstore, htext⟩ := (getFromCache_eq hurl rfl s.server later).resolve_left hempty
  have hhead := word_heads value (value_of_stored (stored_of_get h hstore))
  rw [← hget, htext] at hspace
  exact (plain_cString hhead.toPlain).space hspace

theorem roundTrip_iff (h : Run (Step directive) start past s) {url v : Bytes} (hurl : Plain url) (hv : Built v)
    {now : Nat} (hnow : s.clock ≤ now) (link : Link) : RoundTrip directive link s.server now url v ↔
      (link.answers = true → argsOf directive (.addInCache url v) = none) := by
  constructor
  · intro hlaw hlink
    by_contra hargs
    have hadded := (addInCache_true link s.server now url v).mpr ⟨hlink, hargs⟩
    have hrun : Run (Step directive) start (past ++ [⟨.addInCache url v, link, now⟩])
        ⟨(addInCache directive link s.server now url v).1, now⟩ := h.snoc ⟨⟨hurl, hv⟩, hnow, rfl⟩
    have hlater : now < now + kExpiredTimeCache := Nat.lt_add_of_pos_right (by decide)
    exact getFromCache_ne hrun hurl hv now (hlaw.at_once hadded le_rfl hlater)
  · intro hcond hadded
    obtain ⟨hlink, hargs⟩ := (addInCache_true link s.server now url v).mp hadded
    exact absurd (hcond hlink) hargs

theorem onlyStored_iff (h : Run (Step directive) start past s) {url : Bytes} (hurl : Plain url) (now : Nat)
    (link : Link) : OnlyStored directive past link s.server now url ↔ link.refuses = false := by
  constructor
  · intro hlaw
    cases link with
    | up => rfl
    | lost => rfl
    | down => rfl
    | refused e =>
        rw [OnlyStored, getFromCache_refused hurl] at hlaw
        rcases hlaw with hempty | ⟨value, hstored, htext⟩
        · exact absurd hempty (cString_str_ne_nil e)
        · exact absurd htext (cString_str_ne_head e (value_of_stored hstored))
  · intro hlink
    rcases getFromCache_eq hurl hlink s.server now with hempty | ⟨value, hstore, htext⟩
    · exact .inl hempty
    · exact .inr ⟨value, stored_of_get h hstore, htext⟩

/-- Every message has a space in it, so that the SET has arguments too many. The server
answers it with an error, which AddInCache counts as a success. -/
theorem cache_law_iff (h : Run (Step directive) start past s) {url v : Bytes} (hurl : Plain url) (hv : Built v)
    {now : Nat} (hnow : s.clock ≤ now) (link reader : Link) :
    (RoundTrip directive link s.server now url v ∧ OnlyStored directive past reader s.server now url) ↔
      (link.answers = true → argsOf directive (.addInCache url v) = none) ∧ reader.refuses = false := by
  rw [roundTrip_iff h hurl hv hnow link, onlyStored_iff h hurl now reader]

/-- A title that hiredis does not take for a format. -/
theorem cache_law_refused_format :
    let directive : Directive := fun rest => if rest.head? = some (char '%') then some (bytes "%", 1) else none
    let url := bytes "https://live.bilibili.com/7"
    let v := liveMessage 1 (bytes "100%!") (bytes "up") (bytes "http://i/c.jpg") url
    RoundTrip directive .up start.server 0 url v ∧ OnlyStored directive [] .up start.server 0 url := by
  intro directive url v
  have hurl : Plain url := ⟨by decide, by decide +kernel⟩
  have hv : Built v := .live 1 (bytes "100%!") (bytes "up") (bytes "http://i/c.jpg") url
  have hargs : (argsOf directive (.addInCache url v)).isNone = true := by decide
  exact (cache_law_iff (.nil start) hurl hv le_rfl .up .up).mpr ⟨fun _ => Option.isNone_iff_eq_none.mp hargs, rfl⟩

theorem added_and_not_found :
    let directive : Directive := fun rest => if rest.head? = some (char '%') then some (bytes "%", 1) else none
    let url := bytes "https://live.bilibili.com/7"
    let v := liveMessage 1 (bytes "game") (bytes "up") (bytes "http://i/c.jpg") url
    (addInCache directive .up start.server 0 url v).2 = true ∧
      getFromCache directive .up (addInCache directive .up start.server 0 url v).1 1 url = [] ∧
      ¬ RoundTrip directive .up start.server 0 url v := by
  intro directive url v
  have hadded : (addInCache directive .up start.server 0 url v).2 = true := by decide +kernel
  have hempty : getFromCache directive .up (addInCache directive .up start.server 0 url v).1 1 url = [] := by
    decide +kernel
  have hne : ([] : Bytes) ≠ v := by decide
  exact ⟨hadded, hempty, fun hlaw => hne (hempty.symm.trans (hlaw.at_once hadded (Nat.zero_le 1) (by decide)))⟩

end Law

end MigangBot.BilibiliCache
