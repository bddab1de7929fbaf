import MigangBot.ApiTypes

namespace MigangBot.JsonReads

open Lib.Exceptions Text JsonValue ApiTypes

inductive Kind
  | uint64
  | int64
  | int
  | string
  | boolean

def Kind.low : Kind → Int
  | .int64 => -2 ^ 63
  | .int => -2 ^ 31
  | _ => 0

def Kind.high : Kind → Int
  | .uint64 => 2 ^ 64 - 1
  | .int64 => 2 ^ 63 - 1
  | .int => 2 ^ 31 - 1
  | _ => 0

/-- The JSON types that do not make the reading throw. -/
def Kind.Accepts : Kind → Json → Prop
  | .string, v => ∃ s, v = .string s
  | .boolean, v => ∃ b, v = .boolean b
  | .int, v => v.isNumber = true ∨ ∃ b, v = .boolean b
  | _, v => v.isNumber = true

/-- A double has to be in the range of the integer type it is converted to. -/
def Kind.Fits (k : Kind) (v : Json) : Prop :=
  ∀ q, v = .numberFloat q → k.low ≤ q.num.tdiv q.den ∧ q.num.tdiv q.den ≤ k.high

def Kind.Reads (k : Kind) (v : Json) : Prop := k.Accepts v ∧ k.Fits v

theorem not_reads_null (k : Kind) : ¬ k.Reads .null := by
  rintro ⟨h, _⟩
  cases k <;> simp [Kind.Accepts, Json.isNumber] at h

def asUInt64 : Json → UInt64
  | .numberUnsigned n => n
  | .numberInteger i => i.toUInt64
  | .numberFloat q => UInt64.ofNat (q.num.tdiv q.den).toNat
  | _ => 0

def asInt64 : Json → Int64
  | .numberUnsigned n => n.toInt64
  | .numberInteger i => i
  | .numberFloat q => Int64.ofInt (q.num.tdiv q.den)
  | _ => 0

def asInt : Json → Int
  | .numberUnsigned n => (n.toNat : Int).bmod (2 ^ 32)
  | .numberInteger i => i.toInt.bmod (2 ^ 32)
  | .numberFloat q => q.num.tdiv q.den
  | .boolean b => if b then 1 else 0
  | _ => 0

def asString : Json → Bytes
  | .string s => s
  | _ => []

def asBool : Json → Bool
  | .boolean b => b
  | _ => false

variable {α β : Type} {k : Kind} {get : Json → Outcome α} {read : Json → α}

/-- A getter throws at what its type does not accept, and has no meaning at
what its type has no room for. -/
structure Getter (k : Kind) (get : Json → Outcome α) (read : Json → α) : Prop where
  reads : ∀ v, k.Reads v → get v = .ok (read v)
  throws : ∀ v, ¬ k.Accepts v → get v = throwing (.json 302)
  undefined : ∀ v, k.Accepts v → ¬ k.Fits v → get v = .error .undefined

theorem truncate_of_fits {v : Json} {q : ℚ} (hf : k.Fits v) (hv : v = .numberFloat q) :
    Json.truncate k.low k.high q = .ok (q.num.tdiv q.den) := by
  simp [Json.truncate, hf q hv]

theorem truncate_of_not_fits {q : ℚ} (hf : ¬ k.Fits (.numberFloat q)) :
    Json.truncate k.low k.high q = .error .undefined := by
  have hn : ¬ (k.low ≤ q.num.tdiv q.den ∧ q.num.tdiv q.den ≤ k.high) := by
    intro h
    apply hf
    rintro _ ⟨⟩
    exact h
  simp only [Json.truncate, hn, if_false]

theorem float_of_not_fits {v : Json} (hf : ¬ k.Fits v) : ∃ q, v = .numberFloat q := by
  simp only [Kind.Fits, not_forall] at hf
  obtain ⟨q, hq, _⟩ := hf
  exact ⟨q, hq⟩

theorem getter_getUInt64 : Getter .uint64 Json.getUInt64 asUInt64 := by
  refine ⟨?_, ?_, ?_⟩
  · rintro v ⟨ha, hf⟩
    cases v with
    | numberFloat q =>
        have ht : Json.truncate 0 (2 ^ 64 - 1) q = _ := truncate_of_fits hf rfl
        simp only [Json.getUInt64, ht, ok_bind]
        rfl
    | _ => simp_all [Kind.Accepts, Json.isNumber, Json.getUInt64, asUInt64]
  · intro v ha
    cases v <;> simp_all [Kind.Accepts, Json.isNumber, Json.getUInt64]
  · intro v _ hf
    obtain ⟨q, rfl⟩ := float_of_not_fits hf
    have ht : Json.truncate 0 (2 ^ 64 - 1) q = _ := truncate_of_not_fits hf
    simp only [Json.getUInt64, ht, error_bind]

theorem getter_getInt64 : Getter .int64 Json.getInt64 asInt64 := by
  refine ⟨?_, ?_, ?_⟩
  · rintro v ⟨ha, hf⟩
    cases v with
    | numberFloat q =>
        have ht : Json.truncate (-2 ^ 63) (2 ^ 63 - 1) q = _ := truncate_of_fits hf rfl
        simp only [Json.getInt64, ht, ok_bind]
        rfl
    | _ => simp_all [Kind.Accepts, Json.isNumber, Json.getInt64, asInt64]
  · intro v ha
    cases v <;> simp_all [Kind.Accepts, Json.isNumber, Json.getInt64]
  · intro v _ hf
    obtain ⟨q, rfl⟩ := float_of_not_fits hf
    have ht : Json.truncate (-2 ^ 63) (2 ^ 63 - 1) q = _ := truncate_of_not_fits hf
    simp only [Json.getInt64, ht, error_bind]

theorem getter_getInt : Getter .int Json.getInt asInt := by
  refine ⟨?_, ?_, ?_⟩
  · rintro v ⟨ha, hf⟩
    cases v with
    | numberFloat q => exact truncate_of_fits hf rfl
    | numberUnsigned n | numberInteger i | boolean b => rfl
    | null | string s | array xs | object o => simp [Kind.Accepts, Json.isNumber] at ha
  · intro v ha
    cases v <;> simp_all [Kind.Accepts, Json.isNumber, Json.getInt, Json.getNarrow]
  · intro v _ hf
    obtain ⟨q, rfl⟩ := float_of_not_fits hf
    exact truncate_of_not_fits hf

theorem getter_getString : Getter .string Json.getString asString := by
  refine ⟨?_, ?_, ?_⟩
  · rintro v ⟨⟨s, rfl⟩, _⟩
    rfl
  · intro v ha
    cases v <;> simp_all [Kind.Accepts, Json.getString]
  · rintro v ⟨s, rfl⟩ hf
    obtain ⟨q, hq⟩ := float_of_not_fits hf
    cases hq

theorem getter_getBool : Getter .boolean Json.getBool asBool := by
  refine ⟨?_, ?_, ?_⟩
  · rintro v ⟨⟨b, rfl⟩, _⟩
    rfl
  · intro v ha
    cases v <;> simp_all [Kind.Accepts, Json.getBool]
  · rintro v ⟨b, rfl⟩ hf
    obtain ⟨q, hq⟩ := float_of_not_fits hf
    cases hq

theorem Getter.returns_bind (hg : Getter k get read) {v : Json} {f : α → Outcome β} :
    Returns (get v >>= f) ↔ k.Reads v ∧ Returns (f (read v)) := by
  by_cases ha : k.Accepts v
  · by_cases hf : k.Fits v
    · simp [hg.reads v ⟨ha, hf⟩, Kind.Reads, ha, hf]
    · simp [hg.undefined v ha hf, Kind.Reads, hf]
  · simp [hg.throws v ha, Kind.Reads, ha]

theorem Getter.returns (hg : Getter k get read) {v : Json} : Returns (get v) ↔ k.Reads v := by
  simpa using hg.returns_bind (v := v) (f := pure)

theorem Getter.catchable_bind (hg : Getter k get read) {v : Json} {f : α → Outcome β} :
    Catchable (get v >>= f) ↔ (k.Accepts v → k.Fits v) ∧ (k.Reads v → Catchable (f (read v))) := by
  by_cases ha : k.Accepts v
  · by_cases hf : k.Fits v
    · simp [hg.reads v ⟨ha, hf⟩, Kind.Reads, ha, hf]
    · simp [hg.undefined v ha hf, Kind.Reads, ha, hf]
  · simp [hg.throws v ha, Kind.Reads, ha]

def Has (k : Kind) (o : Object) (key : String) : Prop := ∃ v, o.find key = some v ∧ k.Reads v

def HasIfAny (k : Kind) (o : Object) (key : String) : Prop := ∀ v, o.find key = some v → k.Reads v

theorem hasIfAny_iff (k : Kind) (o : Object) (key : String) :
    HasIfAny k o key ↔ (o.contains key = true → Has k o key) := by
  unfold HasIfAny Has Object.contains
  cases o.find key <;> simp

abbrev Field := Kind × String

def Field.Read (value : Json) (f : Field) : Prop := ∃ o, value = .object o ∧ Has f.1 o f.2

/-- Reading a field has a meaning, if only that it throws. -/
def Field.Defined (value : Json) (f : Field) : Prop :=
  ∀ o, value = .object o → ∃ v, Object.find o f.2 = some v ∧ (f.1.Accepts v → f.1.Fits v)

/-- A function that reads the given fields of a value, in their order, and does
nothing else that could fail. -/
structure Decodes (value : Json) (fields : List Field) (x : Outcome α) : Prop where
  returns : Returns x ↔ ∀ f ∈ fields, f.Read value
  catchable : Catchable x ↔ InOrder (Field.Defined value) (Field.Read value) fields

theorem decodes_pure (value : Json) (a : α) : Decodes value [] (pure a) := by
  constructor <;> simp [InOrder]

theorem Decodes.cons {value : Json} {key : String} {fields : List Field} {f : α → Outcome β}
    (hg : Getter k get read) (hf : ∀ a, Decodes value fields (f a)) :
    Decodes value ((k, key) :: fields) (do let a ← (do get (← value.constIndex key)); f a) := by
  rw [bind_assoc]
  by_cases ho : ∃ o, value = .object o
  · obtain ⟨o, rfl⟩ := ho
    simp only [Json.constIndex, Object.constIndex]
    cases hv : Object.find o key with
    | none =>
        constructor
        · simp [Field.Read, Has, hv]
        · simp [InOrder, Field.Defined, hv]
    | some v =>
        constructor
        · simp only [ok_bind, hg.returns_bind, (hf _).returns, List.forall_mem_cons, Field.Read, Has,
            Json.object.injEq, exists_eq_left', hv, Option.some.injEq]
        · simp [hg.catchable_bind, (hf _).catchable, InOrder, Field.Read, Has, Field.Defined, hv]
  · have ht : (value.constIndex key >>= fun v => get v >>= f) = throwing (.json 305) := by
      cases value with
      | object o => exact absurd ⟨o, rfl⟩ ho
      | _ => rfl
    have hn : ¬ Field.Read value (k, key) := by
      rintro ⟨o, rfl, _⟩
      exact ho ⟨o, rfl⟩
    constructor
    · simp [ht, hn]
    · simp only [ht, catchable_throwing, InOrder, hn, false_implies, and_true, true_iff]
      rintro o rfl
      exact absurd ⟨o, rfl⟩ ho

theorem Decodes.map {value : Json} {fields : List Field} {x : Outcome α} (hx : Decodes value fields x)
    (f : α → β) : Decodes value fields (do return f (← x)) := by
  constructor
  · simpa using hx.returns
  · simpa using hx.catchable

def messageIDFields : List Field := [(.int, "message_id")]

def groupInfoFields : List Field :=
  [(.uint64, "group_id"), (.string, "group_name"), (.int, "member_count"), (.int, "max_member_count")]

def userInfoFields : List Field :=
  [(.uint64, "user_id"), (.string, "nickname"), (.string, "sex"), (.int, "age")]

def groupMemberInfoFields : List Field :=
  [(.uint64, "group_id"), (.uint64, "user_id"), (.string, "nickname"), (.string, "card"),
    (.string, "sex"), (.int, "age"), (.string, "area"), (.int, "join_time"), (.int, "last_sent_time"),
    (.string, "level"), (.string, "role"), (.boolean, "unfriendly"), (.string, "title"),
    (.int, "title_expire_time"), (.boolean, "card_changeable")]

theorem decodes_desiredGroupInfo (value : Json) :
    Decodes value groupInfoFields (desiredGroupInfo value) := by
  refine .cons getter_getUInt64 fun _ => ?_
  refine .cons getter_getString fun _ => ?_
  refine .cons getter_getInt fun _ => ?_
  refine .cons getter_getInt fun _ => ?_
  exact decodes_pure value _

theorem decodes_desiredUserInfo (value : Json) :
    Decodes value userInfoFields (desiredUserInfo value) := by
  refine .cons getter_getUInt64 fun _ => ?_
  refine .cons getter_getString fun _ => ?_
  refine .cons getter_getString fun _ => ?_
  refine .cons getter_getInt fun _ => ?_
  exact decodes_pure value _

theorem decodes_desiredGroupMemberInfo (value : Json) :
    Decodes value groupMemberInfoFields (desiredGroupMemberInfo value) := by
  refine .cons getter_getUInt64 fun _ => .cons getter_getUInt64 fun _ => ?_
  refine .cons getter_getString fun _ => .cons getter_getString fun _ => ?_
  refine .cons getter_getString fun _ => .cons getter_getInt fun _ => ?_
  refine .cons getter_getString fun _ => .cons getter_getInt fun _ => ?_
  refine .cons getter_getInt fun _ => .cons getter_getString fun _ => ?_
  refine .cons getter_getString fun _ => .cons getter_getBool fun _ => ?_
  refine .cons getter_getString fun _ => .cons getter_getInt fun _ => ?_
  refine .cons getter_getBool fun _ => ?_
  exact decodes_pure value _

abbrev Decodable (fields : List Field) (value : Json) : Prop :=
  InOrder (Field.Defined value) (Field.Read value) fields

def DecodableAs (value : Json) : ApiType → Prop
  | .messageID => Decodable messageIDFields value
  | .groupInfo => Decodable groupInfoFields value
  | .userInfo => Decodable userInfoFields value
  | .groupList => ∀ xs, value = .array xs →
      InOrder (Decodable groupInfoFields) (fun x => ∀ f ∈ groupInfoFields, f.Read x) xs
  | .groupMemberInfo => Decodable groupMemberInfoFields value

theorem catchable_desiredValue (value : Json) (type : ApiType) :
    Catchable (desiredValue value type) ↔ DecodableAs value type := by
  cases type with
  | messageID => exact (Decodes.cons getter_getInt fun _ => decodes_pure value _).catchable
  | groupInfo => exact ((decodes_desiredGroupInfo value).map _).catchable
  | userInfo => exact ((decodes_desiredUserInfo value).map _).catchable
  | groupList =>
      simp only [desiredValue, bind_pure_comp, DecodableAs]
      cases value with
      | array xs =>
          simp [Json.items, catchable_mapM, (decodes_desiredGroupInfo _).catchable,
            (decodes_desiredGroupInfo _).returns]
      | object o => by_cases ho : o = [] <;> simp [Json.items, Json.size, ho]
      | _ => simp [Json.items, Json.size]
  | groupMemberInfo => exact ((decodes_desiredGroupMemberInfo value).map _).catchable

end MigangBot.JsonReads
