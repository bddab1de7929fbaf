import MigangBot.ApiTypes
import MigangBot.Lib.Maps
import MigangBot.Lib.Runs
import MigangBot.Lib.WriteThrough

namespace MigangBot.Blacklists

open Lib.Exceptions Lib.Maps Lib.WriteThrough Text ApiTypes

/-- The sqlpp::exception of a statement that the server refuses. -/
inductive SqlError
  | outOfRange
  | dataTooLong
  deriving DecidableEq, Repr

/-- What a column declared INT can hold. -/
def intColumn (i : Int) : Bool := -2 ^ 31 ≤ i ∧ i < 2 ^ 31

/-- The characters of a UTF-8 text: its bytes that continue no other one. -/
def characters (s : Bytes) : Nat := (s.filter fun c => c &&& 0xC0 != 0x80).length

def varchar255 (s : Bytes) : Bool := characters s ≤ 255

/-- A table with an INT primary key and a reason for each row. -/
structure Table where
  rows : FiniteMap Int Bytes
  int : ∀ i, (rows.lookup i).isSome → intColumn i = true

namespace Table

theorem int_insert (t : Table) {i : Int} (hi : intColumn i = true) (reason : Bytes) :
    ∀ j, ((t.rows.insert i reason).lookup j).isSome → intColumn j = true := by
  intro j hj
  rw [lookup_insert_eq] at hj
  split at hj
  next h => rw [h, hi]
  next => exact t.int j hj

theorem int_erase (t : Table) (i : Int) :
    ∀ j, ((t.rows.erase i).lookup j).isSome → intColumn j = true := by
  intro j hj
  rw [lookup_erase_eq] at hj
  split at hj
  next => cases hj
  next => exact t.int j hj

def insertInto (t : Table) (i : Int) (reason : Bytes) : Outcome SqlError Table :=
  if hi : intColumn i = true then
    if varchar255 reason then .ok ⟨t.rows.insert i reason, t.int_insert hi reason⟩
    else throwing .dataTooLong
  else throwing .outOfRange

def update (t : Table) (i : Int) (reason : Bytes) : Outcome SqlError Table :=
  if hi : (t.rows.lookup i).isSome then
    if varchar255 reason then .ok ⟨t.rows.insert i reason, t.int_insert (t.int i hi) reason⟩
    else throwing .dataTooLong
  else .ok t

def removeFrom (t : Table) (i : Int) : Table := ⟨t.rows.erase i, t.int_erase i⟩

end Table

-- The number that a statement names for an id is left to the library: it may
-- take the id as it is, or as a signed number first.
variable (sqlInteger : UInt64 → Int)

def addToTable (t : Table) (id : UInt64) (reason : Bytes) : Table × Bool :=
  let written :=
    if (t.rows.lookup (sqlInteger id)).isSome then t.update (sqlInteger id) reason
    else t.insertInto (sqlInteger id) reason
  match written with
  | .ok t' => (t', true)
  | .error _ => (t, false)

/-- One of the two lists, in memory and in the database. -/
structure BlackList where
  ids : FiniteMap UInt64 Bytes
  table : Table

def BlackList.add (l : BlackList) (id : UInt64) (reason : Bytes) : BlackList where
  ids := l.ids.insert id reason
  table := (addToTable sqlInteger l.table id reason).1

def BlackList.del (l : BlackList) (id : UInt64) : BlackList × Bool :=
  if (l.ids.lookup id).isSome then
    (⟨l.ids.erase id, l.table.removeFrom (sqlInteger id)⟩, true)
  else (l, false)

def loadFromTable (t : Table) : BlackList where
  ids := t.rows.entries.foldl (fun ids row => emplace ids (UInt64.ofInt row.1) row.2) ∅
  table := t

structure BlackLists where
  qid : BlackList
  gid : BlackList

def init (qqTable groupTable : Table) : BlackLists := ⟨loadFromTable qqTable, loadFromTable groupTable⟩

def addToQQBlackList (s : BlackLists) (uid : QId) (reason : Bytes) : BlackLists :=
  { s with qid := s.qid.add sqlInteger uid reason }

def addToGroupBlackList (s : BlackLists) (gid : GId) (reason : Bytes) : BlackLists :=
  { s with gid := s.gid.add sqlInteger gid reason }

def delFromQQBlackList (s : BlackLists) (uid : QId) : BlackLists × Bool :=
  let (qid, deleted) := s.qid.del sqlInteger uid
  ({ s with qid }, deleted)

def delFromGroupBlackList (s : BlackLists) (gid : GId) : BlackLists × Bool :=
  let (list, deleted) := s.gid.del sqlInteger gid
  ({ s with gid := list }, deleted)

def isBlackUser (s : BlackLists) (uid : QId) : Bool := (s.qid.ids.lookup uid).isSome

def isBlackGroup (s : BlackLists) (gid : GId) : Bool := (s.gid.ids.lookup gid).isSome

inductive Call
  | addToQQBlackList (uid : QId) (reason : Bytes)
  | addToGroupBlackList (gid : GId) (reason : Bytes)
  | delFromQQBlackList (uid : QId)
  | delFromGroupBlackList (gid : GId)

def step (s : BlackLists) : Call → BlackLists
  | .addToQQBlackList uid reason => addToQQBlackList sqlInteger s uid reason
  | .addToGroupBlackList gid reason => addToGroupBlackList sqlInteger s gid reason
  | .delFromQQBlackList uid => (delFromQQBlackList sqlInteger s uid).1
  | .delFromGroupBlackList gid => (delFromGroupBlackList sqlInteger s gid).1

/-- A new process finds the tables that the old one left. -/
def restart (s : BlackLists) : BlackLists := init s.qid.table s.gid.table

section Stores

def fits : Set UInt64 := {id | intColumn (sqlInteger id) = true}

def stores (l : BlackList) : Stores UInt64 where
  cached := {id | (l.ids.lookup id).isSome}
  stored := {id | (l.table.rows.lookup (sqlInteger id)).isSome}

/-- Every row has the number of an id. -/
def OfIds (t : Table) : Prop := ∀ i, (t.rows.lookup i).isSome → sqlInteger (UInt64.ofInt i) = i

variable {sqlInteger} (hsql : ∀ id, UInt64.ofInt (sqlInteger id) = id)

include hsql in
theorem sqlInteger_inj {id id' : UInt64} : sqlInteger id = sqlInteger id' ↔ id = id' := by
  constructor
  · intro h
    rw [← hsql id, h, hsql]
  · exact congrArg sqlInteger

theorem rows_addToTable {t : Table} {id : UInt64} {reason : Bytes} (hr : varchar255 reason = true) (i : Int) :
    ((addToTable sqlInteger t id reason).1.rows.lookup i).isSome ↔
      (t.rows.lookup i).isSome ∨ (i = sqlInteger id ∧ intColumn i = true) := by
  rw [addToTable]
  by_cases hrow : (t.rows.lookup (sqlInteger id)).isSome
  · have hint := t.int _ hrow
    rw [if_pos hrow, Table.update, dif_pos hrow, if_pos hr]
    simp only [lookup_insert_eq]
    by_cases hi : i = sqlInteger id
    · simp [hi, hint]
    · simp [hi]
  · rw [if_neg hrow, Table.insertInto]
    by_cases hint : intColumn (sqlInteger id) = true
    · rw [dif_pos hint, if_pos hr]
      simp only [lookup_insert_eq]
      by_cases hi : i = sqlInteger id
      · simp [hi, hint]
      · simp [hi]
    · rw [dif_neg hint]
      simp only [throwing]
      constructor
      · exact .inl
      · intro h
        rcases h with h | ⟨rfl, h⟩
        · exact h
        · exact absurd h hint

include hsql in
theorem stores_add (l : BlackList) (id : UInt64) {reason : Bytes} (hr : varchar255 reason = true) :
    stores sqlInteger (l.add sqlInteger id reason) = apply (fits sqlInteger) (stores sqlInteger l) (.put id) := by
  ext k
  · simp only [stores, BlackList.add, apply, Set.mem_ofPred_eq, lookup_insert_eq, Set.mem_insert_iff]
    by_cases hk : k = id <;> simp [hk]
  · simp only [stores, BlackList.add, apply, Set.mem_ofPred_eq, rows_addToTable hr, sqlInteger_inj hsql,
      Set.mem_union, Set.mem_inter_iff, Set.mem_singleton_iff, fits]

include hsql in
theorem stores_del {l : BlackList} (hl : (stores sqlInteger l).stored ⊆ (stores sqlInteger l).cached)
    (id : UInt64) : stores sqlInteger (l.del sqlInteger id).1 =
      apply (fits sqlInteger) (stores sqlInteger l) (.drop id) := by
  rw [BlackList.del]
  split
  next hid =>
    ext k
    · simp only [stores, apply, Set.mem_ofPred_eq, lookup_erase_eq, Set.mem_sdiff, Set.mem_singleton_iff]
      by_cases hk : k = id <;> simp [hk]
    · simp only [stores, apply, Table.removeFrom, Set.mem_ofPred_eq, lookup_erase_eq, sqlInteger_inj hsql,
        Set.mem_sdiff, Set.mem_singleton_iff]
      by_cases hk : k = id <;> simp [hk]
  next hid =>
    have hstored : id ∉ (stores sqlInteger l).stored := fun h => hid (hl h)
    ext k
    · simp only [apply, Set.mem_sdiff, Set.mem_singleton_iff, iff_self_and]
      rintro hk rfl
      exact hid hk
    · simp only [apply, Set.mem_sdiff, Set.mem_singleton_iff, iff_self_and]
      rintro hk rfl
      exact hstored hk

include hsql in
theorem isSome_lookup_load {t : Table} (ht : OfIds sqlInteger t) (id : UInt64) :
    ((loadFromTable t).ids.lookup id).isSome ↔ (t.rows.lookup (sqlInteger id)).isSome := by
  rw [loadFromTable, isSome_lookup_foldl_emplace, isSome_lookup_iff t.rows]
  simp only [AList.lookup_empty, Option.isSome_none, Bool.false_eq_true, false_or]
  constructor
  · intro h
    obtain ⟨row, hrow, rfl⟩ := h
    exact ⟨row, hrow, (ht row.1 ((isSome_lookup_iff _ _).mpr ⟨row, hrow, rfl⟩)).symm⟩
  · intro h
    obtain ⟨row, hrow, hid⟩ := h
    exact ⟨row, hrow, by rw [hid, hsql]⟩

include hsql in
theorem ofIds_addToTable {t : Table} (ht : OfIds sqlInteger t) (id : UInt64) {reason : Bytes}
    (hr : varchar255 reason = true) : OfIds sqlInteger (addToTable sqlInteger t id reason).1 := by
  intro i hi
  rcases (rows_addToTable hr i).mp hi with h | ⟨rfl, _⟩
  · exact ht i h
  · rw [hsql]

theorem ofIds_removeFrom {t : Table} (ht : OfIds sqlInteger t) (i : Int) :
    OfIds sqlInteger (t.removeFrom i) := by
  intro j hj
  apply ht
  rw [Table.removeFrom, lookup_erase_eq] at hj
  split at hj
  next => cases hj
  next => exact hj

end Stores

section Histories

/-- What a call does to one of the two lists. -/
inductive ListCall
  | add (id : UInt64) (reason : Bytes)
  | del (id : UInt64)

def ListCall.op : ListCall → Op UInt64
  | .add id _ => .put id
  | .del id => .drop id

def ListCall.Short : ListCall → Prop
  | .add _ reason => varchar255 reason = true
  | .del _ => True

def Call.Short : Call → Prop
  | .addToQQBlackList _ reason | .addToGroupBlackList _ reason => varchar255 reason = true
  | .delFromQQBlackList _ | .delFromGroupBlackList _ => True

instance : DecidablePred Call.Short
  | .addToQQBlackList _ reason | .addToGroupBlackList _ reason =>
      inferInstanceAs (Decidable (varchar255 reason = true))
  | .delFromQQBlackList _ | .delFromGroupBlackList _ => inferInstanceAs (Decidable True)

def Call.onQid : Call → Option ListCall
  | .addToQQBlackList uid reason => some (.add uid reason)
  | .delFromQQBlackList uid => some (.del uid)
  | _ => none

def Call.onGid : Call → Option ListCall
  | .addToGroupBlackList gid reason => some (.add gid reason)
  | .delFromGroupBlackList gid => some (.del gid)
  | _ => none

def BlackList.call (l : BlackList) : ListCall → BlackList
  | .add id reason => l.add sqlInteger id reason
  | .del id => (l.del sqlInteger id).1

theorem qid_foldl (calls : List Call) (s : BlackLists) : (calls.foldl (step sqlInteger) s).qid =
    (calls.filterMap Call.onQid).foldl (BlackList.call sqlInteger) s.qid := by
  apply Lib.Runs.foldl_part
  intro s c
  cases c <;> rfl

theorem gid_foldl (calls : List Call) (s : BlackLists) : (calls.foldl (step sqlInteger) s).gid =
    (calls.filterMap Call.onGid).foldl (BlackList.call sqlInteger) s.gid := by
  apply Lib.Runs.foldl_part
  intro s c
  cases c <;> rfl

variable {sqlInteger} (hsql : ∀ id, UInt64.ofInt (sqlInteger id) = id)

include hsql in
theorem stores_call {l : BlackList} (hsub : (stores sqlInteger l).stored ⊆ (stores sqlInteger l).cached)
    {c : ListCall} (hc : c.Short) :
    stores sqlInteger (l.call sqlInteger c) = apply (fits sqlInteger) (stores sqlInteger l) c.op := by
  cases c with
  | add id reason => exact stores_add hsql l id hc
  | del id => exact stores_del hsql hsub id

theorem ofIds_call {l : BlackList} (hl : OfIds sqlInteger l.table) (hsql : ∀ id, UInt64.ofInt (sqlInteger id) = id)
    {c : ListCall} (hc : c.Short) : OfIds sqlInteger (l.call sqlInteger c).table := by
  cases c with
  | add id reason => exact ofIds_addToTable hsql hl id hc
  | del id =>
      rw [BlackList.call, BlackList.del]
      split
      · exact ofIds_removeFrom hl _
      · exact hl

theorem stored_subset_cached {s : Stores UInt64} (h : s.stored ⊆ s.cached) (op : Op UInt64) :
    (apply (fits sqlInteger) s op).stored ⊆ (apply (fits sqlInteger) s op).cached := by
  cases op with
  | put id =>
      intro k hk
      rcases hk with hk | hk
      · exact .inr (h hk)
      · exact .inl hk.1
  | drop id => exact fun k hk => ⟨h hk.1, hk.2⟩

include hsql in
theorem stores_foldl {l : BlackList} (hl : OfIds sqlInteger l.table)
    (hsub : (stores sqlInteger l).stored ⊆ (stores sqlInteger l).cached) {calls : List ListCall}
    (hcalls : ∀ c ∈ calls, c.Short) :
    OfIds sqlInteger (calls.foldl (BlackList.call sqlInteger) l).table ∧
      stores sqlInteger (calls.foldl (BlackList.call sqlInteger) l) =
        (calls.map ListCall.op).foldl (apply (fits sqlInteger)) (stores sqlInteger l) := by
  induction calls generalizing l with
  | nil => exact ⟨hl, rfl⟩
  | cons c calls ih =>
      rw [List.forall_mem_cons] at hcalls
      have hc := stores_call hsql hsub hcalls.1
      have hsub' : (stores sqlInteger (l.call sqlInteger c)).stored ⊆
          (stores sqlInteger (l.call sqlInteger c)).cached := by
        rw [hc]
        exact stored_subset_cached hsub c.op
      obtain ⟨hids, hstores⟩ := ih (ofIds_call hl hsql hcalls.1) hsub' hcalls.2
      refine ⟨hids, ?_⟩
      rw [List.foldl_cons, hstores, hc, List.map_cons, List.foldl_cons]

/-- The calls put an id in at some time and take it out no more. -/
def LastAdded (calls : List ListCall) (id : UInt64) : Prop := LastPut (calls.map ListCall.op) id

include hsql in
theorem survives_iff {t : Table} (ht : OfIds sqlInteger t) {calls : List ListCall}
    (hcalls : ∀ c ∈ calls, c.Short) :
    (∀ id, ((loadFromTable (calls.foldl (BlackList.call sqlInteger) (loadFromTable t)).table).ids.lookup id).isSome =
        ((calls.foldl (BlackList.call sqlInteger) (loadFromTable t)).ids.lookup id).isSome) ↔
      ∀ id, LastAdded calls id → intColumn (sqlInteger id) = true := by
  have hload : (stores sqlInteger (loadFromTable t)).cached = (stores sqlInteger (loadFromTable t)).stored := by
    ext id
    exact isSome_lookup_load hsql ht id
  have hfit : (stores sqlInteger (loadFromTable t)).stored ⊆ fits sqlInteger := fun id hid => t.int _ hid
  obtain ⟨hids, hstores⟩ := stores_foldl hsql ht hload.ge hcalls
  have hmain := cached_eq_stored_iff hload hfit (calls.map ListCall.op)
  rw [← hstores, Set.ext_iff] at hmain
  refine Iff.trans (forall_congr' fun id => ?_) hmain
  rw [Bool.eq_iff_iff, isSome_lookup_load hsql hids id]
  exact Iff.comm

theorem short_onQid {calls : List Call} (h : ∀ c ∈ calls, c.Short) :
    ∀ c ∈ calls.filterMap Call.onQid, c.Short := by
  intro c hc
  obtain ⟨call, hcall, hon⟩ := List.mem_filterMap.mp hc
  have := h call hcall
  cases call <;> cases hon <;> exact this

theorem short_onGid {calls : List Call} (h : ∀ c ∈ calls, c.Short) :
    ∀ c ∈ calls.filterMap Call.onGid, c.Short := by
  intro c hc
  obtain ⟨call, hcall, hon⟩ := List.mem_filterMap.mp hc
  have := h call hcall
  cases call <;> cases hon <;> exact this

variable (sqlInteger) in
/-- A restart keeps the answers exactly when no id that an INT column cannot hold
was added and not removed again. -/
theorem blacklists_durable_iff (hsql : ∀ id, UInt64.ofInt (sqlInteger id) = id) {qqTable groupTable : Table}
    (hqq : OfIds sqlInteger qqTable) (hgroup : OfIds sqlInteger groupTable) {calls : List Call}
    (hcalls : ∀ c ∈ calls, c.Short) :
    ((∀ uid, isBlackUser (restart (calls.foldl (step sqlInteger) (init qqTable groupTable))) uid =
          isBlackUser (calls.foldl (step sqlInteger) (init qqTable groupTable)) uid) ∧
        ∀ gid, isBlackGroup (restart (calls.foldl (step sqlInteger) (init qqTable groupTable))) gid =
          isBlackGroup (calls.foldl (step sqlInteger) (init qqTable groupTable)) gid) ↔
      (∀ uid, LastAdded (calls.filterMap Call.onQid) uid → intColumn (sqlInteger uid) = true) ∧
        ∀ gid, LastAdded (calls.filterMap Call.onGid) gid → intColumn (sqlInteger gid) = true := by
  rw [← survives_iff hsql hqq (short_onQid hcalls), ← survives_iff hsql hgroup (short_onGid hcalls)]
  simp only [isBlackUser, isBlackGroup, restart, init, qid_foldl, gid_foldl]

def emptyTable : Table := ⟨∅, by simp⟩

theorem ofIds_emptyTable : OfIds sqlInteger emptyTable := by
  intro i hi
  simp [emptyTable] at hi

theorem ofInt_toNat (id : UInt64) : UInt64.ofInt (id.toNat : Int) = id := by
  have hlt : (id.toNat : Int) < 2 ^ 64 := by exact_mod_cast id.toNat_lt
  rw [UInt64.ofInt, Int.emod_eq_of_lt (Int.natCast_nonneg _) hlt, Int.toNat_natCast, UInt64.ofNat_toNat]

def smallId : List Call := [.addToQQBlackList 10001 (bytes "spam"), .delFromQQBlackList 10001,
  .addToGroupBlackList 10002 (bytes "spam")]

theorem blacklists_durable_iff_smallId :
    ((∀ uid, isBlackUser (restart (smallId.foldl (step fun id => id.toNat) (init emptyTable emptyTable))) uid =
          isBlackUser (smallId.foldl (step fun id => id.toNat) (init emptyTable emptyTable)) uid) ∧
        ∀ gid, isBlackGroup (restart (smallId.foldl (step fun id => id.toNat) (init emptyTable emptyTable))) gid =
          isBlackGroup (smallId.foldl (step fun id => id.toNat) (init emptyTable emptyTable)) gid) ↔
      (∀ uid, LastAdded (smallId.filterMap Call.onQid) uid → intColumn (uid.toNat : Int) = true) ∧
        ∀ gid, LastAdded (smallId.filterMap Call.onGid) gid → intColumn (gid.toNat : Int) = true :=
  blacklists_durable_iff (fun id => id.toNat) ofInt_toNat ofIds_emptyTable ofIds_emptyTable (by decide)

/-- The id of an ordinary account is forgotten. -/
theorem large_id_forgotten :
    ¬ ∀ calls : List Call, (∀ c ∈ calls, c.Short) → ∀ uid,
      isBlackUser (restart (calls.foldl (step fun id => id.toNat) (init emptyTable emptyTable))) uid =
        isBlackUser (calls.foldl (step fun id => id.toNat) (init emptyTable emptyTable)) uid := by
  intro hall
  have h := hall [.addToQQBlackList 2418650100 (bytes "spam")] (by decide) 2418650100
  revert h
  decide

end Histories

end MigangBot.Blacklists
