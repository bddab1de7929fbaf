import MigangBot.JsonValue
import MigangBot.Lib.Tries

namespace MigangBot.CommandTrie

open Lib.Tries Text JsonValue

variable {σ : Type}

structure Command (σ : Type) where
  service : σ
  commandSize : UInt64

abbrev TrieNode (σ : Type) := Node UInt8 (Command σ)

structure Trie (σ : Type) where
  root : TrieNode σ

def Trie.empty : Trie σ := ⟨Node.empty⟩

/-- A size is a std::size_t, and from the back it is negated as one. -/
def commandSize (isFromBack : Bool) (size : Nat) : UInt64 :=
  if isFromBack then -UInt64.ofNat size else UInt64.ofNat size

/-- InsertImpl over the characters of an iterator range. Services are given by
their non-null pointers. -/
def Trie.insertImpl (t : Trie σ) (isFromBack : Bool) (it : Bytes) (service : σ) : Trie σ × Bool :=
  let (root, inserted) := t.root.insert ⟨service, commandSize isFromBack it.length⟩ (lower it)
  (⟨root⟩, inserted)

def Trie.insert (t : Trie σ) (key : Bytes) (service : σ) : Trie σ × Bool :=
  t.insertImpl false key service

def Trie.insertFromBack (t : Trie σ) (key : Bytes) (service : σ) : Trie σ × Bool :=
  t.insertImpl true key.reverse service

def found (event : Object) : Option (Command σ) → Object × Option σ
  | some c => (event.set "__command_size__" (.numberUnsigned c.commandSize), some c.service)
  | none => (event, none)

def Trie.shortestSearchImpl (t : Trie σ) (it : Bytes) (event : Object) : Object × Option σ :=
  found event (t.root.shortest (lower it))

def Trie.longestSearchImpl (t : Trie σ) (it : Bytes) (event : Object) : Object × Option σ :=
  found event (t.root.longest none (lower it))

def Trie.shortestPrefix (t : Trie σ) (key : Bytes) (event : Object) : Object × Option σ :=
  t.shortestSearchImpl key event

def Trie.shortestSuffix (t : Trie σ) (key : Bytes) (event : Object) : Object × Option σ :=
  t.shortestSearchImpl key.reverse event

def Trie.longestPrefix (t : Trie σ) (key : Bytes) (event : Object) : Object × Option σ :=
  t.longestSearchImpl key event

def Trie.longestSuffix (t : Trie σ) (key : Bytes) (event : Object) : Object × Option σ :=
  t.longestSearchImpl key.reverse event

def inserted (isFromBack : Bool) (calls : List (Bytes × σ)) : Trie σ :=
  calls.foldl (fun t c =>
    (if isFromBack then t.insertFromBack c.1 c.2 else t.insert c.1 c.2).1) .empty

def firstUnder (calls : List (Bytes × σ)) (key : Bytes) : Option σ :=
  (calls.find? fun c => lower c.1 = key).map Prod.snd

theorem firstUnder_eq_none {calls : List (Bytes × σ)} {key : Bytes} :
    firstUnder calls key = none ↔ ∀ c ∈ calls, lower c.1 ≠ key := by
  simp [firstUnder]

theorem firstUnder_eq_some {calls : List (Bytes × σ)} {key : Bytes} {service : σ}
    (h : firstUnder calls key = some service) : ∃ c ∈ calls, lower c.1 = key ∧ c.2 = service := by
  rw [firstUnder, Option.map_eq_some_iff] at h
  obtain ⟨c, hc, hs⟩ := h
  exact ⟨c, List.mem_of_find?_eq_some hc, by simpa using List.find?_some hc, hs⟩

@[simp] theorem lower_eq_nil {s : Bytes} : lower s = [] ↔ s = [] := List.map_eq_nil_iff

theorem missing_iff {calls : List (Bytes × σ)} {candidate : Bytes → Prop} :
    Node.Missing candidate (firstUnder calls) ↔ ∀ c ∈ calls, c.1 ≠ [] → ¬ candidate (lower c.1) := by
  simp only [Node.Missing, firstUnder_eq_none]
  constructor
  · intro h c hc hne hcand
    exact h (lower c.1) (by simpa using hne) hcand c hc rfl
  · rintro h _ hne hcand c hc rfl
    exact h c hc (by simpa using hne) hcand

def orient (isFromBack : Bool) (s : Bytes) : Bytes := if isFromBack then s.reverse else s

@[simp] theorem length_orient (isFromBack : Bool) (s : Bytes) : (orient isFromBack s).length = s.length := by
  cases isFromBack <;> simp [orient]

@[simp] theorem lower_orient (isFromBack : Bool) (s : Bytes) :
    lower (orient isFromBack s) = orient isFromBack (lower s) := by
  cases isFromBack <;> simp [orient]

@[simp] theorem orient_orient (isFromBack : Bool) (s : Bytes) : orient isFromBack (orient isFromBack s) = s := by
  cases isFromBack <;> simp [orient]

@[simp] theorem orient_eq_nil {isFromBack : Bool} {s : Bytes} : orient isFromBack s = [] ↔ s = [] := by
  cases isFromBack <;> simp [orient]

theorem insert_eq (isFromBack : Bool) (t : Trie σ) (key : Bytes) (service : σ) :
    (if isFromBack then t.insertFromBack key service else t.insert key service) =
      t.insertImpl isFromBack (orient isFromBack key) service := by
  cases isFromBack <;> rfl

theorem root_inserted (isFromBack : Bool) (calls : List (Bytes × σ)) (t : Trie σ) :
    (calls.foldl (fun t c =>
      (if isFromBack then t.insertFromBack c.1 c.2 else t.insert c.1 c.2).1) t).root =
    (calls.map fun c => (orient isFromBack (lower c.1),
      (⟨c.2, commandSize isFromBack c.1.length⟩ : Command σ))).foldl
        (fun n e => (n.insert e.2 e.1).1) t.root := by
  induction calls generalizing t with
  | nil => rfl
  | cons c calls ih =>
      rw [List.foldl_cons, ih, insert_eq]
      simp [Trie.insertImpl]

theorem find_inserted (isFromBack : Bool) (calls : List (Bytes × σ)) (key : Bytes) :
    (inserted isFromBack calls).root.find (orient isFromBack key) =
      (firstUnder calls key).map fun s => ⟨s, commandSize isFromBack key.length⟩ := by
  rw [inserted, root_inserted, Node.find_insertAll, Trie.empty, Node.find_empty, Option.none_or,
    firstUnder, List.find?_map]
  induction calls with
  | nil => rfl
  | cons c calls ih =>
      by_cases hc : lower c.1 = key
      · subst hc
        simp
      · have hne : orient isFromBack (lower c.1) ≠ orient isFromBack key := by
          intro h
          apply hc
          rw [← orient_orient isFromBack (lower c.1), h, orient_orient]
        simpa [hc, hne] using ih

/-- What a search answers: the first service under the best of the non-empty
candidate keys, with that key's size in the event, or nothing at all. -/
def Answers (isFromBack : Bool) (candidate : Bytes → Prop) (better : Nat → Nat → Prop)
    (calls : List (Bytes × σ)) (event : Object) (answer : Object × Option σ) : Prop :=
  (∃ key service, Node.Wins candidate (firstUnder calls) better key service ∧
    answer = (event.set "__command_size__" (.numberUnsigned (commandSize isFromBack key.length)),
      some service)) ∨
  (Node.Missing candidate (firstUnder calls) ∧ answer = (event, none))

def candidate (isFromBack : Bool) (message key : Bytes) : Prop :=
  if isFromBack then key <:+ lower message else key <+: lower message

theorem candidate_iff (isFromBack : Bool) (message key : Bytes) :
    candidate isFromBack message key ↔ orient isFromBack key <+: orient isFromBack (lower message) := by
  cases isFromBack
  · simp [candidate, orient]
  · simp [candidate, orient, List.reverse_prefix]

theorem answers_found {isFromBack : Bool} {calls : List (Bytes × σ)} {better : Nat → Nat → Prop}
    {message : Bytes} (event : Object) {c : Option (Command σ)}
    (h : (∃ w b, Node.Wins (· <+: orient isFromBack (lower message))
        ((inserted isFromBack calls).root.find ·) better w b ∧ c = some b) ∨
      (Node.Missing (· <+: orient isFromBack (lower message))
        ((inserted isFromBack calls).root.find ·) ∧ c = none)) :
    Answers isFromBack (candidate isFromBack message) better calls event (found event c) := by
  have hfind (w : Bytes) : (inserted isFromBack calls).root.find w =
      (firstUnder calls (orient isFromBack w)).map fun s => ⟨s, commandSize isFromBack w.length⟩ := by
    have := find_inserted isFromBack calls (orient isFromBack w)
    simpa using this
  rcases h with ⟨w, b, hw, rfl⟩ | ⟨hm, rfl⟩
  · have hb := hw.found
    rw [hfind, Option.map_eq_some_iff] at hb
    obtain ⟨s, hs, rfl⟩ := hb
    refine .inl ⟨orient isFromBack w, s, ⟨by simpa using hw.nonempty, ?_, hs, ?_⟩, by simp [found]⟩
    · rw [candidate_iff, orient_orient]
      exact hw.fits
    · intro key hk hc hf
      have := hw.best (orient isFromBack key) (by simpa using hk) ((candidate_iff _ _ _).mp hc) (by
        rw [hfind, orient_orient]
        simpa using hf)
      simpa using this
  · refine .inr ⟨?_, rfl⟩
    intro key hk hc
    have := hm (orient isFromBack key) (by simpa using hk) ((candidate_iff _ _ _).mp hc)
    simpa [hfind] using this

theorem answers_shortest (isFromBack : Bool) (calls : List (Bytes × σ)) (message : Bytes) (event : Object) :
    Answers isFromBack (candidate isFromBack message) (· ≤ ·) calls event
      ((inserted isFromBack calls).shortestSearchImpl (orient isFromBack message) event) := by
  apply answers_found
  rw [lower_orient]
  exact Node.shortest_spec _ _

theorem answers_longest (isFromBack : Bool) (calls : List (Bytes × σ)) (message : Bytes) (event : Object) :
    Answers isFromBack (candidate isFromBack message) (· ≥ ·) calls event
      ((inserted isFromBack calls).longestSearchImpl (orient isFromBack message) event) := by
  apply answers_found
  rw [lower_orient]
  exact Node.longest_spec _ _ _

theorem insertImpl_result (isFromBack : Bool) (calls : List (Bytes × σ)) (key : Bytes) (service : σ) :
    ((inserted isFromBack calls).insertImpl isFromBack (orient isFromBack key) service).2 = true ↔
      ∀ c ∈ calls, lower c.1 ≠ lower key := by
  simp only [Trie.insertImpl, Node.insert_result, lower_orient, find_inserted, Option.isNone_map,
    Option.isNone_iff_eq_none, firstUnder_eq_none]

theorem insertImpl_refused {isFromBack : Bool} {t : Trie σ} {it : Bytes} {service : σ}
    (h : (t.insertImpl isFromBack it service).2 = false) : (t.insertImpl isFromBack it service).1 = t := by
  simp only [Trie.insertImpl] at h ⊢
  rw [Node.insert_refused h]

theorem trie_refinement (calls : List (Bytes × σ)) :
    ((∀ key service, ((inserted false calls).insert key service).2 = true ↔
        ∀ c ∈ calls, lower c.1 ≠ lower key) ∧
      (∀ key service, ((inserted false calls).insert key service).2 = false →
        ((inserted false calls).insert key service).1 = inserted false calls) ∧
      (∀ message event, Answers false (· <+: lower message) (· ≥ ·) calls event
        ((inserted false calls).longestPrefix message event)) ∧
      ∀ message event, Answers false (· <+: lower message) (· ≤ ·) calls event
        ((inserted false calls).shortestPrefix message event)) ∧
    (∀ key service, ((inserted true calls).insertFromBack key service).2 = true ↔
        ∀ c ∈ calls, lower c.1 ≠ lower key) ∧
      (∀ key service, ((inserted true calls).insertFromBack key service).2 = false →
        ((inserted true calls).insertFromBack key service).1 = inserted true calls) ∧
      (∀ message event, Answers true (· <:+ lower message) (· ≥ ·) calls event
        ((inserted true calls).longestSuffix message event)) ∧
      ∀ message event, Answers true (· <:+ lower message) (· ≤ ·) calls event
        ((inserted true calls).shortestSuffix message event) := by
  refine ⟨⟨?_, ?_, ?_, ?_⟩, ?_, ?_, ?_, ?_⟩
  · exact fun key service => insertImpl_result false calls key service
  · exact fun key service h => insertImpl_refused h
  · exact fun message event => answers_longest false calls message event
  · exact fun message event => answers_shortest false calls message event
  · exact fun key service => insertImpl_result true calls key service
  · exact fun key service h => insertImpl_refused h
  · exact fun message event => answers_longest true calls message event
  · exact fun message event => answers_shortest true calls message event

end MigangBot.CommandTrie
