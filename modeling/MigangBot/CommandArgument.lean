import MigangBot.MessageHandling
import MigangBot.MessageUtility

namespace MigangBot.CommandArgument

open Lib.Exceptions Lib.Rewriting Lib.Tries Text JsonValue ApiTypes CommandTrie EventHandling
  MessageHandling MessageUtility

variable {regs : List Registration}

/-- The command a search selects: one of the longest that match. -/
structure Selected (calls : List (Bytes × ServicePtr)) (candidate : Bytes → Prop) (c : Bytes × ServicePtr) :
    Prop where
  mem : c ∈ calls
  nonempty : c.1 ≠ []
  fits : candidate (lower c.1)
  longest : ∀ c' ∈ calls, c'.1 ≠ [] → candidate (lower c'.1) → c'.1.length ≤ c.1.length

theorem selected_of_answers {isFromBack : Bool} {candidate : Bytes → Prop}
    {calls : List (Bytes × ServicePtr)} {event event' : Object} {p : ServicePtr}
    (h : Answers isFromBack candidate (· ≥ ·) calls event (event', some p)) :
    ∃ c, Selected calls candidate c ∧ c.2 = p ∧
      event' = event.set "__command_size__" (.numberUnsigned (commandSize isFromBack c.1.length)) := by
  rcases h with ⟨key, service, hw, h⟩ | ⟨_, h⟩
  · simp only [Prod.mk.injEq, Option.some.injEq] at h
    obtain ⟨c, hc, rfl, hs⟩ := firstUnder_eq_some hw.found
    refine ⟨c, ⟨hc, by simpa using hw.nonempty, hw.fits, ?_⟩, hs.trans h.2.symm, by simpa using h.1⟩
    intro c' hc' hne hcand
    have hfound : firstUnder calls (lower c'.1) ≠ none := by
      rw [ne_eq, firstUnder_eq_none]
      exact fun hnone => hnone c' hc' rfl
    simpa using hw.best (lower c'.1) (by simpa using hne) hcand hfound
  · simp at h

theorem tolower_eq_ampersand {x : UInt8} : tolower x = char '&' ↔ x = char '&' := by
  have hamp : (char '&').toNat = 38 := rfl
  rw [← UInt8.toNat_inj, ← UInt8.toNat_inj, tolower, hamp]
  split
  next hx =>
    rw [UInt8.le_iff_toNat_le, UInt8.le_iff_toNat_le] at hx
    rw [UInt8.toNat_add]
    simp only [UInt8.toNat_ofNat] at hx ⊢
    omega
  next hx => rfl

theorem ampersand_mem_lower {s : Bytes} : char '&' ∈ lower s ↔ char '&' ∈ s := by
  simp only [lower, List.mem_map, tolower_eq_ampersand, exists_eq_right]

theorem short_of_front {n : Nat} (hn : n ≤ 32767) :
    ((commandSize false n).toNat : Int).bmod 65536 = n := by
  have hsize : (commandSize false n).toNat = n := by
    simp [commandSize]
    omega
  rw [hsize, Int.bmod_def]
  omega

theorem short_of_back {n : Nat} (hpos : 0 < n) (hn : n ≤ 32768) :
    ((commandSize true n).toNat : Int).bmod 65536 = -n := by
  have hsize : (commandSize true n).toNat = 2 ^ 64 - n := by
    simp [commandSize, UInt64.toNat_neg, UInt64.size]
    omega
  rw [hsize, Int.bmod_def]
  omega

theorem length_of_removeCommand {view rest : Bytes} {k : Int} (hlow : -32768 ≤ k) (hhigh : k ≤ 32768)
    (h : removeCommand view k = .ok rest) : view.length ≤ rest.length + 32768 := by
  rw [removeCommand] at h
  split at h
  · cases h
    omega
  · split at h
    · rw [cutFront] at h
      split at h
      · cases h
        rw [List.length_drop]
        omega
      · cases h
    · rw [cutBack] at h
      split at h
      · cases h
        rw [List.length_take]
        omega
      · cases h

theorem bmod_bounds (n : UInt64) :
    -32768 ≤ ((n.toNat : Int).bmod 65536) ∧ ((n.toNat : Int).bmod 65536) ≤ 32768 := by
  rw [Int.bmod_def]
  omega

theorem ampersand_of_lower_eq {u c : Bytes} (h : lower u = lower c) (hc : char '&' ∉ c) : char '&' ∉ u := by
  rw [← ampersand_mem_lower, h, ampersand_mem_lower]
  exact hc

theorem extraPlainText_front {event : Object} {m c : Bytes}
    (hm : event.find "message" = some (.string m)) (hne : c ≠ []) (hc : char '&' ∉ c)
    (hlen : c.length ≤ 32767) (hfits : lower c <+: lower m) :
    extraPlainText (event.set "__command_size__" (.numberUnsigned (commandSize false c.length))) =
      .ok (unescape (m.drop c.length)) := by
  have hpos : 0 < c.length := List.length_pos_iff.mpr hne
  have hfront : lower (m.take c.length) = lower c := by
    have := List.prefix_iff_eq_take.mp hfits
    rw [length_lower] at this
    rw [this, lower, lower, List.map_take]
  have hsplit : unescape m = m.take c.length ++ unescape (m.drop c.length) := by
    rw [unescape_eq_rewrite, unescape_eq_rewrite,
      ← marked_entities.rewrite_unmarked_append (ampersand_of_lower_eq hfront hc), List.take_append_drop]
  have hle : c.length ≤ m.length := by simpa using hfits.length_le
  rw [extraPlainText_command ((Object.find_set_ne _ _ (by decide)).trans hm) (Object.find_set_self _ _ _),
    short_of_front hlen, noexcept_eq_ok, removeCommand, if_neg (by omega), if_pos (by omega), cutFront,
    hsplit, if_pos]
  · rw [Int.toNat_natCast, List.drop_left']
    rw [List.length_take]
    omega
  · rw [Int.toNat_natCast, List.length_append, List.length_take]
    omega

/-- What LongestPrefix selects and hands on leaves the service the unescaped
rest of the message; and Handle hands on nothing else. -/
theorem prefix_argument
    (hcommands : ∀ c ∈ prefixCommands regs, char '&' ∉ c.1 ∧ c.1.length ≤ 32767) :
    (∀ m event event' p, event.find "message" = some (.string m) →
      (registered regs).commandPrefix.longestPrefix m event = (event', some p) →
        ∃ c, Selected (prefixCommands regs) (· <+: lower m) c ∧ c.2 = p ∧
          extraPlainText event' = .ok (unescape (m.drop c.1.length))) ∧
    ∀ env event b launches l, IsMessage event → handle (registered regs) env event = .ok (b, launches) →
      l ∈ launches → l.path = .prefixMatch →
        ∃ m c, MatchedText env event m ∧ l.event.find "message" = some (.string m) ∧
          Selected (prefixCommands regs) (· <+: lower m) c ∧ c.2 = l.service ∧
          extraPlainText l.event = .ok (unescape (m.drop c.1.length)) := by
  have hsearch : ∀ m event event' p, event.find "message" = some (.string m) →
      (registered regs).commandPrefix.longestPrefix m event = (event', some p) →
        ∃ c, Selected (prefixCommands regs) (· <+: lower m) c ∧ c.2 = p ∧
          extraPlainText event' = .ok (unescape (m.drop c.1.length)) := by
    intro m event event' p hm hs
    have ha := answers_longestPrefix regs m event
    rw [hs] at ha
    obtain ⟨c, hsel, hp, rfl⟩ := selected_of_answers ha
    obtain ⟨hamp, hlen⟩ := hcommands c hsel.mem
    exact ⟨c, hsel, hp, extraPlainText_front hm hsel.nonempty hamp hlen hsel.fits⟩
  refine ⟨hsearch, ?_⟩
  intro env event b launches l hmsg hh hl hpath
  obtain ⟨m, marked, ht, ⟨hm, hm'⟩, hs⟩ := handed_prefix hmsg hh hl hpath
  obtain ⟨c, hsel, hp, hplain⟩ := hsearch m marked l.event l.service hm hs
  exact ⟨m, c, ht, hm', hsel, hp, hplain⟩

theorem prefix_argument_echo :
    ∃ event', (registered [.command .prefixMatch (bytes "echo") 0]).commandPrefix.longestPrefix
        (bytes "Echo&amp;#44;") [("message", .string (bytes "Echo&amp;#44;"))] = (event', some 0) ∧
      ∃ c, Selected (prefixCommands [.command .prefixMatch (bytes "echo") 0])
          (· <+: lower (bytes "Echo&amp;#44;")) c ∧ c.2 = 0 ∧
        extraPlainText event' = .ok (unescape ((bytes "Echo&amp;#44;").drop c.1.length)) :=
  ⟨_, rfl, (prefix_argument (by decide)).1 _ _ _ _ rfl rfl⟩

def EntityAtEnd (m : Bytes) (size : Nat) : Prop :=
  ∃ r ∈ entities, ∃ a b, m = a ++ (r.1 ++ b) ∧ b.length < size

def CutsCommand (m c : Bytes) (event : Object) : Prop :=
  lower c <:+ lower (unescape m) ∧
    extraPlainText event = .ok ((unescape m).take ((unescape m).length - c.length))

section

variable {event : Object} {m c : Bytes}

theorem end_of_suffix (hfits : lower c <:+ lower m) :
    ∃ a b, m = a ++ b ∧ lower b = lower c ∧ b.length = c.length := by
  obtain ⟨a, ha⟩ := hfits
  obtain ⟨a', b, hm, _, hb⟩ := List.map_eq_append_iff.mp ha.symm
  refine ⟨a', b, hm, hb, ?_⟩
  have := congrArg List.length hb
  simpa using this

theorem not_straddles_of_not_entityAtEnd {a b : Bytes} (h : ¬ EntityAtEnd (a ++ b) b.length) :
    ¬ Straddles entities a b := by
  rintro ⟨r, hr, x, e, e', y, _, he', hre, rfl, rfl⟩
  apply h
  refine ⟨r, hr, x, y, by simp [hre], ?_⟩
  have := List.length_pos_iff.mpr he'
  rw [List.length_append]
  omega

theorem cutsCommand_of_not_entityAtEnd (hm : event.find "message" = some (.string m)) (hne : c ≠ [])
    (hc : char '&' ∉ c) (hfits : lower c <:+ lower m) (hlen : c.length ≤ 32768)
    (hend : ¬ EntityAtEnd m c.length) :
    CutsCommand m c (event.set "__command_size__" (.numberUnsigned (commandSize true c.length))) := by
  have hpos : 0 < c.length := List.length_pos_iff.mpr hne
  obtain ⟨a, b, rfl, hb, hlength⟩ := end_of_suffix hfits
  rw [← hlength] at hend
  have hsplit : unescape (a ++ b) = unescape a ++ b := by
    rw [unescape_eq_rewrite, marked_entities.rewrite_append (not_straddles_of_not_entityAtEnd hend),
      marked_entities.rewrite_unmarked (ampersand_of_lower_eq hb hc), ← unescape_eq_rewrite]
  refine ⟨?_, ?_⟩
  · rw [hsplit, lower_append, hb]
    exact List.suffix_append _ _
  · rw [extraPlainText_command ((Object.find_set_ne _ _ (by decide)).trans hm) (Object.find_set_self _ _ _),
      short_of_back hpos hlen, noexcept_eq_ok, removeCommand, if_neg (by omega), if_neg (by omega),
      cutBack, Int.neg_neg, Int.toNat_natCast, if_pos]
    rw [hsplit, List.length_append]
    omega

theorem output_ne_semicolon : ∀ r ∈ entities, ∃ body x, r.1 = body ++ [char ';'] ∧ r.2 = [x] ∧
    tolower x ≠ char ';' := by
  intro r hr
  refine ⟨r.1.dropLast, r.2.headD 0, ?_⟩
  revert r
  decide

theorem not_suffix_of_entityAtEnd (hc : char '&' ∉ c) (hfits : lower c <:+ lower m)
    (hend : EntityAtEnd m c.length) : ¬ lower c <:+ lower (unescape m) := by
  obtain ⟨r, hr, x, y, rfl, hy⟩ := hend
  obtain ⟨body, o, hbody, ho, hsemi⟩ := output_ne_semicolon r hr
  obtain ⟨a, b, hab, hb, hlength⟩ := end_of_suffix hfits
  have hamp := ampersand_of_lower_eq hb hc
  -- the command's end is what follows the entity, and before that its semicolon
  obtain ⟨t, ht⟩ : [char ';'] ++ y <:+ b := by
    have hwhole : [char ';'] ++ y <:+ a ++ b := ⟨x ++ body, by rw [← hab, hbody]; simp⟩
    apply List.suffix_of_suffix_length_le hwhole (List.suffix_append a b)
    rw [List.length_append, List.length_singleton]
    omega
  have hy' : char '&' ∉ y := by
    intro hmem
    apply hamp
    rw [← ht]
    simp [hmem]
  have hun : unescape (x ++ (r.1 ++ y)) = unescape x ++ ([o] ++ y) := by
    rw [unescape_eq_rewrite, marked_entities.rewrite_middle hr, ho, marked_entities.rewrite_unmarked hy',
      ← unescape_eq_rewrite]
  rintro ⟨z, hz⟩
  rw [hun, ← hb, ← ht] at hz
  simp only [lower_append, ← List.append_assoc, List.append_cancel_right_eq, lower_cons, lower_nil] at hz
  have hlast := (List.append_inj' hz rfl).2
  simp only [List.cons.injEq, and_true] at hlast
  exact hsemi (hlast.symm.trans (by decide))

theorem length_le_of_cutsCommand {n : UInt64} (hm : event.find "message" = some (.string m))
    (h : CutsCommand m c (event.set "__command_size__" (.numberUnsigned n))) : c.length ≤ 32768 := by
  obtain ⟨hends, hplain⟩ := h
  have hle : c.length ≤ (unescape m).length := by simpa using hends.length_le
  rw [extraPlainText_command ((Object.find_set_ne _ _ (by decide)).trans hm) (Object.find_set_self _ _ _),
    noexcept_eq_ok] at hplain
  obtain ⟨hlow, hhigh⟩ := bmod_bounds n
  have := length_of_removeCommand hlow hhigh hplain
  rw [List.length_take] at this
  omega

end

/-- What LongestSuffix selects and hands on is the user's text without the
command, exactly when the size fits and no entity reaches into the end. -/
theorem suffix_argument_iff (hcommands : ∀ c ∈ suffixCommands regs, char '&' ∉ c.1) :
    (∀ m event event' p, event.find "message" = some (.string m) →
      (registered regs).commandSuffix.longestSuffix m event = (event', some p) →
        ∃ c, Selected (suffixCommands regs) (· <:+ lower m) c ∧ c.2 = p ∧
          (CutsCommand m c.1 event' ↔ c.1.length ≤ 32768 ∧ ¬ EntityAtEnd m c.1.length)) ∧
    ∀ env event b launches l, IsMessage event → handle (registered regs) env event = .ok (b, launches) →
      l ∈ launches → l.path = .suffixMatch →
        ∃ m c, MatchedText env event m ∧ l.event.find "message" = some (.string m) ∧
          Selected (suffixCommands regs) (· <:+ lower m) c ∧ c.2 = l.service ∧
          (CutsCommand m c.1 l.event ↔ c.1.length ≤ 32768 ∧ ¬ EntityAtEnd m c.1.length) := by
  have hsearch : ∀ m event event' p, event.find "message" = some (.string m) →
      (registered regs).commandSuffix.longestSuffix m event = (event', some p) →
        ∃ c, Selected (suffixCommands regs) (· <:+ lower m) c ∧ c.2 = p ∧
          (CutsCommand m c.1 event' ↔ c.1.length ≤ 32768 ∧ ¬ EntityAtEnd m c.1.length) := by
    intro m event event' p hm hs
    have ha := answers_longestSuffix regs m event
    rw [hs] at ha
    obtain ⟨c, hsel, hp, rfl⟩ := selected_of_answers ha
    have hamp := hcommands c hsel.mem
    refine ⟨c, hsel, hp, ?_, ?_⟩
    · intro hcut
      exact ⟨length_le_of_cutsCommand hm hcut,
        fun hend => not_suffix_of_entityAtEnd hamp hsel.fits hend hcut.1⟩
    · rintro ⟨hlen, hend⟩
      exact cutsCommand_of_not_entityAtEnd hm hsel.nonempty hamp hsel.fits hlen hend
  refine ⟨hsearch, ?_⟩
  intro env event b launches l hmsg hh hl hpath
  obtain ⟨m, marked, ht, ⟨hm, hm'⟩, hs⟩ := handed_suffix hmsg hh hl hpath
  obtain ⟨c, hsel, hp, hcut⟩ := hsearch m marked l.event l.service hm hs
  exact ⟨m, c, ht, hm', hsel, hp, hcut⟩

theorem suffix_argument_iff_echo :
    ∃ event', (registered [.command .suffixMatch (bytes "echo") 0]).commandSuffix.longestSuffix
        (bytes "&amp;echo") [("message", .string (bytes "&amp;echo"))] = (event', some 0) ∧
      ∃ c, Selected (suffixCommands [.command .suffixMatch (bytes "echo") 0])
          (· <:+ lower (bytes "&amp;echo")) c ∧ c.2 = 0 ∧
        (CutsCommand (bytes "&amp;echo") c.1 event' ↔
          c.1.length ≤ 32768 ∧ ¬ EntityAtEnd (bytes "&amp;echo") c.1.length) :=
  ⟨_, rfl, (suffix_argument_iff (by decide)).1 _ _ _ _ rfl rfl⟩

theorem suffix_inside_entity :
    ¬ ∀ regs, (∀ c ∈ suffixCommands regs, ∀ x ∈ bytes "&[],", x ∉ c.1) →
      ∀ m event event' p, event.find "message" = some (.string m) →
        (registered regs).commandSuffix.longestSuffix m event = (event', some p) →
          ∃ c, Selected (suffixCommands regs) (· <:+ lower m) c ∧ c.2 = p ∧ CutsCommand m c.1 event' := by
  intro hall
  obtain ⟨c, hsel, _, hcut⟩ := hall [.command .suffixMatch (bytes "amp;") 0] (by decide +kernel)
    (bytes "x&amp;") [("message", .string (bytes "x&amp;"))] _ 0 rfl rfl
  have hc : c = (bytes "amp;", 0) := List.mem_singleton.mp hsel.mem
  subst hc
  exact absurd hcut.1 (by decide)

end MigangBot.CommandArgument
