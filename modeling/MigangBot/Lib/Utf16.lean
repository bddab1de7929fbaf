import Mathlib.Data.List.Basic
import Mathlib.Data.List.Induction

namespace MigangBot.Lib.Utf16

def leadOf (n : Nat) : UInt16 := UInt16.ofNat (0xD800 + (n - 0x10000) / 0x400)

def trailOf (n : Nat) : UInt16 := UInt16.ofNat (0xDC00 + (n - 0x10000) % 0x400)

/-- The code units of a character: one, or a pair of surrogates. -/
def units (c : Char) : List UInt16 :=
  if c.toNat < 0x10000 then [UInt16.ofNat c.toNat] else [leadOf c.toNat, trailOf c.toNat]

def utf16 (cs : List Char) : List UInt16 := cs.flatMap units

def isLead (u : UInt16) : Bool := 0xD800 ≤ u.toNat ∧ u.toNat < 0xDC00

def isTrail (u : UInt16) : Bool := 0xDC00 ≤ u.toNat ∧ u.toNat < 0xE000

def isSurrogate (u : UInt16) : Bool := 0xD800 ≤ u.toNat ∧ u.toNat < 0xE000

/-- The character of a pair. -/
def paired (lead trail : UInt16) : Nat := 0x10000 + (lead.toNat - 0xD800) * 0x400 + (trail.toNat - 0xDC00)

/-- The characters of code units, if every surrogate is in a pair. -/
def decode : List UInt16 → Option (List Char)
  | [] => some []
  | [u] => if isSurrogate u then none else some [Char.ofNat u.toNat]
  | u :: v :: rest =>
      if isTrail u then none
      else if isLead u then (if isTrail v then (decode rest).map (Char.ofNat (paired u v) :: ·) else none)
      else (decode (v :: rest)).map (Char.ofNat u.toNat :: ·)

section Units

variable {c : Char} {u v : UInt16}

theorem toNat_cases (c : Char) : c.toNat < 0xD800 ∨ 0xDFFF < c.toNat ∧ c.toNat < 0x110000 := c.valid

theorem toNat_ofNat_unit {n : Nat} (h : n < 0x10000) : (UInt16.ofNat n).toNat = n := UInt16.toNat_ofNat_of_lt' h

theorem units_plain (h : c.toNat < 0x10000) : ∃ u, units c = [u] ∧ u.toNat = c.toNat ∧ isSurrogate u = false := by
  refine ⟨UInt16.ofNat c.toNat, if_pos h, toNat_ofNat_unit h, ?_⟩
  have := toNat_cases c
  rw [isSurrogate, toNat_ofNat_unit h, decide_eq_false_iff_not]
  omega

theorem toNat_leadOf {n : Nat} (h : n < 0x110000) : (leadOf n).toNat = 0xD800 + (n - 0x10000) / 0x400 :=
  toNat_ofNat_unit (by omega)

theorem toNat_trailOf (n : Nat) : (trailOf n).toNat = 0xDC00 + (n - 0x10000) % 0x400 := toNat_ofNat_unit (by omega)

theorem units_pair (h : 0x10000 ≤ c.toNat) :
    ∃ lead trail, units c = [lead, trail] ∧ isLead lead = true ∧ isTrail trail = true ∧
      paired lead trail = c.toNat := by
  have := toNat_cases c
  have hlead := @toNat_leadOf c.toNat (by omega)
  have htrail := toNat_trailOf c.toNat
  refine ⟨leadOf c.toNat, trailOf c.toNat, if_neg (Nat.not_lt.mpr h), ?_, ?_, ?_⟩
  · rw [isLead, hlead, decide_eq_true_eq]
    omega
  · rw [isTrail, htrail, decide_eq_true_eq]
    omega
  · unfold paired
    omega

theorem isSurrogate_eq (u : UInt16) : isSurrogate u = (isLead u || isTrail u) := by
  rw [isSurrogate, isLead, isTrail, ← Bool.decide_or, decide_eq_decide]
  omega

theorem isTrail_of_lead (h : isLead u = true) : isTrail u = false := by
  rw [isLead, decide_eq_true_eq] at h
  rw [isTrail, decide_eq_false_iff_not]
  omega

end Units

section Decode

theorem utf16_cons (c : Char) (cs : List Char) : utf16 (c :: cs) = units c ++ utf16 cs := rfl

theorem utf16_append (cs ds : List Char) : utf16 (cs ++ ds) = utf16 cs ++ utf16 ds := List.flatMap_append

theorem decode_plain {u : UInt16} (h : isSurrogate u = false) (w : List UInt16) :
    decode (u :: w) = (decode w).map (Char.ofNat u.toNat :: ·) := by
  have hsplit := isSurrogate_eq u
  rw [h, eq_comm, Bool.or_eq_false_iff] at hsplit
  cases w with
  | nil => simp [decode, h]
  | cons v w => simp [decode, hsplit]

theorem decode_pair {u v : UInt16} (hu : isLead u = true) (hv : isTrail v = true) (w : List UInt16) :
    decode (u :: v :: w) = (decode w).map (Char.ofNat (paired u v) :: ·) := by
  simp [decode, hu, hv, isTrail_of_lead hu]

theorem decode_utf16 (cs : List Char) : decode (utf16 cs) = some cs := by
  induction cs with
  | nil => rfl
  | cons c cs ih =>
      rw [utf16_cons]
      rcases Nat.lt_or_ge c.toNat 0x10000 with h | h
      · obtain ⟨u, hunits, hnat, hplain⟩ := units_plain h
        rw [hunits, List.singleton_append, decode_plain hplain, ih, hnat, Char.ofNat_toNat]
        rfl
      · obtain ⟨lead, trail, hunits, hlead, htrail, hnat⟩ := units_pair h
        rw [hunits, List.cons_append, List.singleton_append, decode_pair hlead htrail, ih, hnat, Char.ofNat_toNat]
        rfl

theorem toNat_ofNat_char {n : Nat} (h : n < 0xD800 ∨ 0xDFFF < n ∧ n < 0x110000) : (Char.ofNat n).toNat = n := by
  rw [Char.ofNat, dif_pos h]
  rfl

theorem units_of_plain {u : UInt16} (h : isSurrogate u = false) : units (Char.ofNat u.toNat) = [u] := by
  have hlt := u.toNat_lt
  rw [isSurrogate, decide_eq_false_iff_not] at h
  have hnat := @toNat_ofNat_char u.toNat (by omega)
  rw [units, hnat, if_pos hlt, UInt16.ofNat_toNat]

theorem units_of_pair {u v : UInt16} (hu : isLead u = true) (hv : isTrail v = true) :
    units (Char.ofNat (paired u v)) = [u, v] := by
  rw [isLead, decide_eq_true_eq] at hu
  rw [isTrail, decide_eq_true_eq] at hv
  have hle : 0x10000 ≤ paired u v := by
    unfold paired
    omega
  have hlt : paired u v < 0x110000 := by
    unfold paired
    omega
  have hlead : leadOf (paired u v) = u := by
    apply UInt16.toNat_inj.mp
    have hlead := toNat_leadOf hlt
    unfold paired at hlead ⊢
    omega
  have htrail : trailOf (paired u v) = v := by
    apply UInt16.toNat_inj.mp
    have htrail := toNat_trailOf (paired u v)
    unfold paired at htrail ⊢
    omega
  rw [units, toNat_ofNat_char (by omega), if_neg (Nat.not_lt.mpr hle), hlead, htrail]

/-- What can be decoded is the units of what it is decoded to. -/
theorem utf16_of_decode {w : List UInt16} {cs : List Char} (h : decode w = some cs) : utf16 cs = w := by
  induction w using decode.induct generalizing cs with
  | case1 =>
      cases h
      rfl
  | case2 u hu =>
      rw [decode, if_pos hu] at h
      cases h
  | case3 u hu =>
      rw [decode, if_neg hu] at h
      cases h
      rw [utf16_cons, units_of_plain (Bool.eq_false_iff.mpr hu)]
      rfl
  | case4 u v rest hu =>
      rw [decode, if_pos hu] at h
      cases h
  | case5 u v rest _ hu hv ih =>
      rw [decode_pair hu hv, Option.map_eq_some_iff] at h
      obtain ⟨ds, hds, rfl⟩ := h
      rw [utf16_cons, units_of_pair hu hv, ih hds]
      rfl
  | case6 u v rest hu hlead hv =>
      rw [decode, if_neg hu, if_pos hlead, if_neg hv] at h
      cases h
  | case7 u v rest hu hlead ih =>
      have hplain : isSurrogate u = false := by
        rw [isSurrogate_eq, Bool.eq_false_iff.mpr hu, Bool.eq_false_iff.mpr hlead]
        rfl
      rw [decode_plain hplain, Option.map_eq_some_iff] at h
      obtain ⟨ds, hds, rfl⟩ := h
      rw [utf16_cons, units_of_plain hplain, ih hds]
      rfl

end Decode

section Reversal

variable {cs : List Char}

theorem find_utf16 {u : UInt16} (h : (utf16 cs).find? isSurrogate = some u) : isLead u = true := by
  induction cs with
  | nil => cases h
  | cons c cs ih =>
      rw [utf16_cons] at h
      rcases Nat.lt_or_ge c.toNat 0x10000 with hc | hc
      · obtain ⟨v, hunits, _, hplain⟩ := units_plain hc
        rw [hunits, List.singleton_append, List.find?_cons_of_neg (by rw [hplain]; decide)] at h
        exact ih h
      · obtain ⟨lead, trail, hunits, hlead, _⟩ := units_pair hc
        rw [hunits, List.cons_append, List.find?_cons_of_pos (by rw [isSurrogate_eq, hlead]; rfl)] at h
        exact Option.some.inj h ▸ hlead

/-- Read from behind, a pair begins with its trail. -/
theorem find_reverse (h : ∃ c ∈ cs, 0x10000 ≤ c.toNat) :
    ∃ u, (utf16 cs).reverse.find? isSurrogate = some u ∧ isTrail u = true := by
  induction cs using List.reverseRecOn with
  | nil => simp at h
  | append_singleton cs c ih =>
      have hone : utf16 [c] = units c := List.append_nil _
      rw [utf16_append, hone, List.reverse_append]
      rcases Nat.lt_or_ge c.toNat 0x10000 with hc | hc
      · obtain ⟨v, hunits, _, hplain⟩ := units_plain hc
        rw [hunits, List.reverse_singleton, List.singleton_append, List.find?_cons_of_neg (by rw [hplain]; decide)]
        obtain ⟨d, hd, hlarge⟩ := h
        rcases List.mem_append.mp hd with hd | hd
        · exact ih ⟨d, hd, hlarge⟩
        · cases List.mem_singleton.mp hd
          omega
      · obtain ⟨lead, trail, hunits, _, htrail, _⟩ := units_pair hc
        refine ⟨trail, ?_, htrail⟩
        rw [hunits]
        exact List.find?_cons_of_pos (by rw [isSurrogate_eq, htrail, Bool.or_true])

/-- Turned round, the units of a text with pairs in it are the units of no text. -/
theorem reverse_ne_utf16 (h : ∃ c ∈ cs, 0x10000 ≤ c.toNat) (ds : List Char) : utf16 ds ≠ (utf16 cs).reverse := by
  intro heq
  obtain ⟨u, hfind, htrail⟩ := find_reverse h
  rw [← heq] at hfind
  exact absurd htrail (by rw [isTrail_of_lead (find_utf16 hfind)]; decide)

theorem utf16_reverse (h : ∀ c ∈ cs, c.toNat < 0x10000) : (utf16 cs).reverse = utf16 cs.reverse := by
  induction cs with
  | nil => rfl
  | cons c cs ih =>
      obtain ⟨u, hunits, _⟩ := units_plain (h c List.mem_cons_self)
      have hone : utf16 [c] = [u] := (List.append_nil _).trans hunits
      rw [utf16_cons, hunits, List.singleton_append, List.reverse_cons, List.reverse_cons, utf16_append, hone,
        ih fun d hd => h d (List.mem_cons_of_mem c hd)]

end Reversal

end MigangBot.Lib.Utf16
