import MigangBot.Lib.Utf16
import MigangBot.Text

namespace MigangBot.Utf8Conversion

open Lib.Utf16
open Lib.Exceptions (throwing ok_bind)
open Text (Bytes)

section Library

inductive Exception
  | invalidUtf8
  | invalidUtf16
  | outOfRange
  deriving DecidableEq, Repr

abbrev Outcome := Lib.Exceptions.Outcome Exception

abbrev U16String := List UInt16

def utf8 (cs : List Char) : Bytes := cs.flatMap String.utf8EncodeChar

/-- What is relied on of utfcpp: it converts what is valid as it stands, and throws where
a surrogate is without its other half. -/
structure Utfcpp where
  utf8to16 : Bytes → Outcome U16String
  utf16to8 : U16String → Outcome Bytes
  utf8to16_utf8 : ∀ cs, utf8to16 (utf8 cs) = .ok (utf16 cs)
  utf16to8_utf16 : ∀ cs, utf16to8 (utf16 cs) = .ok (utf8 cs)
  utf16to8_unpaired : ∀ w, (∀ cs, utf16 cs ≠ w) → utf16to8 w = throwing .invalidUtf16

/-- The library as it is documented. -/
def exact : Utfcpp where
  utf8to16 s :=
    match s.toByteArray.utf8Decode? with
    | some cs => .ok (utf16 cs.toList)
    | none => throwing .invalidUtf8
  utf16to8 w :=
    match decode w with
    | some cs => .ok (utf8 cs)
    | none => throwing .invalidUtf16
  utf8to16_utf8 cs := by
    have hdecode : (utf8 cs).toByteArray.utf8Decode? = some cs.toArray := List.utf8Decode?_utf8Encode
    rw [hdecode]
  utf16to8_utf16 cs := by rw [decode_utf16]
  utf16to8_unpaired w h := by
    cases hdecode : decode w with
    | some cs => exact absurd (utf16_of_decode hdecode) (h cs)
    | none => rfl

end Library

section Reversal

variable (u : Utfcpp)

def reverseUTF8 (str : Bytes) : Outcome Bytes := do
  let strU16 ← u.utf8to16 str
  u.utf16to8 strU16.reverse

/-- The code points come out in reverse order, and doing it again gives the text back. -/
def Reverses (cs : List Char) : Prop :=
  reverseUTF8 u (utf8 cs) = .ok (utf8 cs.reverse) ∧
    (do reverseUTF8 u (← reverseUTF8 u (utf8 cs))) = .ok (utf8 cs)

variable {u} {cs : List Char}

theorem reverseUTF8_plain (h : ∀ c ∈ cs, c.toNat < 0x10000) : reverseUTF8 u (utf8 cs) = .ok (utf8 cs.reverse) := by
  rw [reverseUTF8, u.utf8to16_utf8, ok_bind, utf16_reverse h, u.utf16to8_utf16]

theorem reverseUTF8_pair (h : ∃ c ∈ cs, 0x10000 ≤ c.toNat) :
    reverseUTF8 u (utf8 cs) = throwing .invalidUtf16 := by
  rw [reverseUTF8, u.utf8to16_utf8, ok_bind, u.utf16to8_unpaired _ (reverse_ne_utf16 h)]

theorem reverses_iff (u : Utfcpp) (cs : List Char) : Reverses u cs ↔ ∀ c ∈ cs, c.toNat < 0x10000 := by
  constructor
  · intro h
    by_contra hall
    have hlarge : ∃ c ∈ cs, 0x10000 ≤ c.toNat := by simpa using hall
    have hok := h.1
    rw [reverseUTF8_pair hlarge] at hok
    cases hok
  · intro h
    have hreversed : ∀ c ∈ cs.reverse, c.toNat < 0x10000 := fun c hc => h c (List.mem_reverse.mp hc)
    refine ⟨reverseUTF8_plain h, ?_⟩
    rw [reverseUTF8_plain h, ok_bind, reverseUTF8_plain hreversed, List.reverse_reverse]

/-- Characters of one, two and three bytes. -/
theorem reverses_mixed : Reverses exact ['a', 'é', '占'] := (reverses_iff exact ['a', 'é', '占']).mpr (by simp)

/-- U+1F600 on its own is a text that cannot be reversed, with any library. -/
theorem emoji_throws : reverseUTF8 exact (utf8 [Char.ofNat 0x1F600]) = throwing .invalidUtf16 ∧
    ¬ ∃ u : Utfcpp, Reverses u [Char.ofNat 0x1F600] := by
  have hthrows (u : Utfcpp) : reverseUTF8 u (utf8 [Char.ofNat 0x1F600]) = throwing .invalidUtf16 :=
    reverseUTF8_pair ⟨_, List.mem_singleton_self _, by decide⟩
  refine ⟨hthrows exact, fun hexists => ?_⟩
  obtain ⟨u, h⟩ := hexists
  cases (hthrows u).symm.trans h.1

end Reversal

end MigangBot.Utf8Conversion
