import MigangBot.Text
import Mathlib.Data.Nat.Find

namespace MigangBot.Gzip

open Text

/-- What is relied on of zlib: all that deflate and inflate write of an input when it
is flushed and there is room for it, and the size that the first is expected to need. Reading
on only adds to what inflate has written. -/
structure Zlib where
  deflated : Bytes → Bytes
  inflated : Bytes → Bytes
  compressBound : Nat → Nat
  inflated_deflated : ∀ s, inflated (deflated s) = s
  inflated_append : ∀ x y, inflated x <+: inflated (x ++ y)

/-- The answers of the calls that need memory. -/
structure Host where
  deflateInit : Bool
  malloc : Nat → Bool
  inflateInit : Bool

section Code

variable (z : Zlib) (host : Host)

/-- What avail_in and avail_out hold of a size. -/
def uInt (n : Nat) : Nat := n % 2 ^ 32

def Zlib.deflate (input : Bytes) (availIn availOut : Nat) : Bytes := (z.deflated (input.take availIn)).take availOut

def Zlib.inflate (input : Bytes) (availIn availOut : Nat) : Bytes := (z.inflated (input.take availIn)).take availOut

def gzipCompress (originalStr str : Bytes) : Bytes × Bool :=
  if !host.deflateInit then (str, false)
  else
    let len := z.compressBound originalStr.length
    if !host.malloc len then (str, false)
    else (z.deflate originalStr (uInt originalStr.length) (uInt len), true)

def bufferSize : Nat := 102400

/-- The result of inflateInit2 is not looked at. -/
def gzipUncompress (originalStr : Bytes) : Bytes :=
  if host.inflateInit then z.inflate originalStr (uInt originalStr.length) bufferSize else []

end Code

section Library

variable {z : Zlib} {s x y : Bytes} {n : Nat}

theorem Zlib.inflated_mono (h : x <+: y) : z.inflated x <+: z.inflated y := by
  obtain ⟨rest, rfl⟩ := h
  exact z.inflated_append x rest

theorem exists_needed (z : Zlib) (s : Bytes) : ∃ n, z.inflated ((z.deflated s).take n) = s :=
  ⟨(z.deflated s).length, by rw [List.take_length, z.inflated_deflated]⟩

/-- How much of what deflate writes for a text it takes to have all of the text. -/
def Zlib.needed (z : Zlib) (s : Bytes) : Nat := Nat.find (exists_needed z s)

theorem needed_le_iff : z.needed s ≤ n ↔ z.inflated ((z.deflated s).take n) = s := by
  constructor
  · intro h
    have hneeded : z.inflated ((z.deflated s).take (z.needed s)) = s := Nat.find_spec (exists_needed z s)
    have hle : s <+: z.inflated ((z.deflated s).take n) := by
      have hmono := z.inflated_mono (List.take_prefix_take_left h : (z.deflated s).take (z.needed s) <+: _)
      rwa [hneeded] at hmono
    have hge : z.inflated ((z.deflated s).take n) <+: s := by
      have hmono := z.inflated_mono (List.take_prefix n (z.deflated s))
      rwa [z.inflated_deflated] at hmono
    exact hge.eq_of_length_le hle.length_le
  · intro h
    exact Nat.find_min' (exists_needed z s) h

/-- Nothing has to be written for the empty text. -/
theorem needed_nil (z : Zlib) : z.needed [] = 0 := by
  apply Nat.le_zero.mp
  rw [needed_le_iff]
  have hmono := z.inflated_mono (List.take_prefix 0 (z.deflated []))
  rw [z.inflated_deflated] at hmono
  exact List.prefix_nil.mp hmono

end Library

section RoundTrip

variable {z : Zlib} {host : Host} {s : Bytes}

def RoundTrip (z : Zlib) (host : Host) (s : Bytes) : Prop :=
  ∀ str out, gzipCompress z host s str = (out, true) → gzipUncompress z host out = s

/-- gzip_compress gets the memory that it asks for. -/
def Compresses (z : Zlib) (host : Host) (s : Bytes) : Prop :=
  host.deflateInit = true ∧ host.malloc (z.compressBound s.length) = true

/-- What gzip_compress puts into the text when it returns true. -/
def written (z : Zlib) (s : Bytes) : Bytes := z.deflate s (uInt s.length) (uInt (z.compressBound s.length))

theorem gzipCompress_true {str out : Bytes} :
    gzipCompress z host s str = (out, true) ↔ Compresses z host s ∧ written z s = out := by
  rw [gzipCompress, Compresses]
  cases host.deflateInit with
  | false => simp
  | true => cases hmalloc : host.malloc (z.compressBound s.length) <;> simp [written, hmalloc]

theorem gzipUncompress_written : gzipUncompress z host (written z s) =
    if host.inflateInit then (z.inflated (written z s)).take bufferSize else [] := by
  have hlength : (written z s).length < 2 ^ 32 := by
    have hle := List.length_take_le (uInt (z.compressBound s.length)) (z.deflated (s.take (uInt s.length)))
    exact Nat.lt_of_le_of_lt hle (Nat.mod_lt _ (by decide))
  rw [gzipUncompress, Zlib.inflate, uInt, Nat.mod_eq_of_lt hlength, List.take_length]

theorem written_of_le (h : s.length ≤ bufferSize) :
    written z s = (z.deflated s).take (uInt (z.compressBound s.length)) := by
  have hlt : s.length < 2 ^ 32 := Nat.lt_of_le_of_lt h (by decide)
  rw [written, Zlib.deflate]
  unfold uInt
  rw [Nat.mod_eq_of_lt hlt, List.take_length]

theorem restored_iff : gzipUncompress z host (written z s) = s ↔
    (s = [] ∨ host.inflateInit = true) ∧ s.length ≤ bufferSize ∧ z.needed s ≤ uInt (z.compressBound s.length) := by
  rw [gzipUncompress_written]
  constructor
  · intro h
    split at h
    next hinit =>
      have hprefix := List.take_prefix bufferSize (z.inflated (written z s))
      have hlength := List.length_take_le bufferSize (z.inflated (written z s))
      rw [h] at hprefix hlength
      rw [written_of_le hlength] at hprefix
      have hge := z.inflated_mono (List.take_prefix (uInt (z.compressBound s.length)) (z.deflated s))
      rw [z.inflated_deflated] at hge
      exact ⟨.inr hinit, hlength, needed_le_iff.mpr (hge.eq_of_length_le hprefix.length_le)⟩
    next =>
      subst h
      rw [needed_nil]
      exact ⟨.inl rfl, Nat.zero_le _, Nat.zero_le _⟩
  · intro h
    obtain ⟨hinit, hlength, hneeded⟩ := h
    rw [written_of_le hlength, needed_le_iff.mp hneeded, List.take_of_length_le hlength]
    rcases hinit with rfl | hinit
    · split <;> rfl
    · rw [if_pos hinit]

theorem gzip_round_trip_iff (z : Zlib) (host : Host) (s : Bytes) : RoundTrip z host s ↔
    (Compresses z host s → (s = [] ∨ host.inflateInit = true) ∧ s.length ≤ bufferSize ∧
      z.needed s ≤ uInt (z.compressBound s.length)) := by
  rw [← restored_iff]
  constructor
  · intro h hcompresses
    exact h [] (written z s) (gzipCompress_true.mpr ⟨hcompresses, rfl⟩)
  · intro h str out hout
    obtain ⟨hcompresses, rfl⟩ := gzipCompress_true.mp hout
    exact h hcompresses

end RoundTrip

section Instance

/-- Blocks of one character each, uncompressed. -/
def inflatedBlocks : Bytes → Bytes
  | b :: b' :: b'' :: b₃ :: b₄ :: c :: rest =>
      if [b, b', b'', b₃, b₄] = [0, 1, 0, 0xfe, 0xff] then c :: inflatedBlocks rest else []
  | _ => []

theorem inflatedBlocks_append (x y : Bytes) : inflatedBlocks x <+: inflatedBlocks (x ++ y) := by
  fun_induction inflatedBlocks x with
  | case1 b b' b'' b₃ b₄ c rest hblock ih =>
      simp only [List.cons_append]
      rw [inflatedBlocks, if_pos hblock, List.cons_prefix_cons]
      exact ⟨rfl, ih⟩
  | case2 => exact List.nil_prefix
  | case3 => exact List.nil_prefix

/-- What zlib adds when it is flushed. -/
def flush : Bytes := [0, 0, 0, 0xff, 0xff]

def blocks (s : Bytes) : Bytes := s.flatMap (fun c => [0, 1, 0, 0xfe, 0xff, c]) ++ flush

theorem inflatedBlocks_blocks (s : Bytes) : inflatedBlocks (blocks s) = s := by
  induction s with
  | nil => rfl
  | cons c s ih =>
      rw [blocks, List.flatMap_cons, List.append_assoc]
      exact congrArg (c :: ·) ih

theorem inflatedBlocks_of_ne {b : UInt8} (hb : b ≠ 0) (x : Bytes) : inflatedBlocks (b :: x) = [] := by
  rcases x with _ | ⟨_, _ | ⟨_, _ | ⟨_, _ | ⟨_, _ | ⟨_, _⟩⟩⟩⟩⟩ <;> simp [inflatedBlocks, hb]

def hello : Bytes := bytes "hello"

/-- What zlib writes for it before the flush: its characters in the fixed code. -/
def helloCode : Bytes := [0xca, 0x48, 0xcd, 0xc9, 0xc9, 0x07]

def inflatedBody (x : Bytes) : Bytes := if helloCode <+: x then hello else inflatedBlocks x

theorem inflatedBody_append (x y : Bytes) : inflatedBody x <+: inflatedBody (x ++ y) := by
  rw [inflatedBody, inflatedBody]
  by_cases hx : helloCode <+: x
  · have hxy : helloCode <+: x ++ y := hx.trans (List.prefix_append x y)
    exact ⟨[], by rw [if_pos hx, if_pos hxy, List.append_nil]⟩
  · rw [if_neg hx]
    split
    next hxy =>
      have hshort := (List.prefix_or_prefix_of_prefix hxy (List.prefix_append x y)).resolve_left hx
      cases x with
      | nil => exact List.nil_prefix
      | cons b x =>
          rw [helloCode, List.cons_prefix_cons] at hshort
          rw [inflatedBlocks_of_ne (by rw [hshort.1]; decide)]
          exact List.nil_prefix
    next => exact inflatedBlocks_append x y

theorem inflatedBody_blocks (s : Bytes) : inflatedBody (blocks s) = s := by
  have hstart : ¬ helloCode <+: blocks s := by
    intro h
    have hfirst : (0xca : UInt8) = 0 := by
      cases s <;> exact (List.cons_prefix_cons.mp h).1
    exact absurd hfirst (by decide)
  rw [inflatedBody, if_neg hstart, inflatedBlocks_blocks]

def gzipHeader : Bytes := [0x1f, 0x8b, 8, 0, 0, 0, 0, 0, 0, 3]

/-- A library that writes what zlib writes for this text and for the empty one, and puts
each character of any other into a block of its own. -/
def smallLibrary : Zlib where
  deflated s := gzipHeader ++ if s = hello then helloCode ++ flush else blocks s
  inflated x := inflatedBody (x.drop gzipHeader.length)
  compressBound n := n + n / 2 ^ 12 + n / 2 ^ 14 + n / 2 ^ 25 + 13
  inflated_deflated s := by
    rw [List.drop_left]
    split
    next hs =>
      subst hs
      rfl
    next => exact inflatedBody_blocks s
  inflated_append x y := by
    rw [List.drop_append]
    exact inflatedBody_append _ _

def ready : Host := ⟨true, fun _ => true, true⟩

theorem round_trip_hello : RoundTrip smallLibrary ready hello := by
  refine (gzip_round_trip_iff smallLibrary ready hello).mpr fun _ => ⟨.inr rfl, by decide, ?_⟩
  exact needed_le_iff.mpr (by decide)

/-- One character more than the buffer holds, with any library. -/
theorem long_text_cut : ¬ ∃ z : Zlib, RoundTrip z ready (List.replicate 102401 (char 'a')) := by
  intro hexists
  obtain ⟨z, h⟩ := hexists
  have hrestored := h [] _ (gzipCompress_true.mpr ⟨⟨rfl, rfl⟩, rfl⟩)
  have hlength := (restored_iff.mp hrestored).2.1
  rw [List.length_replicate] at hlength
  exact absurd hlength (by decide)

end Instance

end MigangBot.Gzip
