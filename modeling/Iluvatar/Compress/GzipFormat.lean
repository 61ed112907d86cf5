/-
The gzip header as it is written, and the parser on it.
-/
import Iluvatar.Compress.GzipHeader

namespace Iluvatar

/-- A gzip header.  Its flags tell which of the optional fields are there. -/
structure GzipHeader where
  method : Byte
  flags : Byte
  /-- Modification time, extra flags and operating system. -/
  fixed : List Byte
  extra : Option (List Byte)
  name : Option (List Byte)
  comment : Option (List Byte)
  crc : Option (Byte × Byte)
  fixed_length : fixed.length = 6
  extra_flag : flags &&& 4 ≠ 0 ↔ extra.isSome
  name_flag : flags &&& 8 ≠ 0 ↔ name.isSome
  comment_flag : flags &&& 16 ≠ 0 ↔ comment.isSome
  crc_flag : flags &&& 2 ≠ 0 ↔ crc.isSome
  extra_lt : ∀ e ∈ extra, e.length < 2 ^ 16
  name_text : ∀ n ∈ name, (0 : Byte) ∉ n
  comment_text : ∀ n ∈ comment, (0 : Byte) ∉ n

namespace GzipHeader

def encodeExtra (extra : List Byte) : List Byte :=
  UInt8.ofNat extra.length :: UInt8.ofNat (extra.length / 256) :: extra

def encodeText (text : List Byte) : List Byte := text ++ [0]

def encodeCrc (crc : Byte × Byte) : List Byte := [crc.1, crc.2]

/-- A field that may be absent. -/
def optional {α : Type} (encode : α → List Byte) (x : Option α) : List Byte := (x.map encode).getD []

def encode (h : GzipHeader) : List Byte :=
  [0x1f, 0x8b, h.method, h.flags] ++ h.fixed ++ optional encodeExtra h.extra ++ optional encodeText h.name ++
    optional encodeText h.comment ++ optional encodeCrc h.crc

end GzipHeader

namespace GzipDecompressor

open GzipHeader

/-- `skip` skips the encoding of `x`, whatever stands around it. -/
def Skips (skip : List Byte → Nat → Option Nat) (encoded : List Byte) : Prop :=
  ∀ front back, skip (front ++ encoded ++ back) front.length = some (front ++ encoded).length

theorem Skips.bind {skip skip' : List Byte → Nat → Option Nat} {encoded encoded' : List Byte}
    (h : Skips skip encoded) (h' : Skips skip' encoded') :
    Skips (fun buf pos => (skip buf pos).bind (skip' buf)) (encoded ++ encoded') := by
  intro front back
  have hfirst := h front (encoded' ++ back)
  rw [← List.append_assoc] at hfirst
  have hsecond := h' (front ++ encoded) back
  simp only [← List.append_assoc] at hsecond ⊢
  rw [hfirst, Option.bind_some, hsecond]

end GzipDecompressor
end Iluvatar
