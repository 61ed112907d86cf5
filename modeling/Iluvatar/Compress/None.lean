/-
Stored bytes: the passthrough decompressor, and that it keeps the contract.
-/
import Iluvatar.Compress.Contract
import Mathlib.Data.List.Infix

namespace Iluvatar

structure NoneDecompressor where
  totalIn : Nat
  totalOut : Nat
  deriving DecidableEq, Repr

namespace NoneDecompressor

def new : NoneDecompressor := { totalIn := 0, totalOut := 0 }

def decompress (d : NoneDecompressor) (input : List Byte) (room : Nat) :
    DecompressResult × NoneDecompressor :=
  if input.isEmpty then ({ bytesConsumed := 0, produced := [], status := .streamEnd }, d)
  else
    let n := min input.length room
    ({ bytesConsumed := n, produced := input.take n, status := .continue },
      { totalIn := d.totalIn + n, totalOut := d.totalOut + n })

def checkpoint (_ : NoneDecompressor) (compressedOffset uncompressedOffset : Nat) :
    Option (Checkpoint Empty) :=
  some { compressedOffset, bitOffset := 0, uncompressedOffset, state := none }

def restore (_ : NoneDecompressor) (cp : Checkpoint Empty) : NoneDecompressor :=
  { totalIn := cp.compressedOffset, totalOut := cp.uncompressedOffset }

def codec : Codec NoneDecompressor Empty where
  create := .ok new
  decompress d input room := .ok (d.decompress input room)
  checkpoint d c u := .ok (d.checkpoint c u)
  restore d cp := .ok (d.restore cp)
  estimatedSize := Empty.elim

/-- Stored bytes stand at equal offsets. -/
structure At (plain : List Byte) (d : NoneDecompressor) (c u : Nat) : Prop where
  totalIn : d.totalIn = c
  totalOut : d.totalOut = u
  same : u = c
  within : c ≤ plain.length

theorem exact_of_le {plain : List Byte} {cp : Checkpoint Empty}
    (hle : cp.compressedOffset ≤ plain.length)
    (hsame : cp.uncompressedOffset = cp.compressedOffset) : cp.Exact codec (At plain) :=
  fun s _ => ⟨s.restore cp, rfl, rfl, rfl, hsame, hle⟩

theorem decompress_good {plain : List Byte} {d : NoneDecompressor} {c u room : Nat}
    {input : List Byte} (h : At plain d c u) (hinput : input <+: plain.drop c)
    (hend : input = [] → plain.length ≤ c) (hroom : 0 < room) :
    GoodCall (At plain) plain plain c u input room (d.decompress input room).1
      (d.decompress input room).2 := by
  have hwithin := h.within
  have hsame := h.same
  by_cases hnil : input = []
  · have heq : d.decompress input room =
        ({ bytesConsumed := 0, produced := [], status := .streamEnd }, d) := by
      rw [decompress, hnil]
      rfl
    rw [heq]
    have := hend hnil
    refine ⟨Nat.zero_le _, Nat.zero_le _, List.nil_prefix, h, ?_, by simp⟩
    intro _
    show u + 0 = _
    omega
  · have hpos := List.length_pos_of_ne_nil hnil
    have hlen := hinput.length_le
    rw [List.length_drop] at hlen
    have heq : d.decompress input room =
        ({ bytesConsumed := min input.length room, produced := input.take (min input.length room)
           status := .continue },
          { totalIn := d.totalIn + min input.length room
            totalOut := d.totalOut + min input.length room }) := by
      rw [decompress, if_neg (by simpa using hnil)]
    have hmade : (input.take (min input.length room)).length = min input.length room := by
      rw [List.length_take]
      omega
    rw [heq]
    refine ⟨Nat.min_le_left _ _, by rw [hmade]; exact Nat.min_le_right _ _, ?_, ?_, by simp, ?_⟩
    · rw [hsame]
      exact (List.take_prefix _ _).trans hinput
    · refine ⟨by rw [← h.totalIn], by rw [hmade, ← h.totalOut], by rw [hmade, hsame], ?_⟩
      show c + min input.length room ≤ plain.length
      omega
    · intro _
      refine .inl ?_
      show 0 < min input.length room
      omega

/-- The passthrough decompressor keeps the contract on every stream of stored bytes. -/
theorem obeys (plain : List Byte) : Obeys codec plain plain (At plain) where
  creates := ⟨_, rfl⟩
  start := exact_of_le (Nat.zero_le _) rfl
  fresh := by
    rintro s hs
    obtain rfl := Except.ok.inj hs
    exact ⟨rfl, rfl, rfl, Nat.zero_le _⟩
  decompress := fun s c u input room h hinput hend hroom =>
    ⟨_, _, rfl, decompress_good h hinput hend hroom⟩
  checkpoint := by
    intro s c u h
    refine ⟨_, rfl, ?_⟩
    rintro cp hcp
    obtain rfl := Option.some.inj hcp
    exact ⟨rfl, exact_of_le h.within h.same⟩
  within := fun s c u h => ⟨h.within, h.same ▸ h.within⟩

end NoneDecompressor
end Iluvatar
