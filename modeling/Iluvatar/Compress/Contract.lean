/-
The contract a decompressor keeps with the stream layer.

`At s c u` says that state `s` stands at packed offset `c` and unpacked offset
`u` of a stream whose packed bytes are `packed` and whose unpacked bytes are
`plain`.  The contract is about whole streams: every call made with the bytes
that follow `c` (and with the empty slice only once they are exhausted) yields
the bytes that follow `u`, moves both offsets by what it reports, and does
something unless it reports the end or the stream has no bytes at all.  How input
and output are cut never enters.
-/
import Iluvatar.Compress.Decompressor

namespace Iluvatar

variable {σ κ : Type}

/-- A checkpoint is exact when restoring it into a fresh decompressor stands at
the checkpoint's own offsets. -/
def Checkpoint.Exact (codec : Codec σ κ) (At : σ → Nat → Nat → Prop) (cp : Checkpoint κ) : Prop :=
  ∀ s, codec.create = .ok s →
    ∃ s', codec.restore s cp = .ok s' ∧ At s' cp.compressedOffset cp.uncompressedOffset

/-- One decode call at `c`, `u` did what the contract asks of it. -/
structure GoodCall (At : σ → Nat → Nat → Prop) (packed plain : List Byte) (c u : Nat)
    (input : List Byte) (room : Nat) (r : DecompressResult) (s' : σ) : Prop where
  consumed_le : r.bytesConsumed ≤ input.length
  produced_le : r.produced.length ≤ room
  produced_eq : r.produced <+: plain.drop u
  stands : At s' (c + r.bytesConsumed) (u + r.produced.length)
  ended : r.status = .streamEnd → u + r.produced.length = plain.length
  progress : r.status = .continue →
    0 < r.bytesConsumed ∨ 0 < r.produced.length ∨ packed = [] ∧ plain = []

/-- A call that neither takes nor makes anything stands at the end. -/
theorem GoodCall.idle {At : σ → Nat → Nat → Prop} {packed plain : List Byte} {c u : Nat}
    {input : List Byte} {room : Nat} {r : DecompressResult} {s' : σ}
    (h : GoodCall At packed plain c u input room r s')
    (hidle : r.bytesConsumed = 0 ∧ r.bytesProduced = 0) :
    r.status = .streamEnd ∧ u = plain.length ∨ packed = [] ∧ plain = [] := by
  obtain ⟨hconsumed, hproduced⟩ := hidle
  rw [DecompressResult.bytesProduced] at hproduced
  cases hstatus : r.status with
  | streamEnd =>
    have hend := h.ended hstatus
    rw [hproduced] at hend
    exact .inl ⟨rfl, hend⟩
  | «continue» =>
    rcases h.progress hstatus with hmoved | hmoved | hnone
    · omega
    · omega
    · exact .inr hnone

/-- The contract of a decompressor on a stream. -/
structure Obeys (codec : Codec σ κ) (packed plain : List Byte) (At : σ → Nat → Nat → Prop) :
    Prop where
  creates : ∃ s, codec.create = .ok s
  start : (Checkpoint.start : Checkpoint κ).Exact codec At
  fresh : ∀ s, codec.create = .ok s → At s 0 0
  decompress : ∀ s c u input room, At s c u → input <+: packed.drop c →
    (input = [] → packed.length ≤ c) → 0 < room →
    ∃ r s', codec.decompress s input room = .ok (r, s') ∧
      GoodCall At packed plain c u input room r s'
  checkpoint : ∀ s c u, At s c u →
    ∃ o, codec.checkpoint s c u = .ok o ∧
      ∀ cp, o = some cp → cp.uncompressedOffset = u ∧ cp.Exact codec At
  within : ∀ s c u, At s c u → c ≤ packed.length ∧ u ≤ plain.length

/-- The last decode call, which left state `s`, reported the end of the stream. -/
def Reported (codec : Codec σ κ) (s : σ) : Prop :=
  ∃ s₀ input room r, codec.decompress s₀ input room = .ok (r, s) ∧ r.status = .streamEnd

end Iluvatar
