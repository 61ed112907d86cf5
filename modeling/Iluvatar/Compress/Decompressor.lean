/-
The decompressor interface: one decode step, checkpoints, and errors.
-/
import Mathlib.Algebra.GroupWithZero.Nat
import Mathlib.Algebra.Ring.Int.Defs

namespace Iluvatar

abbrev Byte := UInt8

/-- The errors the modelled code can return, with the source's texts. -/
inductive Error where
  | unsupportedFormat
  | decompressionError (msg : String)
  | checkpointError (msg : String)
  | invalidState (msg : String)
  | truncatedInput
  | truncatedArchive (msg : String)
  | invalidTarHeader (msg : String)
  | invalidCpioHeader (msg : String)
  | invalidArHeader (msg : String)
  | indexError (msg : String)
  | indexVersionMismatch (expected got : Nat)
  | serialization (msg : String)
  deriving DecidableEq, Repr

/-- Status after a decompression step. -/
inductive DecompressStatus where
  | continue
  | streamEnd
  deriving DecidableEq, Repr

/-- Result of a single decompression step.  `produced` is the written prefix of
the caller's output buffer, so `bytes_produced` is its length. -/
structure DecompressResult where
  bytesConsumed : Nat
  produced : List Byte
  status : DecompressStatus
  deriving DecidableEq, Repr

namespace DecompressResult

def bytesProduced (r : DecompressResult) : Nat := r.produced.length

end DecompressResult

/-- A decompressor state at a known position.  `state` is `none` for
`CheckpointState::None`, the state needed to start from offset 0. -/
structure Checkpoint (κ : Type) where
  compressedOffset : Nat
  bitOffset : Nat
  uncompressedOffset : Nat
  state : Option κ
  deriving DecidableEq, Repr

/-- How one decode call can fail: with an error of the code's own, or by a Rust
panic (an index out of bounds, an absent value unwrapped, an overflow). -/
inductive Fault where
  | error (e : Error)
  | panic
  deriving DecidableEq, Repr

/-- A codec: how to create its decompressor, and the decompressor's operations
over the state type `σ`.  `decompress s input room` is given the input slice and
the length of the output buffer. -/
structure Codec (σ κ : Type) where
  create : Except Error σ
  decompress : σ → List Byte → Nat → Except Fault (DecompressResult × σ)
  checkpoint : σ → Nat → Nat → Except Error (Option (Checkpoint κ))
  restore : σ → Checkpoint κ → Except Error σ
  /-- `CheckpointState::estimated_size` of a state other than `None`. -/
  estimatedSize : κ → Nat

namespace Checkpoint

variable {σ κ : Type}

/-- Two u64 offsets, a u8 bit offset and the state. -/
def estimatedSize (codec : Codec σ κ) (cp : Checkpoint κ) : Nat :=
  17 + match cp.state with
    | none => 0
    | some s => codec.estimatedSize s

/-- The offset-0 checkpoint every index starts from. -/
def start : Checkpoint κ :=
  { compressedOffset := 0, bitOffset := 0, uncompressedOffset := 0, state := none }

end Checkpoint
end Iluvatar
