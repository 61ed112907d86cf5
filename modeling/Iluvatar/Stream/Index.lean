/-
The checkpoint table of one compressed stream.
-/
import Iluvatar.Compress.Decompressor
import Mathlib.Data.List.Basic

namespace Iluvatar

variable {σ κ : Type}

/-- Decoded bytes handled per engine step. -/
def bufSize : Nat := 64 * 1024

/-- Requests from an engine to its caller.  `error` also carries a panic that
unwinds out of `step`. -/
inductive EngineRequest where
  | needInput
  | seekAndRead (offset len : Nat)
  | outputReady
  | done
  | error (f : Fault)
  deriving DecidableEq, Repr

/-- Whether a request asks for packed bytes. -/
def EngineRequest.wantsInput : EngineRequest → Bool
  | .needInput => true
  | .seekAndRead _ _ => true
  | _ => false

/-- The checkpoint table of one compressed stream. -/
structure StreamIndex (σ κ : Type) where
  codec : Codec σ κ
  compressedLen : Option Nat
  unpackedLen : Option Nat
  checkpoints : List (Checkpoint κ)
  indexedTo : Nat
  complete : Bool

namespace StreamIndex

/-- An index that knows nothing yet but the start. -/
def new (codec : Codec σ κ) (compressedLen : Option Nat) : StreamIndex σ κ :=
  { codec, compressedLen, unpackedLen := none, checkpoints := [.start], indexedTo := 0,
    complete := false }

/-- `slice::partition_point`: the number of leading elements satisfying `p`, by
the scan that equals the source's binary search on a partitioned slice. -/
def partitionPoint (p : Checkpoint κ → Bool) (cps : List (Checkpoint κ)) : Nat :=
  (cps.takeWhile p).length

/-- The checkpoint with the largest unpacked offset at or before
`unpackedOffset`, and its index.  `none` models the out-of-range index panic of
an empty table. -/
def bestCheckpointForOffset (index : StreamIndex σ κ) (unpackedOffset : Nat) :
    Option (Nat × Checkpoint κ) :=
  let idx := partitionPoint (fun cp => cp.uncompressedOffset ≤ unpackedOffset)
    index.checkpoints - 1
  (index.checkpoints[idx]?).map fun cp => (idx, cp)

/-- The checkpoint furthest into the stream. -/
def lastCheckpoint (index : StreamIndex σ κ) : Option (Checkpoint κ) :=
  index.checkpoints.getLast?

/-- The `retain` closure of `thin`, which keeps every second position and the last. -/
def keepAt (n : Nat) : Nat → List (Checkpoint κ) → List (Checkpoint κ)
  | _, [] => []
  | i, cp :: cps =>
    if i % 2 = 0 ∨ i = n - 1 then cp :: keepAt n (i + 1) cps else keepAt n (i + 1) cps

/-- Drop every other checkpoint between the offset-0 one and the last, keeping
both; with nothing between them, drop the last.  The flag says whether anything
was dropped. -/
def thin (index : StreamIndex σ κ) : Bool × StreamIndex σ κ :=
  match index.checkpoints.length with
  | 0 => (false, index)
  | 1 => (false, index)
  | 2 => (true, { index with checkpoints := index.checkpoints.dropLast })
  | n => (true, { index with checkpoints := keepAt n 0 index.checkpoints })

/-- Estimated bytes of checkpoint state held by this index. -/
def checkpointDataBytes (index : StreamIndex σ κ) : Nat :=
  (index.checkpoints.map (Checkpoint.estimatedSize index.codec)).sum

/-- The table holds the start and is sorted, so every offset has a checkpoint. -/
structure Sorted (index : StreamIndex σ κ) : Prop where
  start : ∃ cp cps, index.checkpoints = cp :: cps ∧ cp.uncompressedOffset = 0
  sorted : index.checkpoints.Pairwise fun a b => a.uncompressedOffset ≤ b.uncompressedOffset

/-- `cp` is the last checkpoint at or before `o` among `cps`, at position `i`. -/
structure IsBest (cps : List (Checkpoint κ)) (o i : Nat) (cp : Checkpoint κ) : Prop where
  get : cps[i]? = some cp
  le : cp.uncompressedOffset ≤ o
  best : ∀ cp' ∈ cps, cp'.uncompressedOffset ≤ o → cp'.uncompressedOffset ≤ cp.uncompressedOffset

theorem isBest_partitionPoint {o : Nat} :
    ∀ (cps : List (Checkpoint κ)) (cp : Checkpoint κ), cp.uncompressedOffset ≤ o →
      (cp :: cps).Pairwise (fun a b => a.uncompressedOffset ≤ b.uncompressedOffset) →
      ∃ best, IsBest (cp :: cps) o
        (partitionPoint (fun cp => cp.uncompressedOffset ≤ o) (cp :: cps) - 1) best := by
  intro cps
  induction cps with
  | nil =>
    intro cp hle _
    refine ⟨cp, ⟨by simp [partitionPoint, hle], hle, ?_⟩⟩
    intro cp' hmem _
    obtain rfl : cp' = cp := by simpa using hmem
    exact Nat.le_refl _
  | cons next cps ih =>
    intro cp hle hsorted
    obtain ⟨hhead, htail⟩ := List.pairwise_cons.mp hsorted
    by_cases hnext : next.uncompressedOffset ≤ o
    · obtain ⟨best, hget, hbest, hmax⟩ := ih next hnext htail
      have hidx : partitionPoint (fun cp => cp.uncompressedOffset ≤ o) (cp :: next :: cps) - 1 =
          (partitionPoint (fun cp => cp.uncompressedOffset ≤ o) (next :: cps) - 1) + 1 := by
        simp [partitionPoint, hle, hnext]
      refine ⟨best, ⟨by rw [hidx, List.getElem?_cons_succ]; exact hget, hbest, ?_⟩⟩
      intro cp' hmem hcp'
      rcases List.mem_cons.mp hmem with rfl | hmem
      · exact Nat.le_trans (hhead next List.mem_cons_self) (hmax next List.mem_cons_self hnext)
      · exact hmax cp' hmem hcp'
    · have hidx : partitionPoint (fun cp => cp.uncompressedOffset ≤ o) (cp :: next :: cps) - 1
          = 0 := by
        simp [partitionPoint, hle, hnext]
      refine ⟨cp, ⟨by rw [hidx]; rfl, hle, ?_⟩⟩
      intro cp' hmem hcp'
      rcases List.mem_cons.mp hmem with rfl | hmem
      · exact Nat.le_refl _
      · rcases List.mem_cons.mp hmem with rfl | hmem
        · exact absurd hcp' hnext
        · have := (List.pairwise_cons.mp htail).1 cp' hmem
          omega

/-- `bestCheckpointForOffset` finds the last checkpoint at or before the offset. -/
theorem bestCheckpointForOffset_isBest {index : StreamIndex σ κ} (h : index.Sorted) (o : Nat) :
    ∃ i cp, index.bestCheckpointForOffset o = some (i, cp) ∧
      IsBest index.checkpoints o i cp := by
  obtain ⟨first, cps, hcps, hzero⟩ := h.start
  have hsorted := h.sorted
  rw [hcps] at hsorted
  obtain ⟨cp, hbest⟩ := isBest_partitionPoint cps first (o := o) (by omega) hsorted
  refine ⟨_, cp, ?_, by rw [hcps]; exact hbest⟩
  simp only [bestCheckpointForOffset, hcps, hbest.get, Option.map_some]

theorem IsBest.mem {cps : List (Checkpoint κ)} {o i : Nat} {cp : Checkpoint κ}
    (h : IsBest cps o i cp) : cp ∈ cps :=
  List.mem_of_getElem? h.get

end StreamIndex
end Iluvatar
