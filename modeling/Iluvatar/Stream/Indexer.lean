/-
`StreamIndexer`: lays checkpoints over one compressed stream, sans-I/O.

`outBuf` is `out_buf[..out_len]`, so its length is `out_len`.  A strategy is the
three trait methods over a state of its own.
-/
import Iluvatar.Stream.Index
import Iluvatar.Library.Loop

namespace Iluvatar

variable {σ κ τ : Type}

/-- Information available when making a checkpoint decision. -/
structure CheckpointContext where
  uncompressedPos : Nat
  compressedPos : Nat
  lastCheckpointUncompressedPos : Nat
  checkpointCount : Nat
  totalCheckpointDataBytes : Nat
  archiveSize : Nat
  deriving DecidableEq, Repr

/-- When to take checkpoints, and when to thin them. -/
structure CheckpointStrategy (τ : Type) where
  shouldCheckpoint : τ → CheckpointContext → Bool × τ
  onCheckpointCreated : τ → CheckpointContext → Nat → τ
  shouldThin : τ → CheckpointContext → Bool × τ

/-- `FixedInterval`: a checkpoint every `interval` bytes, never thinned. -/
def CheckpointStrategy.fixedInterval : CheckpointStrategy Nat where
  shouldCheckpoint interval ctx :=
    (decide (interval ≤ ctx.uncompressedPos - ctx.lastCheckpointUncompressedPos), interval)
  onCheckpointCreated interval _ _ := interval
  shouldThin interval _ := (false, interval)

namespace StreamIndexer

inductive State where
  | needInput
  | seek (offset : Nat)
  | processing
  | done
  deriving DecidableEq, Repr

end StreamIndexer

structure StreamIndexer (σ κ τ : Type) where
  decompressor : σ
  index : StreamIndex σ κ
  strategy : τ
  state : StreamIndexer.State
  compressedPos : Nat
  unpackedPos : Nat
  lastCheckpointPos : Nat
  checkpointDataBytes : Nat
  stopAt : Option Nat
  emitOutput : Bool
  inputBuf : List Byte
  inputPos : Nat
  eof : Bool
  outBuf : List Byte
  outRead : Nat

namespace StreamIndexer

def withParts (decompressor : σ) (index : StreamIndex σ κ) (strategy : τ) (state : State)
    (compressedPos unpackedPos : Nat) : StreamIndexer σ κ τ :=
  { decompressor
    index
    strategy
    state
    compressedPos
    unpackedPos
    lastCheckpointPos := unpackedPos
    checkpointDataBytes := index.checkpointDataBytes
    stopAt := none
    emitOutput := false
    inputBuf := []
    inputPos := 0
    eof := false
    outBuf := []
    outRead := 0 }

/-- Index a stream from its start. -/
def new (codec : Codec σ κ) (strategy : τ) (compressedLen : Option Nat) :
    Except Error (StreamIndexer σ κ τ) :=
  match codec.create with
  | .error e => .error e
  | .ok decompressor =>
    .ok (withParts decompressor (StreamIndex.new codec compressedLen) strategy .needInput 0 0)

/-- Continue an existing index from its last checkpoint. -/
def resume (index : StreamIndex σ κ) (strategy : τ) : Except Fault (StreamIndexer σ κ τ) :=
  if index.complete then
    .error (.error (.invalidState "stream index is already complete"))
  else
    match index.codec.create with
    | .error e => .error (.error e)
    | .ok decompressor =>
      match index.lastCheckpoint with
      | none => .error .panic
      | some cp =>
        match index.codec.restore decompressor cp with
        | .error e => .error (.error e)
        | .ok decompressor =>
          let state := if cp.compressedOffset = 0 then .needInput else .seek cp.compressedOffset
          .ok (withParts decompressor index strategy state cp.compressedOffset
            cp.uncompressedOffset)

/-- `emit_output`: hand decoded bytes to the caller instead of discarding them. -/
def setEmitOutput (x : StreamIndexer σ κ τ) (emit : Bool) : StreamIndexer σ κ τ :=
  { x with emitOutput := emit }

/-- `stop_at`: stop once decoding has reached or passed this unpacked offset. -/
def setStopAt (x : StreamIndexer σ κ τ) (unpackedOffset : Nat) : StreamIndexer σ κ τ :=
  { x with stopAt := some unpackedOffset }

/-- Decoded bytes not yet handed out. -/
def pending (x : StreamIndexer σ κ τ) : List Byte := x.outBuf.drop x.outRead

/-- Provided bytes the decompressor has not taken yet. -/
def inputLeft (x : StreamIndexer σ κ τ) : List Byte := x.inputBuf.drop x.inputPos

def context (x : StreamIndexer σ κ τ) : CheckpointContext :=
  { uncompressedPos := x.unpackedPos
    compressedPos := x.compressedPos
    lastCheckpointUncompressedPos := x.lastCheckpointPos
    checkpointCount := x.index.checkpoints.length
    totalCheckpointDataBytes := x.checkpointDataBytes
    archiveSize := x.index.compressedLen.getD 0 }

end StreamIndexer

namespace StreamIndex

theorem keepAt_length_le (n : Nat) : ∀ (i : Nat) (cps : List (Checkpoint κ)),
    (keepAt n i cps).length ≤ cps.length := by
  intro i cps
  induction cps generalizing i with
  | nil => exact Nat.le_refl _
  | cons cp cps ih =>
    have := ih (i + 1)
    rw [keepAt]
    split
    · rw [List.length_cons, List.length_cons]
      omega
    · rw [List.length_cons]
      omega

/-- Thinning drops something or says it did not. -/
theorem thin_length_lt (index : StreamIndex σ κ) (h : index.thin.1 = true) :
    index.thin.2.checkpoints.length < index.checkpoints.length := by
  match hcps : index.checkpoints with
  | [] => simp [thin, hcps] at h
  | [_] => simp [thin, hcps] at h
  | [_, _] => simp [thin, hcps]
  | cp₀ :: cp₁ :: cp₂ :: cps =>
    have hkeep : keepAt (cps.length + 3) 0 (cp₀ :: cp₁ :: cp₂ :: cps) =
        cp₀ :: keepAt (cps.length + 3) 2 (cp₂ :: cps) := by
      rw [keepAt, if_pos (.inl rfl), keepAt, if_neg (by omega)]
    have hle := keepAt_length_le (cps.length + 3) 2 (cp₂ :: cps)
    have hthin : index.thin.2.checkpoints =
        keepAt (cps.length + 3) 0 (cp₀ :: cp₁ :: cp₂ :: cps) := by
      simp [thin, hcps]
    rw [hthin, hkeep, List.length_cons, List.length_cons]
    simp only [List.length_cons] at hle ⊢
    omega

end StreamIndex

namespace StreamIndexer

/-- The loop that thins while the strategy asks. -/
def thinWhile (impl : CheckpointStrategy τ) (x : StreamIndexer σ κ τ) :
    Except Fault (StreamIndexer σ κ τ) :=
  let (ask, strategy) := impl.shouldThin x.strategy x.context
  if ask then
    if h : x.index.thin.1 = true then
      have := StreamIndex.thin_length_lt x.index h
      let index := x.index.thin.2
      match index.lastCheckpoint with
      | none => .error .panic
      | some cp =>
        thinWhile impl { x with
          strategy
          index
          checkpointDataBytes := index.checkpointDataBytes
          lastCheckpointPos := cp.uncompressedOffset }
    else .ok { x with strategy }
  else .ok { x with strategy }
termination_by x.index.checkpoints.length

/-- Lay a checkpoint at the current position if the codec can, then thin while the
strategy asks. -/
def tryCheckpoint (impl : CheckpointStrategy τ) (notify : Bool) (x : StreamIndexer σ κ τ) :
    Except Fault (StreamIndexer σ κ τ) :=
  match x.index.lastCheckpoint with
  | none => .error .panic
  | some last =>
    if x.unpackedPos = x.lastCheckpointPos ∧ last.uncompressedOffset = x.unpackedPos then .ok x
    else
      match x.index.codec.checkpoint x.decompressor x.compressedPos x.unpackedPos with
      | .error e => .error (.error e)
      | .ok none => .ok x
      | .ok (some cp) =>
        let size := cp.estimatedSize x.index.codec
        let x₁ := { x with
          checkpointDataBytes := x.checkpointDataBytes + size
          index := { x.index with checkpoints := x.index.checkpoints ++ [cp] }
          lastCheckpointPos := x.unpackedPos }
        let x₂ :=
          if notify then
            { x₁ with strategy := impl.onCheckpointCreated x₁.strategy x₁.context size }
          else x₁
        thinWhile impl x₂

/-- The bookkeeping of one decode call. -/
def advance (x : StreamIndexer σ κ τ) (result : DecompressResult) (d : σ) :
    StreamIndexer σ κ τ :=
  { x with
    decompressor := d
    inputPos := x.inputPos + result.bytesConsumed
    compressedPos := x.compressedPos + result.bytesConsumed
    unpackedPos := x.unpackedPos + result.bytesProduced }

/-- Checkpoint and emit the bytes of a decode call that no earlier pass covered.
`before` is the position the call started from. -/
def cover (impl : CheckpointStrategy τ) (before : Nat) (result : DecompressResult)
    (x : StreamIndexer σ κ τ) : Except Fault (StreamIndexer σ κ τ) :=
  if x.index.indexedTo < x.unpackedPos then
    let covered : Except Fault (StreamIndexer σ κ τ) :=
      if 0 < result.bytesProduced then
        let (ask, strategy) := impl.shouldCheckpoint x.strategy x.context
        let laid := if ask then tryCheckpoint impl true { x with strategy } else .ok { x with strategy }
        laid.map fun x₁ =>
          if x₁.emitOutput then
            { x₁ with outBuf := result.produced, outRead := x₁.index.indexedTo - before }
          else x₁
      else .ok x
    covered.map fun x₁ => { x₁ with index := { x₁.index with indexedTo := x₁.unpackedPos } }
  else .ok x

/-- The indexer when a checkpoint failed: the strategy was asked for it all the same. -/
def asked (impl : CheckpointStrategy τ) (result : DecompressResult) (x : StreamIndexer σ κ τ) :
    StreamIndexer σ κ τ :=
  if x.index.indexedTo < x.unpackedPos ∧ 0 < result.bytesProduced then
    { x with strategy := (impl.shouldCheckpoint x.strategy x.context).2 }
  else x

/-- What a decode call leads to once its bytes are covered. -/
def conclude (impl : CheckpointStrategy τ) (result : DecompressResult) (hadInput : Bool)
    (x : StreamIndexer σ κ τ) : Option EngineRequest × StreamIndexer σ κ τ :=
  let stopped := x.stopAt.any fun stop => decide (stop ≤ x.unpackedPos)
  let idleAtEof := !hadInput && result.bytesConsumed == 0 && result.bytesProduced == 0
  if idleAtEof = true ∧ result.status ≠ .streamEnd ∧ 0 < x.compressedPos then
    (some (.error (.error .truncatedInput)), x)
  else if result.status = .streamEnd ∨ idleAtEof = true then
    let x₁ := { x with
      index := { x.index with complete := true, unpackedLen := some x.unpackedPos }
      state := .done }
    (some (if x₁.outRead < x₁.outBuf.length then .outputReady else .done), x₁)
  else if stopped = true then
    match tryCheckpoint impl false x with
    | .error f => (some (.error f), x)
    | .ok x₁ =>
      let x₂ := { x₁ with state := .done }
      (some (if x₂.outRead < x₂.outBuf.length then .outputReady else .done), x₂)
  else if x.outRead < x.outBuf.length then (some .outputReady, x)
  else if x.inputBuf.length ≤ x.inputPos then
    if x.eof then (some .needInput, x) else (some .needInput, { x with state := .needInput })
  else if result.bytesConsumed = 0 ∧ result.bytesProduced = 0 then
    (some (.error (.error (.decompressionError
      "decompressor made no progress with input remaining"))), x)
  else (none, x)

/-- The decoding part of `step_once`. -/
def process (impl : CheckpointStrategy τ) (x : StreamIndexer σ κ τ) :
    Option EngineRequest × StreamIndexer σ κ τ :=
  if x.outRead < x.outBuf.length then (some .outputReady, x)
  else if x.inputBuf.length ≤ x.inputPos ∧ x.eof = false then
    (some .needInput, { x with state := .needInput })
  else
    let input := x.inputLeft
    let hadInput := !input.isEmpty
    match x.index.codec.decompress x.decompressor input bufSize with
    | .error f => (some (.error f), x)
    | .ok (result, d) =>
      match cover impl x.unpackedPos result (x.advance result d) with
      | .error f => (some (.error f), (x.advance result d).asked impl result)
      | .ok x₁ => conclude impl result hadInput x₁

def stepOnce (impl : CheckpointStrategy τ) (x : StreamIndexer σ κ τ) :
    Option EngineRequest × StreamIndexer σ κ τ :=
  match x.state with
  | .done => (some .done, x)
  | .seek offset => (some (.seekAndRead offset bufSize), { x with state := .needInput })
  | .needInput =>
    if x.eof then process impl { x with state := .processing } else (some .needInput, x)
  | .processing => process impl x

/-- Drive the indexer: what it needs next.  `fuel` bounds the silent rounds of the
source's loop. -/
def step (impl : CheckpointStrategy τ) (fuel : Nat) (x : StreamIndexer σ κ τ) :
    Option (EngineRequest × StreamIndexer σ κ τ) :=
  Sansio.untilSome (stepOnce impl) fuel x

/-- Provide compressed data after `needInput` or `seekAndRead`. -/
def provideData (x : StreamIndexer σ κ τ) (data : List Byte) : StreamIndexer σ κ τ :=
  { x with inputBuf := data, inputPos := 0, state := .processing }

/-- The compressed stream has no more bytes. -/
def signalEof (x : StreamIndexer σ κ τ) : StreamIndexer σ κ τ :=
  { x with eof := true, state := .processing }

/-- Take decoded bytes after `outputReady` into a buffer of `len` bytes. -/
def readOutput (x : StreamIndexer σ κ τ) (len : Nat) : List Byte × StreamIndexer σ κ τ :=
  let available := x.outBuf.length - x.outRead
  if available = 0 then ([], x)
  else
    let n := min available len
    let out := (x.outBuf.drop x.outRead).take n
    let outRead := x.outRead + n
    if x.outBuf.length ≤ outRead then (out, { x with outBuf := [], outRead := 0 })
    else (out, { x with outRead })

/-- The index as it stands; the indexer stays usable. -/
def snapshot (x : StreamIndexer σ κ τ) : StreamIndex σ κ := x.index

/-- Consume the indexer. -/
def finish (x : StreamIndexer σ κ τ) : StreamIndex σ κ := x.index

end StreamIndexer
end Iluvatar
