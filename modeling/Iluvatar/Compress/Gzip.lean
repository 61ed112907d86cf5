/-
Gzip, with checkpoints at deflate block boundaries.

Inflating is the miniz_oxide library's, a parameter here: it is given a slice, the 32 KiB
circular buffer of the last output and the place to write at, and it stops at every block
boundary.  A checkpoint is the library's state at such a boundary and the last output.
-/
import Iluvatar.Compress.Decompressor
import Iluvatar.Library.Buffer

namespace Iluvatar

/-- 32 KiB. -/
def windowSize : Nat := 32768

inductive TinflStatus where
  | done | needsMoreInput | hasMoreOutput | blockBoundary | failedCannotMakeProgress
  | failed (name : String)
  deriving DecidableEq, Repr

/-- One call of the library; `produced` is what it wrote from the given place on. -/
structure InflateReply where
  status : TinflStatus
  consumed : Nat
  produced : List Byte

/-- The miniz_oxide decompressor `ο`, with `β` its block boundary state.  `decompress` is
given the input, the circular buffer, the place to write at and whether more input follows. -/
structure Inflater (ο β : Type) where
  new : ο
  decompress : ο → List Byte → List Byte → Nat → Bool → InflateReply × ο
  blockBoundaryState : ο → Option β
  fromBlockBoundaryState : β → ο

structure GzipCheckpointState (β : Type) where
  window : List Byte
  blockState : Option β
  headerSize : Nat

structure SavedBoundary (β : Type) where
  blockState : β
  window : List Byte
  /-- Offset in the compressed file: the header and the deflate bytes at the boundary. -/
  compressedOffset : Nat
  uncompressedOffset : Nat

inductive GzipHeaderState where
  | readingFixedHeader
  | decompressing
  | trailer (remaining : Nat)
  | finished
  deriving DecidableEq, Repr

def trailerSize : Nat := 8

structure GzipDecompressor (ο β : Type) where
  inner : ο
  dictBuf : List Byte
  dictPos : Nat
  finished : Bool
  stage : List Byte
  stagePos : Nat
  headerState : GzipHeaderState
  headerBuf : List Byte
  headerSize : Nat
  deflateIn : Nat
  totalOut : Nat
  lastBoundary : Option (SavedBoundary β)
  raw : Bool
  replay : List Byte

namespace GzipDecompressor

variable {ο β : Type}

def new (lib : Inflater ο β) : GzipDecompressor ο β :=
  { inner := lib.new, dictBuf := List.replicate windowSize 0, dictPos := 0, finished := false, stage := []
    stagePos := 0, headerState := .readingFixedHeader, headerBuf := [], headerSize := 0
    deflateIn := 0, totalOut := 0, lastBoundary := none, raw := false, replay := [] }

/-- Raw deflate: no gzip framing. -/
def newRaw (lib : Inflater ο β) : GzipDecompressor ο β :=
  { new lib with headerState := .decompressing, raw := true }

/-- The place after the zero-terminated field at `pos`. -/
def skipText (buf : List Byte) (pos : Nat) : Option Nat :=
  ((buf.drop pos).findIdx? (· = 0)).map fun i => pos + i + 1

/-- The place after the extra field at `pos`. -/
def skipExtra (buf : List Byte) (pos : Nat) : Option Nat :=
  match buf[pos]?, buf[pos + 1]? with
  | some low, some high =>
    let stop := pos + 2 + (low.toNat + 256 * high.toNat)
    if buf.length < stop then none else some stop
  | _, _ => none

def skipCrc (buf : List Byte) (pos : Nat) : Option Nat :=
  if buf.length < pos + 2 then none else some (pos + 2)

/-- Apply `skip` where the flag is set. -/
def whenFlag (flags : Byte) (flag : Byte) (skip : Nat → Option Nat) (pos : Nat) : Option Nat :=
  if flags &&& flag ≠ 0 then skip pos else some pos

/-- The header's size, 0 where there is no gzip magic; `none` asks for more data. -/
def tryParseHeader (buf : List Byte) : Option Nat :=
  if buf.length < 10 then none
  else if buf[0]? ≠ some 0x1f ∨ buf[1]? ≠ some 0x8b then some 0
  else
    let flags := (buf[3]?).getD 0
    (whenFlag flags 4 (skipExtra buf) 10).bind fun pos =>
    (whenFlag flags 8 (skipText buf) pos).bind fun pos =>
    (whenFlag flags 16 (skipText buf) pos).bind fun pos =>
    whenFlag flags 2 (skipCrc buf) pos

/-- The window, oldest first. -/
def getWindow (d : GzipDecompressor ο β) : List Byte :=
  if d.dictPos < windowSize then d.dictBuf.take d.dictPos
  else d.dictBuf.drop (d.dictPos % windowSize) ++ d.dictBuf.take (d.dictPos % windowSize)

/-- `count` bytes of output from `oldDictPos` on. -/
def extractOutput (d : GzipDecompressor ο β) (oldDictPos count : Nat) : List Byte :=
  let start := oldDictPos % windowSize
  if start + count ≤ windowSize then Buffer.slice d.dictBuf start count
  else
    let first := windowSize - start
    d.dictBuf.drop start ++ d.dictBuf.take (count - first)

/-- Staged output goes to the caller first. -/
def flushStage (d : GzipDecompressor ο β) (room : Nat) : DecompressResult × GzipDecompressor ο β :=
  let out := (d.stage.drop d.stagePos).take room
  let stagePos := d.stagePos + out.length
  let d := if d.stage.length ≤ stagePos then { d with stage := [], stagePos := 0 } else { d with stagePos }
  ({ bytesConsumed := 0, produced := out
     status := if d.finished && d.stage.isEmpty then .streamEnd else .continue }, d)

/-- The boundary saved where the library stopped at one. -/
def saveBoundary (lib : Inflater ο β) (d : GzipDecompressor ο β) (status : TinflStatus) :
    GzipDecompressor ο β :=
  if status = .blockBoundary then
    match lib.blockBoundaryState d.inner with
    | some blockState =>
      { d with
        lastBoundary := some
          { blockState, window := d.getWindow
            compressedOffset := d.headerSize + d.deflateIn
            uncompressedOffset := d.totalOut } }
    | none => d
  else d

/-- One call of the library, with the buffer and the counts after it. -/
def doInflate (lib : Inflater ο β) (d : GzipDecompressor ο β) (input : List Byte)
    (hasMoreInput : Bool) : InflateReply × GzipDecompressor ο β :=
  let writePos := d.dictPos % windowSize
  let (reply, inner) :=
    lib.decompress d.inner input d.dictBuf writePos (!input.isEmpty || hasMoreInput)
  let d :=
    { d with
      inner
      dictBuf := Buffer.splice d.dictBuf writePos reply.produced
      dictPos := d.dictPos + reply.produced.length
      totalOut := d.totalOut + reply.produced.length
      deflateIn := d.deflateIn + reply.consumed }
  (reply, d.saveBoundary lib reply.status)

/-- What does not fit the caller's buffer is staged. -/
def staged (d : GzipDecompressor ο β) (extracted : List Byte) (room : Nat) : GzipDecompressor ο β :=
  if room < extracted.length then { d with stage := extracted.drop room, stagePos := 0 } else d

/-- What the library's status means for the decoder, with `given` the caller's output. -/
def settle (d : GzipDecompressor ο β) (reply : InflateReply) (given : List Byte) :
    Except Fault (DecompressResult × GzipDecompressor ο β) :=
  let result (status : DecompressStatus) : DecompressResult :=
    { bytesConsumed := reply.consumed, produced := given, status }
  match reply.status with
  | .done =>
    -- a parsed header means a trailer must still arrive; raw deflate ends here
    if !d.raw && decide (0 < d.headerSize) then
      .ok (result .continue, { d with headerState := .trailer trailerSize })
    else
      .ok (result (if d.stage.isEmpty then .streamEnd else .continue),
        { d with finished := true, headerState := .finished })
  | .needsMoreInput | .hasMoreOutput | .blockBoundary => .ok (result .continue, d)
  | .failedCannotMakeProgress => .error (.error .truncatedInput)
  | .failed name => .error (.error (.decompressionError ("inflate error: " ++ name)))

def inflateToOutput (lib : Inflater ο β) (d : GzipDecompressor ο β) (input : List Byte)
    (hasMoreInput : Bool) (room : Nat) : Except Fault (DecompressResult × GzipDecompressor ο β) :=
  let called := d.doInflate lib input hasMoreInput
  let extracted := called.2.extractOutput d.dictPos called.1.produced.length
  (called.2.staged extracted room).settle called.1 (extracted.take room)

/-- Inflate from `replay`, reporting `consumed` caller bytes. -/
def inflateReplay (lib : Inflater ο β) (d : GzipDecompressor ο β) (consumed : Nat)
    (hasMoreInput : Bool) (room : Nat) : Except Fault (DecompressResult × GzipDecompressor ο β) :=
  match { d with replay := [] }.inflateToOutput lib d.replay hasMoreInput room with
  | .error f => .error f
  | .ok (r, d') =>
    .ok ({ r with bytesConsumed := consumed }, { d' with replay := d.replay.drop r.bytesConsumed })

/-- The rest of the slice that completes the header. -/
def afterHeader (lib : Inflater ο β) (d : GzipDecompressor ο β) (headerSize : Nat) (input : List Byte)
    (room : Nat) : Except Fault (DecompressResult × GzipDecompressor ο β) :=
  let fromInput := headerSize - d.headerBuf.length
  let d := { d with headerState := .decompressing, headerSize, headerBuf := [] }
  if (input.drop fromInput).isEmpty then
    .ok ({ bytesConsumed := fromInput, produced := [], status := .continue }, d)
  else
    match d.inflateToOutput lib (input.drop fromInput) true room with
    | .error f => .error f
    | .ok (r, d) => .ok ({ r with bytesConsumed := fromInput + r.bytesConsumed }, d)

/-- The slice while the header is not parsed yet. -/
def readHeader (lib : Inflater ο β) (d : GzipDecompressor ο β) (input : List Byte) (room : Nat) :
    Except Fault (DecompressResult × GzipDecompressor ο β) :=
  if input.isEmpty then
    if !d.headerBuf.isEmpty then .error (.error .truncatedInput)
    else .ok ({ bytesConsumed := 0, produced := [], status := .streamEnd }, d)
  else
    let headerBuf := d.headerBuf ++ input
    match tryParseHeader headerBuf with
    | some 0 =>
      -- no gzip magic: raw deflate, starting with the bytes held so far
      { d with headerState := .decompressing, headerSize := 0, replay := headerBuf, headerBuf := [] }.inflateReplay
        lib input.length true room
    | some headerSize => d.afterHeader lib headerSize input room
    | none =>
      .ok ({ bytesConsumed := input.length, produced := [], status := .continue }, { d with headerBuf })

/-- The bytes held go first, so they never pile up. -/
def replayHeld (lib : Inflater ο β) (d : GzipDecompressor ο β) (input : List Byte) (room : Nat) :
    Except Fault (DecompressResult × GzipDecompressor ο β) :=
  match d.inflateReplay lib 0 true room with
  | .error f => .error f
  | .ok (held, d) =>
    if 0 < held.bytesProduced ∨ d.headerState ≠ .decompressing then .ok (held, d)
    else if d.replay.isEmpty then d.inflateToOutput lib input (!input.isEmpty) room
    else
      { d with replay := d.replay ++ input }.inflateReplay lib input.length (!input.isEmpty) room

/-- The trailer is skipped, not verified. -/
def readTrailer (d : GzipDecompressor ο β) (remaining : Nat) (input : List Byte) :
    Except Fault (DecompressResult × GzipDecompressor ο β) :=
  if input.isEmpty then .error (.error .truncatedInput)
  else
    let take := min remaining input.length
    if remaining - take = 0 then
      .ok ({ bytesConsumed := take, produced := [], status := .streamEnd },
        { d with finished := true, headerState := .finished })
    else
      .ok ({ bytesConsumed := take, produced := [], status := .continue },
        { d with headerState := .trailer (remaining - take) })

def decompress (lib : Inflater ο β) (d : GzipDecompressor ο β) (input : List Byte) (room : Nat) :
    Except Fault (DecompressResult × GzipDecompressor ο β) :=
  if d.stagePos < d.stage.length then .ok (d.flushStage room)
  else
    match d.headerState with
    | .readingFixedHeader => d.readHeader lib input room
    | .decompressing =>
      if d.replay.isEmpty then d.inflateToOutput lib input (!input.isEmpty) room
      else d.replayHeld lib input room
    | .trailer remaining => d.readTrailer remaining input
    | .finished => .ok ({ bytesConsumed := 0, produced := [], status := .streamEnd }, d)

/-- Inflate stops on each boundary, so one is "now" exactly when nothing has been taken or
made since it.  No checkpoint while output is staged or input is held. -/
def checkpoint (d : GzipDecompressor ο β) (compressedOffset uncompressedOffset : Nat) :
    Except Error (Option (Checkpoint (GzipCheckpointState β))) :=
  if d.stagePos < d.stage.length ∨ ¬ d.replay.isEmpty then .ok none
  else
    match d.lastBoundary with
    | some boundary =>
      if boundary.uncompressedOffset ≠ uncompressedOffset ∨
          boundary.compressedOffset ≠ compressedOffset then .ok none
      else
        .ok (some
          { compressedOffset, uncompressedOffset, bitOffset := 0
            state := some
              { window := boundary.window, blockState := some boundary.blockState
                headerSize := d.headerSize } })
    | none =>
      if compressedOffset = 0 ∧ uncompressedOffset = 0 then .ok (some Checkpoint.start) else .ok none

def reset (lib : Inflater ο β) (d : GzipDecompressor ο β) : GzipDecompressor ο β :=
  { d with
    inner := lib.new
    dictBuf := List.replicate windowSize 0
    dictPos := 0
    finished := false
    stage := []
    stagePos := 0
    headerState := if d.raw then .decompressing else .readingFixedHeader
    headerBuf := []
    headerSize := 0
    replay := []
    deflateIn := 0
    totalOut := 0
    lastBoundary := none }

def restore (lib : Inflater ο β) (d : GzipDecompressor ο β)
    (cp : Checkpoint (GzipCheckpointState β)) : Except Error (GzipDecompressor ο β) :=
  match cp.state with
  | some state =>
    match state.blockState with
    | some blockState =>
      let window := state.window.take windowSize
      .ok
        { d with
          inner := lib.fromBlockBoundaryState blockState
          dictBuf := window ++ List.replicate (windowSize - window.length) 0
          dictPos := window.length
          headerState := .decompressing
          headerSize := state.headerSize
          headerBuf := []
          replay := []
          stage := []
          stagePos := 0
          deflateIn := 0
          totalOut := cp.uncompressedOffset
          lastBoundary := none
          finished := false }
    | none => .ok (d.reset lib)
  | none => .ok (d.reset lib)

end GzipDecompressor
end Iluvatar
