/-
`StreamReader`: decodes an unpacked byte range of a stream, sans-I/O.

The vectors are lists: `outputBuf` is `output_buf[..output_len]`, so its length is
`output_len`, and `inputBuf` is the whole input buffer.  `skip_buf` is scratch
and lives inside one decode call.
-/
import Iluvatar.Stream.Index
import Iluvatar.Library.Loop

namespace Iluvatar

variable {σ κ : Type}

namespace StreamReader

inductive State where
  | seekToCheckpoint
  | skipping (remaining : Nat)
  | emitting (remaining : Nat)
  | needInputSkipping (remaining : Nat)
  | needInputEmitting (remaining : Nat)
  | done
  deriving DecidableEq, Repr

end StreamReader

structure StreamReader (σ κ : Type) where
  codec : Codec σ κ
  decompressor : σ
  checkpoint : Checkpoint κ
  targetOffset : Nat
  targetLen : Nat
  state : StreamReader.State
  outputBuf : List Byte
  outputRead : Nat
  rangeLeft : Nat
  inputBuf : List Byte
  inputPos : Nat
  compressedPos : Nat
  unpackedPos : Nat
  eof : Bool
  streamEnded : Bool
  started : Bool
  unpackedLen : Option Nat
  requireFull : Bool

namespace StreamReader

/-- Cut `offset..offset + len` to a stream of `unpackedLen` bytes. -/
def clampLen (unpackedLen : Option Nat) (offset len : Nat) : Nat :=
  match unpackedLen with
  | some total => min len (total - offset)
  | none => len

/-- `StreamReader::new`.  `best_checkpoint_for_offset` panics on an empty table,
which the index never is. -/
def new (index : StreamIndex σ κ) (offset len : Nat) : Except Fault (StreamReader σ κ) :=
  match index.codec.create with
  | .error e => .error (.error e)
  | .ok decompressor =>
    match index.bestCheckpointForOffset offset with
    | none => .error .panic
    | some (_, checkpoint) =>
      let len := clampLen index.unpackedLen offset len
      .ok
        { codec := index.codec
          decompressor
          checkpoint
          targetOffset := offset
          targetLen := len
          state := if len = 0 then .done else .seekToCheckpoint
          outputBuf := []
          outputRead := 0
          rangeLeft := len
          inputBuf := []
          inputPos := 0
          compressedPos := checkpoint.compressedOffset
          unpackedPos := 0
          eof := false
          streamEnded := false
          started := false
          unpackedLen := index.unpackedLen
          requireFull := index.unpackedLen.isSome }

/-- Treat any range as known to exist, even without a known stream length. -/
def requireFullRange (r : StreamReader σ κ) : StreamReader σ κ :=
  { r with requireFull := true }

/-- Decoded bytes not yet handed out. -/
def buffered (r : StreamReader σ κ) : List Byte := r.outputBuf.drop r.outputRead

/-- Provided bytes the decompressor has not taken yet. -/
def inputLeft (r : StreamReader σ κ) : List Byte := r.inputBuf.drop r.inputPos

/-- Decoded bytes the caller may take right now. -/
def serveable (r : StreamReader σ κ) : Nat :=
  min (r.outputBuf.length - r.outputRead) r.rangeLeft

/-- Unpacked position of the next byte `readOutput` would return. -/
def position (r : StreamReader σ κ) : Nat :=
  if r.started then r.unpackedPos - (r.outputBuf.length - r.outputRead) else r.targetOffset

/-- Packed offset the next `needInput` should be answered from. -/
def compressedPosition (r : StreamReader σ κ) : Nat := r.compressedPos

/-- Retarget a live reader at `offset..offset + len`. -/
def seekForward (r : StreamReader σ κ) (offset len : Nat) : Except Error (StreamReader σ κ) :=
  if !r.started then
    if offset < r.targetOffset then
      .error (.invalidState ("seek_forward to " ++ toString offset ++
        " before the reader's start " ++ toString r.targetOffset))
    else
      let len := clampLen r.unpackedLen offset len
      .ok { r with
        targetOffset := offset
        targetLen := len
        rangeLeft := len
        state := if len = 0 then .done else .seekToCheckpoint }
  else
    let position := r.position
    if offset < position then
      .error (.invalidState ("seek_forward to " ++ toString offset ++
        " behind position " ++ toString position))
    else
      -- Buffered output before the new offset is dropped; the rest serves the range.
      let buffered := r.outputBuf.length - r.outputRead
      let drop := min (offset - position) buffered
      let outputRead := r.outputRead + drop
      let r₁ :=
        if outputRead = r.outputBuf.length then { r with outputBuf := [], outputRead := 0 }
        else { r with outputRead := outputRead }
      let beyond := offset - position - drop
      let len := clampLen r.unpackedLen offset len
      let r₂ := { r₁ with targetOffset := offset, targetLen := len, rangeLeft := len }
      let remaining := len - r₂.serveable
      .ok { r₂ with
        state :=
          if remaining = 0 ∨ r.streamEnded = true then .done
          else if 0 < beyond then .skipping beyond
          else .emitting remaining }

/-- The bookkeeping of one decode call: the decompressor, the input taken, the bytes made. -/
def advance (r : StreamReader σ κ) (result : DecompressResult) (d : σ) : StreamReader σ κ :=
  { r with
    decompressor := d
    inputPos := r.inputPos + result.bytesConsumed
    unpackedPos := r.unpackedPos + result.bytesProduced }

/-- Common tail for a decode step that produced nothing for the caller. -/
def afterDecode (r : StreamReader σ κ) (result : DecompressResult) (hadInput : Bool) :
    Option EngineRequest × StreamReader σ κ :=
  if result.status = .streamEnd ∧ hadInput = true then
    (some .done, { r with streamEnded := true, state := .done })
  else if r.inputBuf.length ≤ r.inputPos then
    if r.eof then
      if result.bytesConsumed = 0 ∧ result.bytesProduced = 0 then
        -- Nothing left to give but no end of stream: cut short, or an empty file.
        if 0 < r.compressedPos ∧ result.status ≠ .streamEnd then
          (some (.error (.error .truncatedInput)), r)
        else
          (some .done, { r with streamEnded := true, state := .done })
      else
        (some .needInput, r)
    else
      match r.state with
      | .skipping remaining =>
        (some .needInput, { r with state := .needInputSkipping remaining })
      | .emitting remaining =>
        (some .needInput, { r with state := .needInputEmitting remaining })
      | _ => (some .needInput, r)
  else if result.bytesConsumed = 0 ∧ result.bytesProduced = 0 then
    (some (.error (.error (.decompressionError
      "decompressor made no progress with input remaining"))), r)
  else
    (none, r)

def skip (r : StreamReader σ κ) (remaining : Nat) : Option EngineRequest × StreamReader σ κ :=
  let input := r.inputLeft
  let hadInput := !input.isEmpty
  if !hadInput && !r.eof then
    (some .needInput, { r with state := .needInputSkipping remaining })
  else
    match r.codec.decompress r.decompressor input bufSize with
    | .error e => (some (.error e), r)
    | .ok (result, d) =>
      let r₁ := r.advance result d
      if remaining < result.bytesProduced then
        -- Overshot into the range: everything past the target is kept.
        let kept := result.produced.drop remaining
        let left := r.targetLen - kept.length
        let r₂ := { r₁ with
          outputBuf := kept
          outputRead := 0
          state := if left = 0 then .done else .emitting left }
        let r₃ :=
          if result.status = .streamEnd then { r₂ with streamEnded := true, state := .done }
          else r₂
        (some .outputReady, r₃)
      else
        let left := remaining - result.bytesProduced
        let r₂ := { r₁ with
          state := if left = 0 then .emitting r.targetLen else .skipping left }
        r₂.afterDecode result hadInput

def emit (r : StreamReader σ κ) (remaining : Nat) : Option EngineRequest × StreamReader σ κ :=
  let input := r.inputLeft
  let hadInput := !input.isEmpty
  if !hadInput && !r.eof then
    (some .needInput, { r with state := .needInputEmitting remaining })
  else
    let maxOutput := min remaining bufSize
    match r.codec.decompress r.decompressor input maxOutput with
    | .error e => (some (.error e), r)
    | .ok (result, d) =>
      let r₁ := r.advance result d
      if 0 < result.bytesProduced then
        let left := remaining - result.bytesProduced
        let r₂ := { r₁ with
          outputBuf := result.produced
          outputRead := 0
          state := if left = 0 then .done else .emitting left }
        let r₃ :=
          if result.status = .streamEnd then { r₂ with streamEnded := true, state := .done }
          else r₂
        (some .outputReady, r₃)
      else
        let r₂ := { r₁ with state := .emitting remaining }
        r₂.afterDecode result hadInput

def stepOnce (r : StreamReader σ κ) : Option EngineRequest × StreamReader σ κ :=
  if 0 < r.serveable then (some .outputReady, r)
  else
    match r.state with
    | .seekToCheckpoint =>
      match r.codec.restore r.decompressor r.checkpoint with
      | .error e => (some (.error (.error e)), r)
      | .ok d =>
        let compressedStart := r.checkpoint.compressedOffset
        let unpackedPos := r.checkpoint.uncompressedOffset
        let skip := r.targetOffset - unpackedPos
        (some (.seekAndRead compressedStart bufSize),
          { r with
            decompressor := d
            started := true
            compressedPos := compressedStart
            unpackedPos
            state :=
              if 0 < skip then .needInputSkipping skip else .needInputEmitting r.targetLen })
    | .needInputSkipping remaining =>
      if r.eof then { r with state := .skipping remaining }.skip remaining
      else (some .needInput, r)
    | .needInputEmitting remaining =>
      if r.eof then { r with state := .emitting remaining }.emit remaining
      else (some .needInput, r)
    | .skipping remaining => r.skip remaining
    | .emitting remaining => r.emit remaining
    | .done => (some .done, r)

/-- Drive the reader: what it needs next.  `fuel` bounds the silent rounds of the
source's loop. -/
def step (fuel : Nat) (r : StreamReader σ κ) : Option (EngineRequest × StreamReader σ κ) :=
  (Sansio.untilSome stepOnce fuel r).map fun (request, r') =>
    -- Everything decoded has been served by the time `done` is reported.
    if request = .done ∧ 0 < r'.rangeLeft ∧ r'.requireFull = true then
      (.error (.error .truncatedInput), r')
    else (request, r')

/-- Provide compressed data after `needInput` or `seekAndRead`. -/
def provideData (r : StreamReader σ κ) (data : List Byte) : StreamReader σ κ :=
  { r with
    inputBuf := data
    inputPos := 0
    compressedPos := r.compressedPos + data.length
    state :=
      match r.state with
      | .needInputSkipping remaining => .skipping remaining
      | .needInputEmitting remaining => .emitting remaining
      | state => state }

/-- The compressed stream has no more bytes. -/
def signalEof (r : StreamReader σ κ) : StreamReader σ κ := { r with eof := true }

/-- Take decoded bytes after `outputReady` into a buffer of `len` bytes. -/
def readOutput (r : StreamReader σ κ) (len : Nat) : List Byte × StreamReader σ κ :=
  let n := min r.serveable len
  if n = 0 then ([], r)
  else
    let out := (r.outputBuf.drop r.outputRead).take n
    let outputRead := r.outputRead + n
    let rangeLeft := r.rangeLeft - n
    if r.outputBuf.length ≤ outputRead then
      (out, { r with outputBuf := [], outputRead := 0, rangeLeft })
    else
      (out, { r with outputRead, rangeLeft })

end StreamReader
end Iluvatar
