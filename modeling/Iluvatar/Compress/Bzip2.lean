/-
Bzip2, with block-boundary checkpoints.

The compressed bits are scanned for the 48-bit block magic.  A checkpoint is a block's
first bit; restoring it feeds a fresh decoder the stream header again and then the stream
shifted to the block.  The decoder itself is the bzip2 library, a parameter here.
-/
import Iluvatar.Compress.Decompressor
import Iluvatar.Library.Loop

namespace Iluvatar

/-- Block start magic: pi in BCD. -/
def blockMagic : Nat := 0x314159265359
/-- End-of-stream magic: sqrt(pi) in BCD. -/
def eosMagic : Nat := 0x177245385090

structure BlockBoundary where
  byteOffset : Nat
  bitOffset : Nat
  blockIndex : Nat
  uncompressedOffset : Nat
  deriving DecidableEq, Repr

/-- A 48-bit window over the bits of the stream. -/
structure MagicScanner where
  window : Nat
  totalBits : Nat
  blockCount : Nat
  lastBoundary : Option BlockBoundary
  eosFound : Bool
  deriving DecidableEq, Repr

namespace MagicScanner

def new : MagicScanner :=
  { window := 0, totalBits := 0, blockCount := 0, lastBoundary := none, eosFound := false }

/-- One bit; the flag is set when it completes a block magic other than block 0's. -/
def scanBit (s : MagicScanner) (bit : Nat) : MagicScanner × Bool :=
  let s := { s with window := (2 * s.window + bit) % 2 ^ 48, totalBits := s.totalBits + 1 }
  if s.totalBits < 48 then (s, false)
  else if s.window = blockMagic then
    let s := { s with blockCount := s.blockCount + 1 }
    if s.blockCount > 1 then
      let startBit := s.totalBits - 48
      ({ s with
          lastBoundary := some
            { byteOffset := startBit / 8, bitOffset := startBit % 8
              blockIndex := s.blockCount - 1, uncompressedOffset := 0 } }, true)
    else (s, false)
  else if s.window = eosMagic then ({ s with eosFound := true }, false)
  else (s, false)

/-- The bits of a byte, the highest first. -/
def bitsOf (byte : Byte) : List Nat :=
  [7, 6, 5, 4, 3, 2, 1, 0].map fun i => byte.toNat / 2 ^ i % 2

def scanByte (s : MagicScanner) (byte : Byte) : MagicScanner × Bool :=
  (bitsOf byte).foldl (fun x bit =>
    let (s, found) := x.1.scanBit bit
    (s, x.2 || found)) (s, false)

/-- Scan bytes, with `totalOut` the unpacked offset of any boundary detected. -/
def feed (s : MagicScanner) (data : List Byte) (totalOut : Nat) : MagicScanner :=
  data.foldl (fun s byte =>
    let (s, found) := s.scanByte byte
    if found then
      { s with lastBoundary := s.lastBoundary.map fun b => { b with uncompressedOffset := totalOut } }
    else s) s

/-- The places in `data`, from place `i` on, of the bytes that complete a boundary. -/
def findBoundaryPositions (s : MagicScanner) : List Byte → Nat → List Nat
  | [], _ => []
  | byte :: data, i =>
    let (s, found) := s.scanByte byte
    if found then i :: findBoundaryPositions { s with lastBoundary := none } data (i + 1)
    else findBoundaryPositions s data (i + 1)

end MagicScanner

/-- Shifts a byte stream left by `bitOffset` bits, holding the last byte back. -/
structure BitShifter where
  bitOffset : Nat
  carry : Byte
  hasCarry : Bool
  deriving DecidableEq, Repr

namespace BitShifter

def new (bitOffset : Nat) : BitShifter := { bitOffset, carry := 0, hasCarry := false }

/-- The bytes shifted out, and the shifter after them. -/
def shift (s : BitShifter) (input : List Byte) : List Byte × BitShifter :=
  if s.bitOffset = 0 then (input, s)
  else
    input.foldl (fun x byte =>
      let s := x.2
      let out :=
        if s.hasCarry then
          x.1 ++ [UInt8.ofNat (s.carry.toNat * 2 ^ s.bitOffset + byte.toNat / 2 ^ (8 - s.bitOffset))]
        else x.1
      (out, { s with carry := byte, hasCarry := true })) ([], s)

/-- The held byte's remaining bits, at the end of input. -/
def flush (s : BitShifter) : List Byte × BitShifter :=
  if s.hasCarry then
    ([UInt8.ofNat (s.carry.toNat * 2 ^ s.bitOffset)], { s with hasCarry := false })
  else ([], s)

end BitShifter

inductive BzStatus where
  | ok | memNeeded | runOk | flushOk | finishOk | streamEnd
  deriving DecidableEq, Repr

/-- One call of the library: what its input and output counts moved by, and its result. -/
structure BzReply where
  consumed : Nat
  produced : List Byte
  result : Except String BzStatus

/-- The bzip2 library's decompressor. -/
structure BzLibrary (ι : Type) where
  new : ι
  decompress : ι → List Byte → Nat → BzReply × ι

structure Bzip2CheckpointState where
  blockNumber : Nat
  streamHeader : List Byte
  deriving DecidableEq, Repr

structure Bzip2Decompressor (ι : Type) where
  inner : ι
  totalIn : Nat
  totalOut : Nat
  streamLevel : Byte
  headerParsed : Bool
  blockCount : Nat
  scanner : MagicScanner
  lastBlockBoundary : Option BlockBoundary
  restoreActive : Bool
  restoreHeader : List Byte
  bitShifter : Option BitShifter
  shiftBuffer : List Byte
  restoreScanner : MagicScanner

namespace Bzip2Decompressor

variable {ι : Type}

def new (lib : BzLibrary ι) : Bzip2Decompressor ι :=
  { inner := lib.new, totalIn := 0, totalOut := 0, streamLevel := 0, headerParsed := false
    blockCount := 0, scanner := MagicScanner.new, lastBlockBoundary := none, restoreActive := false
    restoreHeader := [], bitShifter := none, shiftBuffer := []
    restoreScanner := MagicScanner.new }

def statusOf : BzStatus → DecompressStatus
  | .streamEnd => .streamEnd
  | _ => .continue

/-- The counts after a call of the library. -/
def counted (d : Bzip2Decompressor ι) (reply : BzReply) (inner : ι) : Bzip2Decompressor ι :=
  { d with
    inner
    totalIn := d.totalIn + reply.consumed
    totalOut := d.totalOut + reply.produced.length }

/-- The scanner fed with what the library consumed. -/
def scanned (d : Bzip2Decompressor ι) (taken : List Byte) : Bzip2Decompressor ι :=
  if taken.isEmpty then d
  else
    let scanner := d.scanner.feed taken d.totalOut
    match scanner.lastBoundary with
    | some b =>
      { d with
        scanner := { scanner with lastBoundary := none }
        blockCount := b.blockIndex
        lastBlockBoundary := some b }
    | none => { d with scanner }

/-- A single call of the library, and the scan of what it consumed. -/
def decompressAndScan (lib : BzLibrary ι) (d : Bzip2Decompressor ι) (input : List Byte) (room : Nat) :
    Except Fault (DecompressResult × Bzip2Decompressor ι) :=
  let (reply, inner) := lib.decompress d.inner input room
  match reply.result with
  | .error e => .error (.error (.decompressionError ("bzip2: " ++ e)))
  | .ok status =>
    .ok ({ bytesConsumed := reply.consumed, produced := reply.produced, status := statusOf status },
      (d.counted reply inner).scanned (input.take reply.consumed))

/-- What was consumed and produced so far of a slice. -/
structure Segmented (ι : Type) where
  decoder : Bzip2Decompressor ι
  consumed : Nat
  produced : List Byte
  status : DecompressStatus
  /-- `decompress_any` is to return. -/
  stop : Bool

def Segmented.result (x : Segmented ι) : DecompressResult :=
  { bytesConsumed := x.consumed, produced := x.produced, status := x.status }

/-- The calls for one segment: until it is consumed, the output is full, the stream ended
or the library makes no progress.  Each call takes or makes something, so there are at most
as many as there are bytes to take and room to make. -/
def segment (lib : BzLibrary ι) (seg : List Byte) (room : Nat) :
    Nat → Segmented ι → Nat → Except Fault (Segmented ι × Nat)
  | 0, _, _ => .error .panic
  | fuel + 1, x, segConsumed =>
    if segConsumed < seg.length then
      if room ≤ x.produced.length then .ok ({ x with stop := true }, segConsumed)
      else
        match x.decoder.decompressAndScan lib (seg.drop segConsumed) (room - x.produced.length) with
        | .error f => .error f
        | .ok (r, decoder) =>
          let x := { x with decoder, produced := x.produced ++ r.produced }
          let segConsumed := segConsumed + r.bytesConsumed
          if r.status = .streamEnd then .ok ({ x with status := .streamEnd }, segConsumed)
          else if r.bytesConsumed = 0 ∧ r.bytesProduced = 0 then .ok ({ x with stop := true }, segConsumed)
          else segment lib seg room fuel x segConsumed
    else .ok (x, segConsumed)

/-- The segments of a slice, each given by its start and end; all but the last end on a
block magic, where the call returns so that the boundary can be checkpointed. -/
def segments (lib : BzLibrary ι) (input : List Byte) (room : Nat) :
    List (Nat × Nat) → Segmented ι → Except Fault (Segmented ι)
  | [], x => .ok x
  | (start, stop) :: rest, x =>
    if input.length ≤ start ∨ stop ≤ start then .ok x
    else
      match segment lib ((input.take stop).drop start) room (stop - start + room + 1) x 0 with
      | .error f => .error f
      | .ok (x, segConsumed) =>
        let x := { x with consumed := x.consumed + segConsumed }
        if x.stop || x.status == .streamEnd || !rest.isEmpty then .ok x
        else segments lib input room rest x

/-- The segments that end at the given places, and the remainder of `length` bytes. -/
def bounds (length : Nat) : Nat → List Nat → List (Nat × Nat)
  | start, [] => [(start, length)]
  | start, pos :: rest => (start, pos + 1) :: bounds length (pos + 1) rest

/-- A slice that looks like the stream header. -/
def looksLikeHeader (input : List Byte) : Bool :=
  decide (4 ≤ input.length) && input.take 2 == [66, 90] && input[2]? == some 104

/-- Capture the stream level from the header if not yet parsed. -/
def captureLevel (d : Bzip2Decompressor ι) (input : List Byte) : Bzip2Decompressor ι :=
  if !d.headerParsed && looksLikeHeader input then
    { d with streamLevel := (input[3]?).getD 0, headerParsed := true }
  else d

/-- Feed shifted bytes to the decoder, holding back what it does not take; `consumed` is
the caller's input they account for. -/
def feedRestore (lib : BzLibrary ι) (d : Bzip2Decompressor ι) (feed : List Byte) (consumed room : Nat) :
    Except Fault (DecompressResult × Bzip2Decompressor ι) :=
  let (reply, inner) := lib.decompress d.inner feed room
  let scanner := (feed.take reply.consumed).foldl (fun s byte => (s.scanByte byte).1) d.restoreScanner
  let d :=
    { d with
      inner
      totalOut := d.totalOut + reply.produced.length
      restoreScanner := scanner
      shiftBuffer := if reply.consumed < feed.length then feed.drop reply.consumed else d.shiftBuffer }
  match reply.result with
  | .ok status =>
    .ok ({ bytesConsumed := consumed, produced := reply.produced, status := statusOf status }, d)
  | .error e =>
    if d.restoreScanner.eosFound then
      .ok ({ bytesConsumed := consumed, produced := reply.produced, status := .streamEnd }, d)
    else .error (.error (.decompressionError ("bzip2: " ++ e)))

/-- The shifted bytes for the decoder. -/
def shifted (d : Bzip2Decompressor ι) (input : List Byte) : List Byte × Bzip2Decompressor ι :=
  let feed := d.shiftBuffer
  let d := { d with shiftBuffer := [] }
  match d.bitShifter with
  | none => (feed ++ input, d)
  | some shifter =>
    let (out, shifter) := shifter.shift input
    if input.isEmpty then
      let (last, shifter) := shifter.flush
      (feed ++ out ++ last, { d with bitShifter := some shifter })
    else (feed ++ out, { d with bitShifter := some shifter })

/-- The input after the held bytes. -/
def restoreInput (lib : BzLibrary ι) (d : Bzip2Decompressor ι) (input : List Byte) (room : Nat) :
    Except Fault (DecompressResult × Bzip2Decompressor ι) :=
  let (feed, d) := d.shifted input
  if feed.isEmpty then
    .ok ({ bytesConsumed := input.length, produced := [], status := .continue }, d)
  else d.feedRestore lib feed input.length room

/-- The shifted bytes held from earlier calls go first. -/
def restoreHeld (lib : BzLibrary ι) (d : Bzip2Decompressor ι) (input : List Byte) (room : Nat) :
    Except Fault (DecompressResult × Bzip2Decompressor ι) :=
  if d.shiftBuffer.isEmpty then d.restoreInput lib input room
  else
    match feedRestore lib { d with shiftBuffer := [] } d.shiftBuffer 0 room with
    | .error f => .error f
    | .ok (r, d) =>
      if 0 < r.bytesProduced ∨ r.status = .streamEnd then .ok (r, d)
      else d.restoreInput lib input room

/-- Restore mode: feed the stream header to the fresh decoder, then the shifted input. -/
def decompressRestore (lib : BzLibrary ι) (d : Bzip2Decompressor ι) (input : List Byte) (room : Nat) :
    Except Fault (DecompressResult × Bzip2Decompressor ι) :=
  if d.restoreHeader.isEmpty then d.restoreHeld lib input room
  else
    let (reply, inner) := lib.decompress d.inner d.restoreHeader room
    match reply.result with
    | .error e => .error (.error (.decompressionError ("bzip2 header: " ++ e)))
    | .ok _ =>
      let d := { d with inner, restoreHeader := d.restoreHeader.drop reply.consumed }
      if 0 < reply.produced.length then
        .ok ({ bytesConsumed := 0, produced := reply.produced, status := .continue },
          { d with totalOut := d.totalOut + reply.produced.length })
      else if !d.restoreHeader.isEmpty then
        .ok ({ bytesConsumed := 0, produced := [], status := .continue }, d)
      else d.restoreHeld lib input room

/-- Normal mode: the slice is split where the scanner will find a boundary. -/
def decompressNormal (lib : BzLibrary ι) (d : Bzip2Decompressor ι) (input : List Byte) (room : Nat) :
    Except Fault (DecompressResult × Bzip2Decompressor ι) :=
  let d := d.captureLevel input
  let positions := d.scanner.findBoundaryPositions input 0
  if positions.isEmpty then d.decompressAndScan lib input room
  else
    match segments lib input room (bounds input.length 0 positions)
        { decoder := d, consumed := 0, produced := [], status := .continue, stop := false } with
    | .error f => .error f
    | .ok x => .ok (x.result, x.decoder)

def decompressAny (lib : BzLibrary ι) (d : Bzip2Decompressor ι) (input : List Byte) (room : Nat) :
    Except Fault (DecompressResult × Bzip2Decompressor ι) :=
  if d.restoreActive then d.decompressRestore lib input room else d.decompressNormal lib input room

/-- The library has no notion of the end of input: it just stops.  An empty file is an
empty stream. -/
def decompress (lib : BzLibrary ι) (d : Bzip2Decompressor ι) (input : List Byte) (room : Nat) :
    Except Fault (DecompressResult × Bzip2Decompressor ι) :=
  match d.decompressAny lib input room with
  | .error f => .error f
  | .ok (r, d) =>
    if input.isEmpty ∧ r.bytesProduced = 0 ∧ r.status = .continue ∧ 0 < d.totalIn then
      .error (.error .truncatedInput)
    else .ok (r, d)

def checkpoint (d : Bzip2Decompressor ι) (compressedOffset uncompressedOffset : Nat) :
    Except Error (Option (Checkpoint Bzip2CheckpointState)) :=
  match d.lastBlockBoundary with
  | some boundary =>
    if boundary.uncompressedOffset ≠ uncompressedOffset ∨ compressedOffset < boundary.byteOffset ∨
        8 < compressedOffset - boundary.byteOffset then
      .ok none
    else
      .ok (some
        { compressedOffset := boundary.byteOffset
          bitOffset := boundary.bitOffset
          uncompressedOffset
          state := some
            { blockNumber := boundary.blockIndex, streamHeader := [66, 90, 104, d.streamLevel] } })
  | none =>
    if compressedOffset = 0 ∧ uncompressedOffset = 0 then .ok (some Checkpoint.start) else .ok none

def restore (lib : BzLibrary ι) (d : Bzip2Decompressor ι) (cp : Checkpoint Bzip2CheckpointState) :
    Except Error (Bzip2Decompressor ι) :=
  match cp.state with
  | some s =>
    .ok
      { inner := lib.new
        totalIn := cp.compressedOffset
        totalOut := cp.uncompressedOffset
        blockCount := s.blockNumber
        streamLevel := s.streamHeader.getLast?.getD 0
        headerParsed := true
        restoreActive := true
        restoreHeader := s.streamHeader
        bitShifter := if 0 < cp.bitOffset then some (BitShifter.new cp.bitOffset) else none
        shiftBuffer := []
        restoreScanner := MagicScanner.new
        scanner := MagicScanner.new
        lastBlockBoundary := none }
  | none =>
    .ok
      { d with
        inner := lib.new
        totalIn := 0
        totalOut := 0
        blockCount := 0
        streamLevel := 0
        headerParsed := false
        restoreActive := false
        restoreHeader := []
        bitShifter := none
        shiftBuffer := []
        scanner := MagicScanner.new
        lastBlockBoundary := none }

end Bzip2Decompressor
end Iluvatar
