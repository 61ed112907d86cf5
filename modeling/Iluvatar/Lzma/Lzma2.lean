/-
The LZMA2 chunk framing decoder.

LZMA2 wraps LZMA data in chunks, each with a control byte that says what the chunk is.
-/
import Iluvatar.Lzma.Decoder

namespace Iluvatar

/-- Chunk parsing state. -/
inductive Lzma2State where
  | control
  | unpack0
  | unpack1
  | pack0
  | pack1
  | prop
  | data
  | finished
  | error
  deriving DecidableEq, Repr

inductive Lzma2DecodeStatus where
  | continue
  | finished
  | needInput
  | error
  deriving DecidableEq, Repr

structure Lzma2DecodeResult where
  bytesConsumed : Nat
  produced : List Byte
  status : Lzma2DecodeStatus
  deriving DecidableEq, Repr

/-- The chunk decoder around the LZMA decoder.  The counters are those of the current chunk. -/
structure Lzma2Decoder (ω : Type) where
  state : Lzma2State
  control : Byte
  unpackSize : Nat
  packSize : Nat
  decoder : LzmaDecoder ω
  dictSize : UInt32
  stateInitialized : Bool
  propsSet : Bool
  chunkInConsumed : Nat
  chunkOutProduced : Nat
  deriving DecidableEq, Repr

/-- An unsigned subtraction, which must not go below zero. -/
def subCounter (a b : Nat) : Except Fault Nat := if b ≤ a then .ok (a - b) else .error .panic

/-- A decode call under way: what is left of its input, and what it has written. -/
structure Lzma2Cursor (ω : Type) where
  decoder : Lzma2Decoder ω
  input : List Byte
  out : List Byte
  room : Nat

namespace Lzma2Decoder

section

variable {ω : Type} [LzmaWindow ω]

def new (dictSize : UInt32) : Lzma2Decoder ω :=
  let dictSize := max dictSize kDicMin
  { state := .control
    control := 0
    unpackSize := 0
    packSize := 0
    decoder := .new { lc := 0, lp := 0, pb := 0 } dictSize
    dictSize
    stateInitialized := false
    propsSet := false
    chunkInConsumed := 0
    chunkOutProduced := 0 }

/-- From the dictionary size property byte. -/
def fromPropByte (prop : Byte) : Option (Lzma2Decoder ω) :=
  if 40 < prop then none
  else if prop = 40 then some (new 0xFFFFFFFF)
  else some (new ((2 ||| (prop.toUInt32 &&& 1)) <<< (prop.toUInt32 / 2 + 11)))

/-- Whether the chunk holds its bytes as they are. -/
def stored (d : Lzma2Decoder ω) : Bool := d.control < 0x80

def onControl (control : Byte) (d : Lzma2Decoder ω) : Lzma2Decoder ω :=
  let d := { d with control }
  if control = 0x00 then { d with state := .finished }
  else if control < 0x80 then
    if control = 0x01 then
      { d with
        decoder := d.decoder.resetDict
        stateInitialized := false
        unpackSize := 0
        state := .unpack0 }
    else if control = 0x02 then
      if d.stateInitialized then { d with unpackSize := 0, state := .unpack0 }
      else { d with state := .error }
    else { d with state := .error }
  else
    let needInitLevel :=
      if 0xE0 ≤ control then 4 else if 0xC0 ≤ control then 3 else if 0xA0 ≤ control then 2 else 1
    let d := if 4 ≤ needInitLevel then { d with decoder := d.decoder.resetDict } else d
    if ¬ d.stateInitialized ∧ needInitLevel < 3 then { d with state := .error }
    else { d with unpackSize := (control &&& 0x1F).toNat <<< 16, state := .unpack0 }

def onUnpack0 (b : Byte) (d : Lzma2Decoder ω) : Lzma2Decoder ω :=
  { d with unpackSize := d.unpackSize ||| b.toNat <<< 8, state := .unpack1 }

def onUnpack1 (b : Byte) (d : Lzma2Decoder ω) : Lzma2Decoder ω :=
  let d := { d with unpackSize := (d.unpackSize ||| b.toNat) + 1 }
  if d.stored then { d with chunkOutProduced := 0, state := .data } else { d with state := .pack0 }

def onPack0 (b : Byte) (d : Lzma2Decoder ω) : Lzma2Decoder ω :=
  { d with packSize := b.toNat <<< 8, state := .pack1 }

/-- Set the decoder up for a chunk of LZMA data. -/
def prepareLzmaChunk (propsReset : Bool) (d : Lzma2Decoder ω) : Lzma2Decoder ω :=
  let needStateReset : Bool := 0xA0 ≤ d.control
  let decoder := if needStateReset ∧ ¬ propsReset then d.decoder.resetState else d.decoder
  { d with
    stateInitialized := true
    decoder :=
      { decoder.setUnpackSize (some d.unpackSize) with
        decodedSize := 0
        rcInitialized := false
        rangeDecoder := decoder.rangeDecoder.resetInit
        phase := .newSymbol
        lenDecodeState := none
        distDecodeState := none }
    chunkInConsumed := 0
    chunkOutProduced := 0 }

def onPack1 (b : Byte) (d : Lzma2Decoder ω) : Lzma2Decoder ω :=
  let d := { d with packSize := (d.packSize ||| b.toNat) + 1 }
  if d.control &&& 0x40 ≠ 0 then { d with state := .prop }
  else if d.propsSet then { d.prepareLzmaChunk false with state := .data }
  else { d with state := .error }

def onProp (b : Byte) (d : Lzma2Decoder ω) : Lzma2Decoder ω :=
  match LzmaProperties.fromByte b with
  | none => { d with state := .error }
  | some props =>
    if 4 < props.lc + props.lp then { d with state := .error }
    else
      let d := { d with
        decoder := d.decoder.resetStateAndProps props
        propsSet := true
        stateInitialized := true }
      { d.prepareLzmaChunk true with state := .data }

end
end Lzma2Decoder

namespace Lzma2Cursor

open Lzma2Decoder

section

variable {ω : Type} [LzmaWindow ω]

/-- The next byte of the input, or the call returns. -/
def onByte (c : Lzma2Cursor ω) (f : Byte → Lzma2Decoder ω → Lzma2Decoder ω) :
    Except Fault (Option Lzma2DecodeStatus × Lzma2Cursor ω) :=
  match c.input with
  | [] => .ok (some .needInput, c)
  | b :: input => .ok (none, { c with decoder := f b c.decoder, input })

/-- Copy input directly to window and output. -/
def storedData (c : Lzma2Cursor ω) : Except Fault (Option Lzma2DecodeStatus × Lzma2Cursor ω) := do
  let d := c.decoder
  let remainingUnpack ← subCounter d.unpackSize d.chunkOutProduced
  if remainingUnpack = 0 then return (none, { c with decoder := { d with state := .control } })
  else if c.input.length = 0 then return (some .needInput, c)
  else
    let toCopy := min (min remainingUnpack c.input.length) (c.room - c.out.length)
    if toCopy = 0 then return (some .continue, c)
    else
      let src := c.input.take toCopy
      let window ← LzmaWindow.putSliceDirect d.decoder.window src
      let d := { d with
        decoder := { d.decoder with window }
        chunkOutProduced := d.chunkOutProduced + toCopy }
      let d := if d.unpackSize ≤ d.chunkOutProduced then
          { d with state := .control, stateInitialized := true }
        else d
      return (none, { c with decoder := d, input := c.input.drop toCopy, out := c.out ++ src })

/-- Skip packed bytes that the range coder did not consume. -/
def skipPacked (c : Lzma2Cursor ω) : Except Fault (Option Lzma2DecodeStatus × Lzma2Cursor ω) := do
  let d := c.decoder
  let remainingPack ← subCounter d.packSize d.chunkInConsumed
  let canSkip := min c.input.length remainingPack
  let d := { d with chunkInConsumed := d.chunkInConsumed + canSkip }
  let c := { c with decoder := d, input := c.input.drop canSkip }
  if 0 < remainingPack ∧ d.chunkInConsumed < d.packSize then return (some .needInput, c)
  else return (none, { c with decoder := { d with state := .control } })

/-- Feed what is there of the chunk to the LZMA decoder. -/
def lzmaData (c : Lzma2Cursor ω) : Except Fault (Option Lzma2DecodeStatus × Lzma2Cursor ω) := do
  let d := c.decoder
  let remainingPack ← subCounter d.packSize d.chunkInConsumed
  let remainingUnpack ← subCounter d.unpackSize d.chunkOutProduced
  if remainingUnpack = 0 then c.skipPacked
  else
    let availableIn := min c.input.length remainingPack
    let availableOut := min (c.room - c.out.length) remainingUnpack
    if availableOut = 0 then return (some .continue, c)
    else
      let (result, decoder) ← d.decoder.decode (c.input.take availableIn) availableOut
      let d := { d with
        decoder
        chunkInConsumed := d.chunkInConsumed + result.bytesConsumed
        chunkOutProduced := d.chunkOutProduced + result.produced.length }
      let c := { c with
        decoder := d
        input := c.input.drop result.bytesConsumed
        out := c.out ++ result.produced }
      match result.status with
      | .needInput =>
        if d.packSize ≤ d.chunkInConsumed then
          if d.unpackSize ≤ d.chunkOutProduced then
            return (none, { c with decoder := { d with state := .control } })
          else return (none, { c with decoder := { d with state := .error } })
        else if result.bytesConsumed = 0 then return (some .needInput, c)
        else return (none, c)
      | .continue =>
        if result.bytesConsumed = 0 ∧ result.produced.length = 0 then
          if d.packSize ≤ d.chunkInConsumed ∧ d.unpackSize ≤ d.chunkOutProduced then
            return (none, { c with decoder := { d with state := .control } })
          else if availableIn = 0 then return (some .needInput, c)
          else return (some .continue, c)
        else return (none, c)
      | .finishedWithMark => c.skipPacked
      | .finishedWithoutMark => c.skipPacked

/-- One round of the decode loop. -/
def round (c : Lzma2Cursor ω) : Except Fault (Option Lzma2DecodeStatus × Lzma2Cursor ω) :=
  match c.decoder.state with
  | .finished => .ok (some .finished, c)
  | .error => .ok (some .error, c)
  | .control => c.onByte onControl
  | .unpack0 => c.onByte onUnpack0
  | .unpack1 => c.onByte onUnpack1
  | .pack0 => c.onByte onPack0
  | .pack1 => c.onByte onPack1
  | .prop => c.onByte onProp
  | .data => if c.decoder.stored then c.storedData else c.lzmaData

def loop : Nat → Lzma2Cursor ω → Except Fault (Lzma2DecodeStatus × Lzma2Cursor ω)
  | 0, _ => .error .panic
  | fuel + 1, c => do
    match ← c.round with
    | (some status, c) => return (status, c)
    | (none, c) => loop fuel c

/-- Take pending output of the LZMA decoder. -/
def drain (c : Lzma2Cursor ω) : Lzma2Cursor ω :=
  let d := c.decoder
  let (bytes, window) := LzmaWindow.drainOutput d.decoder.window (c.room - c.out.length)
  { c with decoder := { d with decoder := { d.decoder with window } }, out := c.out ++ bytes }

end
end Lzma2Cursor

namespace Lzma2Decoder

variable {ω : Type} [LzmaWindow ω]

/-- Decode from `input`, with room for `room` bytes.  A round takes input, writes output or
ends the chunk, so the loop stops within its fuel. -/
def decode (d : Lzma2Decoder ω) (input : List Byte) (room : Nat) :
    Except Fault (Lzma2DecodeResult × Lzma2Decoder ω) := do
  let start : Lzma2Cursor ω := { decoder := d, input, out := [], room }
  let pending := 0 < LzmaWindow.pendingLen d.decoder.window
  let c := if pending then start.drain else start
  if pending ∧ (0 < LzmaWindow.pendingLen c.decoder.decoder.window ∨ room ≤ c.out.length) then
    let status := if c.decoder.state = .finished then .finished else .continue
    return ({ bytesConsumed := 0, produced := c.out, status }, c.decoder)
  else
    let (status, c) ← c.loop (2 * (input.length + room) + 3)
    return ({ bytesConsumed := input.length - c.input.length, produced := c.out, status }, c.decoder)

end Lzma2Decoder
end Iluvatar
