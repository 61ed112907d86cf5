/-
BCJ2, the four-stream x86 branch converter, as a decoding stage, and the encoder of its tests.

The main stream is the code with the targets of converted instructions cut out; the call and jump
streams hold those targets as absolute addresses, and a range-coded bit stream says for every marker
byte whether it was converted.
-/
import Iluvatar.Compress.Filter

namespace Iluvatar

open Iluvatar.Filter

def bcj2Top : Nat := 2 ^ 24
def bitModelTotal : Nat := 2 ^ 11
def moveBits : Nat := 5

/-- Contexts: Jcc, E9, then E8 by the preceding byte. -/
def bcj2NumProbs : Nat := 2 + 256

/-- The side streams of one folder, decoded. -/
structure Bcj2Streams where
  call : List Byte
  jump : List Byte
  rc : List Byte
  deriving DecidableEq, Repr

/-- `ip` is the output position, wrapping like the encoder's; `pending` the converted target bytes
that the last output buffer could not take. -/
structure Bcj2State where
  probs : List Nat
  range : Nat
  code : Nat
  rcPos : Nat
  callPos : Nat
  jumpPos : Nat
  ip : UInt32
  prev : Byte
  pending : List Byte
  finished : Bool
  deriving DecidableEq, Repr

structure Bcj2Decompressor where
  streams : Bcj2Streams
  state : Bcj2State
  deriving DecidableEq, Repr

/-- The context of a marker byte. -/
def bcj2Context (b prev : Byte) : Option Nat :=
  if b = 0xE8 then some (2 + prev.toNat)
  else if b = 0xE9 then some 1
  else if (0x80 ≤ b ∧ b ≤ 0x8F) ∧ prev = 0x0F then some 0
  else none

namespace Bcj2State

/-- The range coder's first five bytes: a zero, then the initial code. -/
def initial (streams : Bcj2Streams) : Except Fault Bcj2State :=
  match streams.rc with
  | b0 :: b1 :: b2 :: b3 :: b4 :: _ =>
    let code := (load32Be [b1, b2, b3, b4]).toNat
    if b0 ≠ 0 ∨ code = 2 ^ 32 - 1 then .error (.error (.decompressionError "BCJ2 range coder stream corrupt"))
    else
      .ok
        { probs := List.replicate bcj2NumProbs (bitModelTotal >>> 1), range := 2 ^ 32 - 1, code, rcPos := 5, callPos := 0
          jumpPos := 0, ip := 0, prev := 0, pending := [], finished := false }
  | _ => .error (.error (.decompressionError "BCJ2 range coder stream truncated"))

/-- One more byte of the range coder's stream where the range has become small. -/
def normalize (streams : Bcj2Streams) (st : Bcj2State) : Except Fault Bcj2State :=
  if st.range < bcj2Top then
    match streams.rc[st.rcPos]? with
    | none => .error (.error (.decompressionError "BCJ2 range coder stream exhausted"))
    | some byte =>
      .ok { st with rcPos := st.rcPos + 1, range := st.range * 2 ^ 8, code := st.code * 2 ^ 8 % 2 ^ 32 + byte.toNat }
  else .ok st

def bit (streams : Bcj2Streams) (context : Nat) (st : Bcj2State) : Except Fault (Bool × Bcj2State) := do
  let st ← st.normalize streams
  match st.probs[context]? with
  | none => .error .panic
  | some p =>
    let bound := (st.range >>> 11) * p
    if st.code < bound then
      .ok (false, { st with range := bound, probs := st.probs.set context (p + (bitModelTotal - p) >>> moveBits) })
    else
      .ok (true, { st with
        range := st.range - bound
        code := st.code - bound
        probs := st.probs.set context (p - p >>> moveBits) })

/-- The next converted target, as the relative address the code originally held. -/
def target (streams : Bcj2Streams) (call : Bool) (st : Bcj2State) : Except Fault (UInt32 × Bcj2State) :=
  let (stream, pos) := if call then (streams.call, st.callPos) else (streams.jump, st.jumpPos)
  let src := (stream.drop pos).take 4
  if src.length < 4 then
    .error (.error (.decompressionError ("BCJ2 " ++ (if call then "call" else "jump") ++ " stream exhausted")))
  else
    let st := if call then { st with callPos := pos + 4 } else { st with jumpPos := pos + 4 }
    let st := { st with ip := st.ip + 4 }
    .ok (load32Be src - st.ip, st)

/-- A byte of the main stream, and what it is followed by in the output. -/
def byte (streams : Bcj2Streams) (b : Byte) (st : Bcj2State) : Except Fault (List Byte × Bcj2State) :=
  let prev := st.prev
  let st := { st with ip := st.ip + 1, prev := b }
  match bcj2Context b prev with
  | none => .ok ([], st)
  | some context => do
    let (converted, st) ← st.bit streams context
    if converted then do
      let (rel, st) ← st.target streams (b == 0xE8)
      let bytes := store32Le rel
      .ok (bytes, { st with prev := bytes.getD 3 0 })
    else .ok ([], st)

/-- The loop of `decompress`: how many bytes it takes, and what it writes. -/
def loop (streams : Bcj2Streams) : List Byte → Nat → Bcj2State → Except Fault (Nat × List Byte × Bcj2State)
  | [], _, st => .ok (0, [], st)
  | b :: input, room, st =>
    if st.pending = [] ∧ 0 < room then do
      let (bytes, st) ← st.byte streams b
      let st := { st with pending := bytes.drop (room - 1) }
      let (consumed, produced, st) ← loop streams input (room - 1 - bytes.length) st
      .ok (consumed + 1, b :: bytes.take (room - 1) ++ produced, st)
    else .ok (0, [], st)

end Bcj2State

namespace Bcj2Decompressor

def new (streams : Bcj2Streams) : Except Fault Bcj2Decompressor := do
  let state ← Bcj2State.initial streams
  .ok { streams, state }

def decompress (d : Bcj2Decompressor) (input : List Byte) (room : Nat) :
    Except Fault (DecompressResult × Bcj2Decompressor) := do
  let take := min d.state.pending.length room
  let first := d.state.pending.take take
  let st := { d.state with pending := d.state.pending.drop take }
  let (consumed, produced, st) ← st.loop d.streams input (room - take)
  let st := if input.isEmpty then { st with finished := true } else st
  .ok ({
    bytesConsumed := consumed
    produced := first ++ produced
    status := if st.finished ∧ st.pending = [] then .streamEnd else .continue }, { d with state := st })

def checkpoint (d : Bcj2Decompressor) (compressedOffset uncompressedOffset : Nat) :
    Except Fault (Option (Checkpoint Bcj2State)) :=
  .ok (some { compressedOffset, bitOffset := 0, uncompressedOffset, state := some d.state })

def restore (d : Bcj2Decompressor) (cp : Checkpoint Bcj2State) : Except Fault Bcj2Decompressor :=
  match cp.state with
  | some state =>
    if state.probs.length ≠ bcj2NumProbs ∨ d.streams.rc.length < state.rcPos ∨ d.streams.call.length < state.callPos ∨
        d.streams.jump.length < state.jumpPos then
      .error (.error (.checkpointError "bcj2 checkpoint does not fit its side streams"))
    else .ok { d with state }
  | none => do
    let state ← Bcj2State.initial d.streams
    .ok { d with state }

end Bcj2Decompressor

/-! ## The encoder -/

/-- The range encoder.  `low` has 33 bits. -/
structure RangeEncoder where
  low : Nat
  range : Nat
  cache : Byte
  cacheSize : Nat
  out : List Byte
  deriving DecidableEq, Repr

namespace RangeEncoder

def new : RangeEncoder := { low := 0, range := 2 ^ 32 - 1, cache := 0, cacheSize := 1, out := [] }

def shiftLow (e : RangeEncoder) : RangeEncoder :=
  let e :=
    if e.low % 2 ^ 32 < 0xFF000000 ∨ e.low / 2 ^ 32 ≠ 0 then
      let carry := UInt8.ofNat (e.low / 2 ^ 32)
      { e with
        out := e.out ++ (e.cache + carry) :: List.replicate (e.cacheSize - 1) (0xFF + carry)
        cacheSize := 0
        cache := UInt8.ofNat (e.low / 2 ^ 24) }
    else e
  { e with cacheSize := e.cacheSize + 1, low := e.low % 2 ^ 24 * 256 }

/-- The loop that ends an encoding; three turns are enough for any range but 0. -/
def normalize : Nat → RangeEncoder → RangeEncoder
  | 0, e => e
  | fuel + 1, e =>
    if e.range < bcj2Top then normalize fuel { e with range := e.range * 256 }.shiftLow else e

def encode (e : RangeEncoder) (prob : Nat) (bit : Bool) : RangeEncoder × Nat :=
  let bound := (e.range >>> 11) * prob
  let (e, prob) :=
    if bit then ({ e with low := e.low + bound, range := e.range - bound }, prob - prob >>> moveBits)
    else ({ e with range := bound }, prob + (bitModelTotal - prob) >>> moveBits)
  (e.normalize 3, prob)

def finish (e : RangeEncoder) : List Byte := e.shiftLow.shiftLow.shiftLow.shiftLow.shiftLow.out

end RangeEncoder

/-- The variables of the encoder. -/
structure Bcj2Encoder where
  main : List Byte
  call : List Byte
  jump : List Byte
  rc : RangeEncoder
  probs : List Nat
  prev : Byte

namespace Bcj2Encoder

/-- The data from position `i` on.  Every marker gets a bit, and a target is converted when
`convert` says so and four bytes follow. -/
def run (convert : Nat → Bool) : Nat → Nat → List Byte → Bcj2Encoder → Bcj2Encoder
  | fuel + 1, i, b :: rest, e =>
    let e := { e with main := e.main ++ [b] }
    match bcj2Context b e.prev with
    | none => run convert fuel (i + 1) rest { e with prev := b }
    | some context =>
      let bit := decide (4 ≤ rest.length) && convert i
      let (rc, prob) := e.rc.encode (e.probs.getD context 0) bit
      let e := { e with rc, probs := e.probs.set context prob }
      if bit then
        let rel := load32Le (rest.take 4)
        let abs := rel + UInt32.ofNat (i + 5)
        let e :=
          if b = 0xE8 then { e with call := e.call ++ store32Be abs } else { e with jump := e.jump ++ store32Be abs }
        run convert fuel (i + 5) (rest.drop 4) { e with prev := rest.getD 3 0 }
      else run convert fuel (i + 1) rest { e with prev := b }
  | _, _, _, e => e

def start : Bcj2Encoder :=
  { main := [], call := [], jump := [], rc := .new, probs := List.replicate bcj2NumProbs (bitModelTotal >>> 1), prev := 0 }

end Bcj2Encoder

/-- The main stream and the side streams of some data. -/
def bcj2Encode (data : List Byte) (convert : Nat → Bool) : List Byte × Bcj2Streams :=
  let e := Bcj2Encoder.start.run convert data.length 0 data
  (e.main, { call := e.call, jump := e.jump, rc := e.rc.finish })

end Iluvatar
