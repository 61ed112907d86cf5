/-
The LZMA decoder core: the resumable decoder, the fast path, and the decode loop.

The code is modelled over any window; `LzmaWindow` lists what it asks of one.  A function
that may run out of input returns `none` with the decoder saved where it can resume.
A slice and a position in it are what is left of the slice, and `output[..out_pos]` is the
list `out` of the bytes written so far.  The hot locals of the fast path are the fields
they are copied from and written back to.
-/
import Iluvatar.Lzma.RangeCoder

namespace Iluvatar

def kNumPosStatesMax : Nat := 16
def kNumLenToPosStates : Nat := 4
def kNumAlignBits : Nat := 4
def kStartPosModelIndex : Nat := 4
def kEndPosModelIndex : Nat := 14
def kMatchMinLen : Nat := 2
def kLenNumLowBits : Nat := 3
def kLenNumLowSymbols : Nat := 8
def kLenNumMidBits : Nat := 3
def kLenNumMidSymbols : Nat := 8
def kLenNumHighBits : Nat := 8
def kLenNumHighSymbols : Nat := 256
def kLzmaLitSize : Nat := 0x300

/-- Minimum dictionary size (4 KiB). -/
def kDicMin : UInt32 := 4096

def offIsMatch : Nat := 0
def offIsRep : Nat := 192
def offIsRepG0 : Nat := 204
def offIsRepG1 : Nat := 216
def offIsRepG2 : Nat := 228
def offIsRep0Long : Nat := 240
def offLenCoder : Nat := 432
def offRepLenCoder : Nat := 946
def offPosSlot : Nat := 1460
def offPosDecoders : Nat := 1716
def offAlign : Nat := 1831
def baseProbsSize : Nat := 1847

/-- Total number of probability entries. -/
def numProbs (lc lp : Nat) : Nat := baseProbsSize + kLzmaLitSize * 2 ^ (lc + lp)

def updateStateLiteral (state : Nat) : Nat :=
  if state < 4 then 0 else if state < 10 then state - 3 else state - 6

def updateStateMatch (state : Nat) : Nat := if state < 7 then 7 else 10

def updateStateRep (state : Nat) : Nat := if state < 7 then 8 else 11

def updateStateShortRep (state : Nat) : Nat := if state < 7 then 9 else 11

/-- LZMA compression properties. -/
structure LzmaProperties where
  lc : Nat
  lp : Nat
  pb : Nat
  deriving DecidableEq, Repr

namespace LzmaProperties

/-- Decode properties from a single byte. -/
def fromByte (b : Byte) : Option LzmaProperties :=
  if 225 ≤ b.toNat then none
  else
    let d := b.toNat / 9
    some { lc := b.toNat % 9, lp := d % 5, pb := d / 5 }

end LzmaProperties

/-- The operations of the sliding window the decoder relies on.  Distances count from 1;
`copyMatchTo` returns the bytes written to the caller's slice as well. -/
class LzmaWindow (ω : Type) where
  new : UInt32 → ω
  totalPos : ω → Nat
  isEmpty : ω → Bool
  checkDistance : ω → Nat → Bool
  getByte : ω → Nat → Except Fault Byte
  putByte : ω → Byte → ω
  putByteDirect : ω → Byte → ω
  putSliceDirect : ω → List Byte → Except Fault ω
  copyMatchTo : ω → Nat → Nat → Except Fault (List Byte × ω)
  pendingLen : ω → Nat
  drainOutput : ω → Nat → List Byte × ω

/-- Status of the LZMA decoder after a decode step. -/
inductive LzmaDecodeStatus where
  | continue
  | finishedWithMark
  | finishedWithoutMark
  | needInput
  deriving DecidableEq, Repr

structure LzmaDecodeResult where
  bytesConsumed : Nat
  produced : List Byte
  status : LzmaDecodeStatus
  deriving DecidableEq, Repr

structure LiteralState where
  symbol : Nat
  litState : Nat
  matched : Bool
  matchByte : Byte
  offs : Nat
  deriving DecidableEq, Repr

inductive MatchType where
  | simple
  | rep0
  | rep1
  | rep2
  | rep3
  deriving DecidableEq, Repr

/-- Where to resume within one symbol. -/
inductive DecodePhase where
  | newSymbol
  | needIsRep (posState : Nat)
  | needRepG0 (posState : Nat)
  | needRep0Long (posState : Nat)
  | needRepG1 (posState : Nat)
  | needRepG2 (posState : Nat)
  | literal (ls : LiteralState)
  | matchLength (matchType : MatchType)
  | matchDistance (len lenState : Nat)
  | copyMatch (dist : UInt32) (remaining : Nat)
  | finished (status : LzmaDecodeStatus)
  deriving DecidableEq, Repr

inductive LenPhase where
  | choice
  | low (m bitsRemaining : Nat)
  | choice2
  | mid (m bitsRemaining : Nat)
  | high (m bitsRemaining : Nat)
  deriving DecidableEq, Repr

structure LenDecodeState where
  isRep : Bool
  posState : Nat
  phase : LenPhase
  deriving DecidableEq, Repr

inductive DistPhase where
  | posSlot (m bitsRemaining : Nat)
  | directBits (dist : UInt32) (numBits : Nat)
  | alignBits (dist : UInt32) (m : Nat) (symbol : UInt32) (i : Nat)
  | specPosBits (dist : UInt32) (probsOffset m : Nat) (symbol : UInt32) (i numBits : Nat)
  deriving DecidableEq, Repr

structure DistDecodeState where
  lenState : Nat
  phase : DistPhase
  deriving DecidableEq, Repr

structure Reps where
  r0 : UInt32
  r1 : UInt32
  r2 : UInt32
  r3 : UInt32
  deriving DecidableEq, Repr

namespace Reps

def zero : Reps := { r0 := 0, r1 := 0, r2 := 0, r3 := 0 }

/-- Make room for a new distance at the front. -/
def shift (r : Reps) : Reps := { r with r1 := r.r0, r2 := r.r1, r3 := r.r2 }

def takeRep1 (r : Reps) : Reps := { r with r0 := r.r1, r1 := r.r0 }

def takeRep2 (r : Reps) : Reps := { r with r0 := r.r2, r1 := r.r0, r2 := r.r1 }

def takeRep3 (r : Reps) : Reps := { r0 := r.r3, r1 := r.r0, r2 := r.r1, r3 := r.r2 }

end Reps

/-- Core LZMA decoder. -/
structure LzmaDecoder (ω : Type) where
  props : LzmaProperties
  dictSize : UInt32
  rangeDecoder : RangeDecoder
  rcInitialized : Bool
  state : Nat
  reps : Reps
  probs : List UInt16
  window : ω
  phase : DecodePhase
  unpackSize : Option Nat
  decodedSize : Nat
  lenDecodeState : Option LenDecodeState
  distDecodeState : Option DistDecodeState
  deriving DecidableEq, Repr

/-- What a resumable function leaves: its value, or `none` where it needs input. -/
structure Resumed (ω α : Type) where
  value : Option α
  decoder : LzmaDecoder ω
  input : List Byte

namespace LzmaDecoder

variable {ω : Type} [LzmaWindow ω]

open LzmaWindow

def new (props : LzmaProperties) (dictSize : UInt32) : LzmaDecoder ω :=
  let dictSize := max dictSize kDicMin
  { props
    dictSize
    rangeDecoder := .new
    rcInitialized := false
    state := 0
    reps := .zero
    probs := List.replicate (numProbs props.lc props.lp) probInitVal
    window := LzmaWindow.new dictSize
    phase := .newSymbol
    unpackSize := none
    decodedSize := 0
    lenDecodeState := none
    distDecodeState := none }

def setUnpackSize (d : LzmaDecoder ω) (size : Option Nat) : LzmaDecoder ω :=
  { d with unpackSize := size }

/-- Reset the state machine (probabilities and reps) but keep the dictionary. -/
def resetState (d : LzmaDecoder ω) : LzmaDecoder ω :=
  { d with
    state := 0
    reps := .zero
    probs := List.replicate d.probs.length probInitVal
    rcInitialized := false
    rangeDecoder := d.rangeDecoder.resetInit
    phase := .newSymbol
    decodedSize := 0
    lenDecodeState := none
    distDecodeState := none }

/-- Reset state and set new properties. -/
def resetStateAndProps (d : LzmaDecoder ω) (props : LzmaProperties) : LzmaDecoder ω :=
  { d with
    props
    probs := List.replicate (numProbs props.lc props.lp) probInitVal
    state := 0
    reps := .zero
    rcInitialized := false
    rangeDecoder := d.rangeDecoder.resetInit
    phase := .newSymbol
    decodedSize := 0
    lenDecodeState := none
    distDecodeState := none }

/-- Reset the dictionary (window). -/
def resetDict (d : LzmaDecoder ω) : LzmaDecoder ω :=
  { d with window := LzmaWindow.new d.dictSize }

/-- Whether the expected size has been decoded. -/
def reachedUnpackSize (d : LzmaDecoder ω) : Bool :=
  match d.unpackSize with
  | some unpack => unpack ≤ d.decodedSize
  | none => false

def posState (d : LzmaDecoder ω) : Nat := totalPos d.window % 2 ^ d.props.pb

/-- Decode a bit with the probability at `idx`. -/
def bit (d : LzmaDecoder ω) (idx : Nat) (input : List Byte) :
    Except Fault (Option (Nat × LzmaDecoder ω × List Byte)) :=
  match d.probs[idx]? with
  | none => .error .panic
  | some p =>
    match d.rangeDecoder.decodeBit p input with
    | none => .ok none
    | some (b, p, rangeDecoder, input) =>
      .ok (some (b, { d with rangeDecoder, probs := d.probs.set idx p }, input))

/-- Decode `n` bits of a bit tree from node `m` on; some are left where input is needed. -/
def bitTree (base : Nat) : Nat → Nat → LzmaDecoder ω → List Byte →
    Except Fault (Nat × Nat × LzmaDecoder ω × List Byte)
  | 0, m, d, input => .ok (m, 0, d, input)
  | n + 1, m, d, input => do
    match ← d.bit (base + m) input with
    | none => .ok (m, n + 1, d, input)
    | some (b, d, input) => bitTree base n (2 * m + b) d input

/-- Decode `n` more bits of a reverse bit tree, at node `m`, the next one being bit `i`
of the symbol. -/
def reverseBits (base : Nat) : Nat → Nat → Nat → UInt32 → LzmaDecoder ω → List Byte →
    Except Fault (Nat × Nat × Nat × UInt32 × LzmaDecoder ω × List Byte)
  | 0, i, m, symbol, d, input => .ok (0, i, m, symbol, d, input)
  | n + 1, i, m, symbol, d, input => do
    match ← d.bit (base + m) input with
    | none => .ok (n + 1, i, m, symbol, d, input)
    | some (b, d, input) =>
      reverseBits base n (i + 1) (2 * m + b)
        (symbol ||| UInt32.ofNat b <<< UInt32.ofNat i) d input

/-- Decode `n` direct bits onto `dist`. -/
def directBits : Nat → UInt32 → LzmaDecoder ω → List Byte → Nat × UInt32 × LzmaDecoder ω × List Byte
  | 0, dist, d, input => (0, dist, d, input)
  | n + 1, dist, d, input =>
    match d.rangeDecoder.decodeDirectBit input with
    | none => (n + 1, dist, d, input)
    | some (b, rangeDecoder, input) =>
      directBits n (dist <<< 1 + UInt32.ofNat b) { d with rangeDecoder } input

/-- The byte decoded last, which chooses the probabilities of a literal. -/
def prevByte (d : LzmaDecoder ω) : Except Fault Byte :=
  if isEmpty d.window then .ok 0 else getByte d.window 1

/-- The byte a literal after a match is decoded next to. -/
def matchByte (d : LzmaDecoder ω) : Except Fault Byte :=
  if 7 ≤ d.state then getByte d.window (d.reps.r0.toNat + 1) else .ok 0

def litState (d : LzmaDecoder ω) (prevByte : Byte) : Nat :=
  (totalPos d.window % 2 ^ d.props.lp) * 2 ^ d.props.lc + prevByte.toNat / 2 ^ (8 - d.props.lc)

def startLiteralDecode (d : LzmaDecoder ω) : Except Fault (LzmaDecoder ω) := do
  let prevByte ← d.prevByte
  let matchByte ← d.matchByte
  return { d with
    phase := .literal {
      symbol := 1
      litState := d.litState prevByte
      matched := 7 ≤ d.state
      matchByte
      offs := if 7 ≤ d.state then 0x100 else 0 } }

/-- Decode bits next to those of the match byte until one differs.  A symbol of at least
one has its nine bits within the fuel. -/
def matchedLiteral (offset : Nat) : Nat → LiteralState → LzmaDecoder ω → List Byte →
    Except Fault (Resumed ω LiteralState)
  | 0, _, _, _ => .error .panic
  | fuel + 1, ls, d, input =>
    if 0x100 ≤ ls.symbol then .ok { value := some ls, decoder := d, input }
    else do
      let matchBit := (ls.matchByte >>> 7).toNat % 2
      match ← d.bit (offset + (1 + matchBit) * 0x100 + ls.symbol) input with
      | none => .ok { value := none, decoder := { d with phase := .literal ls }, input }
      | some (b, d, input) =>
        let ls := { ls with matchByte := ls.matchByte <<< 1, symbol := 2 * ls.symbol + b }
        if matchBit ≠ b then .ok { value := some { ls with matched := false }, decoder := d, input }
        else matchedLiteral offset fuel ls d input

/-- Decode the remaining bits of a literal on their own. -/
def plainLiteral (offset : Nat) : Nat → LiteralState → LzmaDecoder ω → List Byte →
    Except Fault (Resumed ω LiteralState)
  | 0, _, _, _ => .error .panic
  | fuel + 1, ls, d, input =>
    if 0x100 ≤ ls.symbol then .ok { value := some ls, decoder := d, input }
    else do
      match ← d.bit (offset + ls.symbol) input with
      | none =>
        .ok { value := none, decoder := { d with phase := .literal { ls with matched := false } }, input }
      | some (b, d, input) => plainLiteral offset fuel { ls with symbol := 2 * ls.symbol + b } d input

/-- The matched part of a literal, where it has one left. -/
def matchedPart (offset : Nat) (ls : LiteralState) (d : LzmaDecoder ω) (input : List Byte) :
    Except Fault (Resumed ω LiteralState) :=
  if ls.matched ∧ ls.symbol < 0x100 then matchedLiteral offset 9 ls d input
  else .ok { value := some ls, decoder := d, input }

/-- A literal is complete: put it into the window and drain it; the value is what was
drained. -/
def putLiteral (d : LzmaDecoder ω) (input : List Byte) (room : Nat) (ls : LiteralState) :
    Resumed ω (List Byte) :=
  let (drained, window) := drainOutput (putByte d.window (UInt8.ofNat (ls.symbol - 0x100))) room
  { value := some drained
    decoder := { d with
      window
      state := updateStateLiteral d.state
      decodedSize := d.decodedSize + 1
      phase := .newSymbol }
    input }

def continueLiteralDecode (d : LzmaDecoder ω) (input : List Byte) (room : Nat) (ls : LiteralState) :
    Except Fault (Resumed ω (List Byte)) := do
  let offset := baseProbsSize + kLzmaLitSize * ls.litState
  match ← matchedPart offset ls d input with
  | { value := none, decoder, input } => return { value := none, decoder, input }
  | { value := some ls, decoder := d, input } =>
    match ← plainLiteral offset 9 ls d input with
    | { value := none, decoder, input } => return { value := none, decoder, input }
    | { value := some ls, decoder := d, input } => return putLiteral d input room ls

/-- The rep match chosen, its length comes next. -/
def startRepLength (d : LzmaDecoder ω) (matchType : MatchType) (posState : Nat) : LzmaDecoder ω :=
  { d with
    state := updateStateRep d.state
    phase := .matchLength matchType
    lenDecodeState := some { isRep := true, posState, phase := .choice } }

def decodeRepG2 (d : LzmaDecoder ω) (input : List Byte) (posState : Nat) :
    Except Fault (Resumed ω Unit) := do
  match ← d.bit (offIsRepG2 + d.state) input with
  | none => return { value := none, decoder := { d with phase := .needRepG2 posState }, input }
  | some (isRepG2, d, input) =>
    let d := if isRepG2 = 0 then { d with reps := d.reps.takeRep2 }
      else { d with reps := d.reps.takeRep3 }
    let d := d.startRepLength (if isRepG2 = 0 then .rep2 else .rep3) posState
    return { value := some (), decoder := d, input }

def decodeRepG1 (d : LzmaDecoder ω) (input : List Byte) (posState : Nat) :
    Except Fault (Resumed ω Unit) := do
  match ← d.bit (offIsRepG1 + d.state) input with
  | none => return { value := none, decoder := { d with phase := .needRepG1 posState }, input }
  | some (isRepG1, d, input) =>
    if isRepG1 = 0 then
      let d := { d with reps := d.reps.takeRep1 }
      return { value := some (), decoder := d.startRepLength .rep1 posState, input }
    else decodeRepG2 d input posState

def decodeRep0Long (d : LzmaDecoder ω) (input : List Byte) (posState : Nat) :
    Except Fault (Resumed ω Unit) := do
  match ← d.bit (offIsRep0Long + (d.state * kNumPosStatesMax + posState)) input with
  | none => return { value := none, decoder := { d with phase := .needRep0Long posState }, input }
  | some (isLong, d, input) =>
    if isLong = 0 then
      -- Short rep match (single byte).
      let b ← getByte d.window (d.reps.r0.toNat + 1)
      return {
        value := some ()
        decoder := { d with
          state := updateStateShortRep d.state
          window := putByte d.window b
          decodedSize := d.decodedSize + 1
          phase := .newSymbol }
        input }
    else return { value := some (), decoder := d.startRepLength .rep0 posState, input }

def decodeRepType (d : LzmaDecoder ω) (input : List Byte) (posState : Nat) :
    Except Fault (Resumed ω Unit) := do
  if d.reachedUnpackSize then
    return { value := some (), decoder := { d with phase := .finished .finishedWithoutMark }, input }
  else if isEmpty d.window then
    return { value := some (), decoder := { d with phase := .finished .finishedWithMark }, input }
  else
    match ← d.bit (offIsRepG0 + d.state) input with
    | none => return { value := none, decoder := { d with phase := .needRepG0 posState }, input }
    | some (isRepG0, d, input) =>
      if isRepG0 = 0 then decodeRep0Long d input posState else decodeRepG1 d input posState

/-- IsMatch=1 was decoded; decode IsRep and what it calls for. -/
def decodeIsRep (d : LzmaDecoder ω) (input : List Byte) (posState : Nat) :
    Except Fault (Resumed ω Unit) := do
  match ← d.bit (offIsRep + d.state) input with
  | none => return { value := none, decoder := { d with phase := .needIsRep posState }, input }
  | some (isRep, d, input) =>
    if isRep = 0 then
      return {
        value := some ()
        decoder := { d with
          reps := d.reps.shift
          state := updateStateMatch d.state
          phase := .matchLength .simple
          lenDecodeState := some { isRep := false, posState, phase := .choice } }
        input }
    else decodeRepType d input posState

/-- The three bit trees of a length. -/
inductive LenCoder where
  | low
  | mid
  | high
  deriving DecidableEq, Repr

namespace LenCoder

def numBits : LenCoder → Nat
  | .low => kLenNumLowBits
  | .mid => kLenNumMidBits
  | .high => kLenNumHighBits

/-- Where the tree lies, from the base of its length decoder on. -/
def offset (posState : Nat) : LenCoder → Nat
  | .low => 2 + posState * kLenNumLowSymbols
  | .mid => 2 + kNumPosStatesMax * kLenNumLowSymbols + posState * kLenNumMidSymbols
  | .high => 2 + kNumPosStatesMax * kLenNumLowSymbols + kNumPosStatesMax * kLenNumMidSymbols

/-- The length a leaf stands for. -/
def value (m : Nat) : LenCoder → Nat
  | .low => m - kLenNumLowSymbols
  | .mid => m - kLenNumMidSymbols + kLenNumLowSymbols
  | .high => m - kLenNumHighSymbols + kLenNumLowSymbols + kLenNumMidSymbols

def phase (m n : Nat) : LenCoder → LenPhase
  | .low => .low m n
  | .mid => .mid m n
  | .high => .high m n

end LenCoder

/-- Where a length decoder's probabilities begin. -/
def lenBase (isRep : Bool) : Nat := if isRep then offRepLenCoder else offLenCoder

/-- Decode the rest of one tree of a length. -/
def decodeLenTree (d : LzmaDecoder ω) (input : List Byte) (lds : LenDecodeState) (coder : LenCoder)
    (m n : Nat) : Except Fault (Resumed ω Nat) := do
  let (m, n, d, input) ← bitTree (lenBase lds.isRep + coder.offset lds.posState) n m d input
  if n = 0 then return { value := some (coder.value m), decoder := d, input }
  else
    return {
      value := none
      decoder := { d with lenDecodeState := some { lds with phase := coder.phase m n } }
      input }

def decodeLenChoice2 (d : LzmaDecoder ω) (input : List Byte) (lds : LenDecodeState) :
    Except Fault (Resumed ω Nat) := do
  match ← d.bit (lenBase lds.isRep + 1) input with
  | none =>
    return {
      value := none
      decoder := { d with lenDecodeState := some { lds with phase := .choice2 } }
      input }
  | some (choice2, d, input) =>
    if choice2 = 0 then decodeLenTree d input lds .mid 1 kLenNumMidBits
    else decodeLenTree d input lds .high 1 kLenNumHighBits

def decodeLenChoice (d : LzmaDecoder ω) (input : List Byte) (lds : LenDecodeState) :
    Except Fault (Resumed ω Nat) := do
  match ← d.bit (lenBase lds.isRep) input with
  | none =>
    return {
      value := none
      decoder := { d with lenDecodeState := some { lds with phase := .choice } }
      input }
  | some (choice, d, input) =>
    if choice = 0 then decodeLenTree d input lds .low 1 kLenNumLowBits
    else decodeLenChoice2 d input lds

/-- `decode_length`, whose calls of itself in the next phase are calls of that phase. -/
def decodeLength (d : LzmaDecoder ω) (input : List Byte) : Except Fault (Resumed ω Nat) :=
  let lds := d.lenDecodeState.getD { isRep := false, posState := 0, phase := .choice }
  let d := { d with lenDecodeState := none }
  match lds.phase with
  | .choice => decodeLenChoice d input lds
  | .low m n => decodeLenTree d input lds .low m n
  | .choice2 => decodeLenChoice2 d input lds
  | .mid m n => decodeLenTree d input lds .mid m n
  | .high m n => decodeLenTree d input lds .high m n

def decodeSpecPosBits (d : LzmaDecoder ω) (input : List Byte) (lenState : Nat) (dist : UInt32)
    (probsOffset m : Nat) (symbol : UInt32) (i numBits : Nat) : Except Fault (Resumed ω UInt32) := do
  let (n, i, m, symbol, d, input) ← reverseBits probsOffset (numBits - i) i m symbol d input
  if n = 0 then return { value := some (dist + symbol), decoder := d, input }
  else
    let suspended : DistDecodeState :=
      { lenState, phase := .specPosBits dist probsOffset m symbol i numBits }
    return { value := none, decoder := { d with distDecodeState := some suspended }, input }

def decodeAlignBits (d : LzmaDecoder ω) (input : List Byte) (lenState : Nat) (dist : UInt32)
    (m : Nat) (symbol : UInt32) (i : Nat) : Except Fault (Resumed ω UInt32) := do
  let (n, i, m, symbol, d, input) ← reverseBits offAlign (kNumAlignBits - i) i m symbol d input
  if n = 0 then return { value := some (dist ||| symbol), decoder := d, input }
  else
    return {
      value := none
      decoder := { d with distDecodeState := some { lenState, phase := .alignBits dist m symbol i } }
      input }

def decodeDirectBits (d : LzmaDecoder ω) (input : List Byte) (lenState : Nat) (dist : UInt32)
    (n : Nat) : Except Fault (Resumed ω UInt32) :=
  let (n, dist, d, input) := directBits n dist d input
  if n = 0 then decodeAlignBits d input lenState (dist <<< 4) 1 0 0
  else
    .ok {
      value := none
      decoder := { d with distDecodeState := some { lenState, phase := .directBits dist n } }
      input }

def decodePosSlot (d : LzmaDecoder ω) (input : List Byte) (lenState m n : Nat) :
    Except Fault (Resumed ω UInt32) := do
  let (m, n, d, input) ← bitTree (offPosSlot + lenState * 64) n m d input
  if n = 0 then
    let posSlot := m - 64
    if posSlot < kStartPosModelIndex then
      return { value := some (UInt32.ofNat posSlot), decoder := d, input }
    else
      let numDirectBits := posSlot / 2 - 1
      let distInitial := UInt32.ofNat (2 + posSlot % 2)
      if posSlot < kEndPosModelIndex then
        let distBase := distInitial <<< UInt32.ofNat numDirectBits
        decodeSpecPosBits d input lenState distBase (offPosDecoders + distBase.toNat - posSlot)
          1 0 0 numDirectBits
      else decodeDirectBits d input lenState distInitial (numDirectBits - kNumAlignBits)
  else
    return {
      value := none
      decoder := { d with distDecodeState := some { lenState, phase := .posSlot m n } }
      input }

/-- `decode_distance`, whose calls of itself in the next phase are calls of that phase. -/
def decodeDistance (d : LzmaDecoder ω) (input : List Byte) : Except Fault (Resumed ω UInt32) :=
  match d.distDecodeState with
  | none => .error .panic
  | some dds =>
    let d := { d with distDecodeState := none }
    match dds.phase with
    | .posSlot m n => decodePosSlot d input dds.lenState m n
    | .directBits dist n => decodeDirectBits d input dds.lenState dist n
    | .alignBits dist m symbol i => decodeAlignBits d input dds.lenState dist m symbol i
    | .specPosBits dist probsOffset m symbol i numBits =>
      decodeSpecPosBits d input dds.lenState dist probsOffset m symbol i numBits

/-- The length of a match, capped at the unpack size. -/
def actualLen (d : LzmaDecoder ω) (len : Nat) : Nat :=
  match d.unpackSize with
  | some unpack => min len (unpack - d.decodedSize)
  | none => len

def startCopyMatch (d : LzmaDecoder ω) (dist : UInt32) (len : Nat) : LzmaDecoder ω :=
  { d with phase := .copyMatch dist (d.actualLen len) }

/-- `n` bytes, each copied from `dist` back in the window. -/
def copyBytes (dist : Nat) : Nat → ω → Except Fault ω
  | 0, w => .ok w
  | n + 1, w => do
    let b ← getByte w dist
    copyBytes dist n (putByte w b)

/-- A bit of the fast path, which reads the input without asking whether there is any. -/
def fastBit (d : LzmaDecoder ω) (idx : Nat) (input : List Byte) :
    Except Fault (Nat × LzmaDecoder ω × List Byte) := do
  match ← d.bit idx input with
  | none => throw .panic
  | some r => return r

def fastTree (base : Nat) : Nat → Nat → LzmaDecoder ω → List Byte →
    Except Fault (Nat × LzmaDecoder ω × List Byte)
  | 0, m, d, input => .ok (m, d, input)
  | n + 1, m, d, input => do
    let (b, d, input) ← d.fastBit (base + m) input
    fastTree base n (2 * m + b) d input

def fastReverse (base : Nat) : Nat → Nat → Nat → UInt32 → LzmaDecoder ω → List Byte →
    Except Fault (UInt32 × LzmaDecoder ω × List Byte)
  | 0, _, _, symbol, d, input => .ok (symbol, d, input)
  | n + 1, i, m, symbol, d, input => do
    let (b, d, input) ← d.fastBit (base + m) input
    fastReverse base n (i + 1) (2 * m + b) (symbol ||| UInt32.ofNat b <<< UInt32.ofNat i) d input

def fastDirect : Nat → UInt32 → LzmaDecoder ω → List Byte →
    Except Fault (UInt32 × LzmaDecoder ω × List Byte)
  | 0, dist, d, input => .ok (dist, d, input)
  | n + 1, dist, d, input =>
    match d.rangeDecoder.decodeDirectBit input with
    | none => .error .panic
    | some (b, rangeDecoder, input) =>
      fastDirect n (dist <<< 1 + UInt32.ofNat b) { d with rangeDecoder } input

def fastMatched (offset : Nat) : Nat → Byte → Nat → LzmaDecoder ω → List Byte →
    Except Fault (Nat × LzmaDecoder ω × List Byte)
  | 0, _, _, _, _ => .error .panic
  | fuel + 1, matchByte, symbol, d, input =>
    if 0x100 ≤ symbol then .ok (symbol, d, input)
    else do
      let matchBit := (matchByte >>> 7).toNat % 2
      let (b, d, input) ← d.fastBit (offset + (1 + matchBit) * 0x100 + symbol) input
      if matchBit ≠ b then return (2 * symbol + b, d, input)
      else fastMatched offset fuel (matchByte <<< 1) (2 * symbol + b) d input

def fastPlain (offset : Nat) : Nat → Nat → LzmaDecoder ω → List Byte →
    Except Fault (Nat × LzmaDecoder ω × List Byte)
  | 0, _, _, _ => .error .panic
  | fuel + 1, symbol, d, input =>
    if 0x100 ≤ symbol then .ok (symbol, d, input)
    else do
      let (b, d, input) ← d.fastBit (offset + symbol) input
      fastPlain offset fuel (2 * symbol + b) d input

def fastLen (d : LzmaDecoder ω) (base posState : Nat) (input : List Byte) :
    Except Fault (Nat × LzmaDecoder ω × List Byte) := do
  let (choice, d, input) ← d.fastBit base input
  if choice = 0 then
    let (m, d, input) ← fastTree (base + LenCoder.low.offset posState) kLenNumLowBits 1 d input
    return (LenCoder.low.value m, d, input)
  else
    let (choice2, d, input) ← d.fastBit (base + 1) input
    if choice2 = 0 then
      let (m, d, input) ← fastTree (base + LenCoder.mid.offset posState) kLenNumMidBits 1 d input
      return (LenCoder.mid.value m, d, input)
    else
      let (m, d, input) ← fastTree (base + LenCoder.high.offset posState) kLenNumHighBits 1 d input
      return (LenCoder.high.value m, d, input)

def fastDistance (d : LzmaDecoder ω) (lenState : Nat) (input : List Byte) :
    Except Fault (UInt32 × LzmaDecoder ω × List Byte) := do
  let (m, d, input) ← fastTree (offPosSlot + lenState * 64) 6 1 d input
  let posSlot := m - 64
  if posSlot < kStartPosModelIndex then return (UInt32.ofNat posSlot, d, input)
  else
    let numDirectBits := posSlot / 2 - 1
    let distInitial := UInt32.ofNat (2 + posSlot % 2)
    if posSlot < kEndPosModelIndex then
      let distBase := distInitial <<< UInt32.ofNat numDirectBits
      let (symbol, d, input) ←
        fastReverse (offPosDecoders + distBase.toNat - posSlot) numDirectBits 0 1 0 d input
      return (distBase + symbol, d, input)
    else
      let (dist, d, input) ← fastDirect (numDirectBits - kNumAlignBits) distInitial d input
      let (symbol, d, input) ← fastReverse offAlign kNumAlignBits 0 1 0 d input
      return (dist <<< 4 ||| symbol, d, input)

/-- What one symbol of the fast path leaves: the decoder, the input, the bytes it wrote,
and a status where the symbol ends the stream. -/
structure FastSymbol (ω : Type) where
  decoder : LzmaDecoder ω
  input : List Byte
  written : List Byte
  finish : Option LzmaDecodeStatus

/-- The matched part of a literal after a match. -/
def fastMatchedPart (d : LzmaDecoder ω) (offset : Nat) (input : List Byte) :
    Except Fault (Nat × LzmaDecoder ω × List Byte) :=
  if 7 ≤ d.state then do
    let matchByte ← getByte d.window (d.reps.r0.toNat + 1)
    fastMatched offset 9 matchByte 1 d input
  else .ok (1, d, input)

def fastLiteral (d : LzmaDecoder ω) (input : List Byte) : Except Fault (FastSymbol ω) := do
  let prevByte ← d.prevByte
  let offset := baseProbsSize + kLzmaLitSize * d.litState prevByte
  let (symbol, d, input) ← d.fastMatchedPart offset input
  let (symbol, d, input) ← fastPlain offset 9 symbol d input
  let b := UInt8.ofNat (symbol - 0x100)
  return {
    decoder := { d with
      window := putByteDirect d.window b
      state := updateStateLiteral d.state
      decodedSize := d.decodedSize + 1 }
    input
    written := [b]
    finish := none }

/-- Copy a match to window and output, capped at the unpack size. -/
def emitMatch (d : LzmaDecoder ω) (input : List Byte) (dist : UInt32) (len : Nat) :
    Except Fault (FastSymbol ω) := do
  let (written, window) ← copyMatchTo d.window (dist.toNat + 1) (d.actualLen len)
  return {
    decoder := { d with window, decodedSize := d.decodedSize + d.actualLen len }
    input
    written
    finish := none }

def fastMatch (d : LzmaDecoder ω) (posState : Nat) (input : List Byte) :
    Except Fault (FastSymbol ω) := do
  let d := { d with reps := d.reps.shift, state := updateStateMatch d.state }
  let (len, d, input) ← d.fastLen offLenCoder posState input
  let (dist, d, input) ← d.fastDistance (min len (kNumLenToPosStates - 1)) input
  if dist = 0xFFFFFFFF then
    return { decoder := d, input, written := [], finish := some .finishedWithMark }
  else if d.dictSize ≤ dist ∨ ¬ checkDistance d.window dist.toNat then
    return { decoder := d, input, written := [], finish := some .finishedWithMark }
  else
    emitMatch { d with reps := { d.reps with r0 := dist } } input dist (len + kMatchMinLen)

/-- The length and the copy of a rep match whose distance is at the front. -/
def fastRepMatch (d : LzmaDecoder ω) (posState : Nat) (input : List Byte) :
    Except Fault (FastSymbol ω) := do
  let d := { d with state := updateStateRep d.state }
  let (len, d, input) ← d.fastLen offRepLenCoder posState input
  emitMatch d input d.reps.r0 (len + kMatchMinLen)

def fastRep (d : LzmaDecoder ω) (posState : Nat) (input : List Byte) :
    Except Fault (FastSymbol ω) := do
  if isEmpty d.window then
    return { decoder := d, input, written := [], finish := some .finishedWithMark }
  else
    let st := d.state
    let (isRepG0, d, input) ← d.fastBit (offIsRepG0 + st) input
    if isRepG0 = 0 then
      let (isLong, d, input) ←
        d.fastBit (offIsRep0Long + (st * kNumPosStatesMax + posState)) input
      if isLong = 0 then
        let b ← getByte d.window (d.reps.r0.toNat + 1)
        return {
          decoder := { d with
            state := updateStateShortRep d.state
            window := putByteDirect d.window b
            decodedSize := d.decodedSize + 1 }
          input
          written := [b]
          finish := none }
      else fastRepMatch d posState input
    else
      let (isRepG1, d, input) ← d.fastBit (offIsRepG1 + st) input
      if isRepG1 = 0 then fastRepMatch { d with reps := d.reps.takeRep1 } posState input
      else
        let (isRepG2, d, input) ← d.fastBit (offIsRepG2 + st) input
        if isRepG2 = 0 then fastRepMatch { d with reps := d.reps.takeRep2 } posState input
        else fastRepMatch { d with reps := d.reps.takeRep3 } posState input

def fastSymbol (d : LzmaDecoder ω) (input : List Byte) : Except Fault (FastSymbol ω) := do
  let posState := d.posState
  let st := d.state
  let (isMatch, d, input) ← d.fastBit (offIsMatch + (st * kNumPosStatesMax + posState)) input
  if isMatch = 0 then fastLiteral d input
  else
    let (isRep, d, input) ← d.fastBit (offIsRep + st) input
    if isRep = 0 then fastMatch d posState input else fastRep d posState input

/-- Worst-case compressed bytes consumed by one symbol. -/
def inMargin : Nat := 64

/-- Maximum bytes one symbol can produce. -/
def outMargin : Nat := 273

/-- Where a decode call stands: the decoder, `input[in_pos..]`, `output[..out_pos]`, and the
length of the output buffer. -/
structure Cursor (ω : Type) where
  decoder : LzmaDecoder ω
  input : List Byte
  out : List Byte
  room : Nat

/-- Decode whole symbols while ample input and output margins remain.  Every symbol writes
a byte, so the fuel is not used up. -/
def decodeFast : Nat → Cursor ω → Except Fault (Cursor ω)
  | 0, _ => .error .panic
  | fuel + 1, c =>
    if c.input.length < inMargin ∨ c.room < c.out.length + outMargin then .ok c
    else if c.decoder.reachedUnpackSize then .ok c
    else do
      let s ← fastSymbol c.decoder c.input
      if c.room < c.out.length + s.written.length then throw .panic
      else
        let out := c.out ++ s.written
        match s.finish with
        | some status =>
          return { c with
            decoder := { s.decoder with phase := .finished status }, input := s.input, out }
        | none => decodeFast fuel { c with decoder := s.decoder, input := s.input, out }

namespace Cursor

/-- Drain pending output. -/
def drain (c : Cursor ω) : Cursor ω :=
  let (drained, window) := drainOutput c.decoder.window (c.room - c.out.length)
  { c with decoder := { c.decoder with window }, out := c.out ++ drained }

/-- Take up what a resumable function left; it returns to the caller where it needs input. -/
def resume {α : Type} (c : Cursor ω) (r : Resumed ω α) (k : α → Cursor ω → Cursor ω) :
    Option LzmaDecodeStatus × Cursor ω :=
  let c := { c with decoder := r.decoder, input := r.input }
  match r.value with
  | none => (some .needInput, c)
  | some a => (none, k a c)

end Cursor

/-- The length of a match decoded. -/
def afterLength (d : LzmaDecoder ω) (matchType : MatchType) (len : Nat) : LzmaDecoder ω :=
  match matchType with
  | .simple =>
    let lenState := if kNumLenToPosStates ≤ len then kNumLenToPosStates - 1 else len
    { d with
      phase := .matchDistance (len + kMatchMinLen) lenState
      distDecodeState := some { lenState, phase := .posSlot 1 6 } }
  | _ => d.startCopyMatch d.reps.r0 (len + kMatchMinLen)

/-- The distance of a match decoded. -/
def afterDistance (d : LzmaDecoder ω) (len : Nat) (dist : UInt32) : LzmaDecoder ω :=
  if dist = 0xFFFFFFFF then { d with phase := .finished .finishedWithMark }
  else if d.dictSize ≤ dist ∨ ¬ checkDistance d.window dist.toNat then
    { d with phase := .finished .finishedWithMark }
  else { d with reps := { d.reps with r0 := dist } }.startCopyMatch dist len

/-- A new symbol: the fast path, and then one symbol the resumable way. -/
def decodeNewSymbol (c : Cursor ω) : Except Fault (Option LzmaDecodeStatus × Cursor ω) := do
  let c ← decodeFast (c.room + 1) c
  let d := c.decoder
  if d.phase ≠ .newSymbol then return (none, c)
  else if d.reachedUnpackSize then
    return (none, { c with decoder := { d with phase := .finished .finishedWithoutMark } })
  else
    let posState := d.posState
    match ← d.bit (offIsMatch + (d.state * kNumPosStatesMax + posState)) c.input with
    | none => return (some .needInput, c)
    | some (isMatch, d, input) =>
      if isMatch = 0 then
        let d ← d.startLiteralDecode
        return (none, { c with decoder := d, input })
      else
        let r ← d.decodeIsRep input posState
        return c.resume r fun _ c => c

/-- Copy as many bytes of a match as fit. -/
def decodeCopyMatch (c : Cursor ω) (dist : UInt32) (remaining : Nat) :
    Except Fault (Option LzmaDecodeStatus × Cursor ω) := do
  let d := c.decoder
  let toCopy := min remaining (c.room - c.out.length)
  let window ← copyBytes (dist.toNat + 1) toCopy d.window
  let c := { c with decoder := { d with window } }.drain
  let d := { c.decoder with decodedSize := d.decodedSize + toCopy }
  if 0 < remaining - toCopy then
    return (some .continue, { c with decoder := { d with phase := .copyMatch dist (remaining - toCopy) } })
  else return (none, { c with decoder := { d with phase := .newSymbol } })

/-- The work of one round of the decode loop, in the phase the decoder is in. -/
def decodePhase (c : Cursor ω) : Except Fault (Option LzmaDecodeStatus × Cursor ω) :=
  let d := c.decoder
  match d.phase with
  | .finished status => .ok (some status, c)
  | .copyMatch dist remaining => decodeCopyMatch c dist remaining
  | .newSymbol => decodeNewSymbol c
  | .needIsRep posState => do return c.resume (← d.decodeIsRep c.input posState) fun _ c => c
  | .needRepG0 posState => do return c.resume (← d.decodeRepType c.input posState) fun _ c => c
  | .needRep0Long posState => do return c.resume (← d.decodeRep0Long c.input posState) fun _ c => c
  | .needRepG1 posState => do return c.resume (← d.decodeRepG1 c.input posState) fun _ c => c
  | .needRepG2 posState => do return c.resume (← d.decodeRepG2 c.input posState) fun _ c => c
  | .literal ls => do
    return c.resume (← d.continueLiteralDecode c.input (c.room - c.out.length) ls)
      fun drained c => { c with out := c.out ++ drained }
  | .matchLength matchType => do
    return c.resume (← d.decodeLength c.input)
      fun len c => { c with decoder := c.decoder.afterLength matchType len }
  | .matchDistance len _ => do
    return c.resume (← d.decodeDistance c.input)
      fun dist c => { c with decoder := c.decoder.afterDistance len dist }

/-- One round of the decode loop: a status to return, or nothing yet. -/
def decodeOnce (c : Cursor ω) : Except Fault (Option LzmaDecodeStatus × Cursor ω) :=
  if 0 < pendingLen c.decoder.window then
    let c := c.drain
    if 0 < pendingLen c.decoder.window ∨ c.room ≤ c.out.length then .ok (some .continue, c)
    else decodePhase c
  else decodePhase c

def decodeLoop : Nat → Cursor ω → Except Fault (LzmaDecodeStatus × Cursor ω)
  | 0, _ => .error .panic
  | fuel + 1, c => do
    match ← decodeOnce c with
    | (some status, c) => return (status, c)
    | (none, c) => decodeLoop fuel c

/-- Rounds enough for a buffer of this length: a symbol takes at most five rounds and
writes a byte. -/
def decodeFuel (room : Nat) : Nat := 6 * (room + 2)

namespace Cursor

/-- Initialize the range coder if it has not been.  The flag says whether it is. -/
def initRange (c : Cursor ω) : Bool × Cursor ω :=
  if c.decoder.rcInitialized then (true, c)
  else
    let (ok, rangeDecoder, input) := c.decoder.rangeDecoder.init c.input
    (ok, { c with decoder := { c.decoder with rangeDecoder, rcInitialized := ok }, input })

/-- What the call reports, `input` being what it was called with. -/
def finish (c : Cursor ω) (input : List Byte) (status : LzmaDecodeStatus) :
    LzmaDecodeResult × LzmaDecoder ω :=
  ({ bytesConsumed := input.length - c.input.length, produced := c.out, status }, c.decoder)

/-- The status of a call that had only to drain what was pending. -/
def drainedStatus (c : Cursor ω) : LzmaDecodeStatus :=
  match c.decoder.phase with
  | .finished s => if pendingLen c.decoder.window = 0 then s else .continue
  | _ => .continue

end Cursor

/-- Decode until the loop returns, once the range coder is initialized. -/
def decodeFrom (c : Cursor ω) : Except Fault (LzmaDecodeStatus × Cursor ω) :=
  match c.initRange with
  | (false, c) => .ok (.needInput, c)
  | (true, c) => decodeLoop (decodeFuel c.room) c

/-- Decode from `input` into an output buffer of length `room` (through the window). -/
def decode (d : LzmaDecoder ω) (input : List Byte) (room : Nat) :
    Except Fault (LzmaDecodeResult × LzmaDecoder ω) := do
  let start : Cursor ω := { decoder := d, input, out := [], room }
  let c := if 0 < pendingLen d.window then start.drain else start
  if 0 < pendingLen d.window ∧ (0 < pendingLen c.decoder.window ∨ room ≤ c.out.length) then
    return c.finish input c.drainedStatus
  else
    let (status, c) ← decodeFrom c
    return c.finish input status

end LzmaDecoder
end Iluvatar
