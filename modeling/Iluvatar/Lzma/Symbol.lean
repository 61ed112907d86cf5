/-
LZMA decoding as a machine that takes one bit, or copies one byte, at a time.

The machine's states are the decoder's own, with nothing pending; it stands between any
two bits, where the code stands only when it has run out of input or room.
-/
import Iluvatar.Library.Machine
import Iluvatar.Lzma.History

namespace Iluvatar

open Sansio

/-- A decoder over the abstract window. -/
abbrev SymbolState := LzmaDecoder History

/-- A step of the machine: it halts with the status the decoder finishes with, or fails. -/
abbrev SymbolNext := Next SymbolState (Except Fault LzmaDecodeStatus) Byte Byte

namespace SymbolState

open LzmaDecoder LzmaWindow

/-- Decode the bit at `idx` and go on as `k` says. -/
def onBit (d : SymbolState) (idx : Nat) (input : List Byte)
    (k : Nat → SymbolState → Except Fault (SymbolState × List Byte)) : SymbolNext :=
  match d.bit idx input with
  | .error f => .halt (.error f)
  | .ok none => .need
  | .ok (some (b, d, rest)) =>
    match k b d with
    | .error f => .halt (.error f)
    | .ok (d, out) => .move d rest out

/-- Decode a direct bit and go on as `k` says. -/
def onDirectBit (d : SymbolState) (input : List Byte) (k : Nat → SymbolState → SymbolState) :
    SymbolNext :=
  match d.rangeDecoder.decodeDirectBit input with
  | none => .need
  | some (b, rangeDecoder, rest) => .move (k b { d with rangeDecoder }) rest []

/-- One byte of the range coder's initialization. -/
def initStep (d : SymbolState) : List Byte → SymbolNext
  | [] => .need
  | b :: rest =>
    let (ok, rangeDecoder, _) := d.rangeDecoder.init [b]
    .move { d with rangeDecoder, rcInitialized := ok } rest []

def newSymbolStep (d : SymbolState) (input : List Byte) : SymbolNext :=
  if d.reachedUnpackSize then .move { d with phase := .finished .finishedWithoutMark } input []
  else
    let posState := d.posState
    onBit d (offIsMatch + (d.state * kNumPosStatesMax + posState)) input fun b d =>
      if b = 0 then do return (← d.startLiteralDecode, [])
      else return ({ d with phase := .needIsRep posState }, [])

def isRepStep (d : SymbolState) (posState : Nat) (input : List Byte) : SymbolNext :=
  onBit d (offIsRep + d.state) input fun b d =>
    if b = 0 then
      return ({ d with
        reps := d.reps.shift
        state := updateStateMatch d.state
        phase := .matchLength .simple
        lenDecodeState := some { isRep := false, posState, phase := .choice } }, [])
    else return ({ d with phase := .needRepG0 posState }, [])

def repG0Step (d : SymbolState) (posState : Nat) (input : List Byte) : SymbolNext :=
  if d.reachedUnpackSize then .move { d with phase := .finished .finishedWithoutMark } input []
  else if isEmpty d.window then .move { d with phase := .finished .finishedWithMark } input []
  else
    onBit d (offIsRepG0 + d.state) input fun b d =>
      return ({ d with phase := if b = 0 then .needRep0Long posState else .needRepG1 posState }, [])

def rep0LongStep (d : SymbolState) (posState : Nat) (input : List Byte) : SymbolNext :=
  onBit d (offIsRep0Long + (d.state * kNumPosStatesMax + posState)) input fun b d =>
    if b = 0 then do
      let byte ← getByte d.window (d.reps.r0.toNat + 1)
      return ({ d with
        state := updateStateShortRep d.state
        window := d.window.put byte
        decodedSize := d.decodedSize + 1
        phase := .newSymbol }, [byte])
    else return (d.startRepLength .rep0 posState, [])

def repG1Step (d : SymbolState) (posState : Nat) (input : List Byte) : SymbolNext :=
  onBit d (offIsRepG1 + d.state) input fun b d =>
    if b = 0 then return ({ d with reps := d.reps.takeRep1 }.startRepLength .rep1 posState, [])
    else return ({ d with phase := .needRepG2 posState }, [])

def repG2Step (d : SymbolState) (posState : Nat) (input : List Byte) : SymbolNext :=
  onBit d (offIsRepG2 + d.state) input fun b d =>
    if b = 0 then return ({ d with reps := d.reps.takeRep2 }.startRepLength .rep2 posState, [])
    else return ({ d with reps := d.reps.takeRep3 }.startRepLength .rep3 posState, [])

/-- The literal a full symbol stands for. -/
def literalByte (ls : LiteralState) : Byte := UInt8.ofNat (ls.symbol - 0x100)

/-- The symbol is full: its byte goes into the window. -/
def finishLiteral (d : SymbolState) (ls : LiteralState) : SymbolState :=
  { d with
    window := d.window.put (literalByte ls)
    state := updateStateLiteral d.state
    decodedSize := d.decodedSize + 1
    phase := .newSymbol }

def literalStep (d : SymbolState) (ls : LiteralState) (input : List Byte) : SymbolNext :=
  let offset := baseProbsSize + kLzmaLitSize * ls.litState
  if 0x100 ≤ ls.symbol then .move (finishLiteral d ls) input [literalByte ls]
  else if ls.matched then
    let matchBit := (ls.matchByte >>> 7).toNat % 2
    onBit d (offset + (1 + matchBit) * 0x100 + ls.symbol) input fun b d =>
      let ls := { ls with matchByte := ls.matchByte <<< 1, symbol := 2 * ls.symbol + b }
      return ({ d with phase := .literal (if matchBit ≠ b then { ls with matched := false } else ls) }, [])
  else
    onBit d (offset + ls.symbol) input fun b d =>
      return ({ d with phase := .literal { ls with symbol := 2 * ls.symbol + b } }, [])

/-- The state of the length decoder while it decodes. -/
def withLen (d : SymbolState) (lds : LenDecodeState) (phase : LenPhase) : SymbolState :=
  { d with lenDecodeState := some { lds with phase } }

def lenTreeStep (d : SymbolState) (matchType : MatchType) (lds : LenDecodeState) (coder : LenCoder)
    (m n : Nat) (input : List Byte) : SymbolNext :=
  match n with
  | 0 => .move ({ d with lenDecodeState := none }.afterLength matchType (coder.value m)) input []
  | n + 1 =>
    onBit d (lenBase lds.isRep + coder.offset lds.posState + m) input fun b d =>
      return (withLen d lds (coder.phase (2 * m + b) n), [])

def lengthStep (d : SymbolState) (matchType : MatchType) (input : List Byte) : SymbolNext :=
  let lds := d.lenDecodeState.getD { isRep := false, posState := 0, phase := .choice }
  match lds.phase with
  | .choice =>
    onBit d (lenBase lds.isRep) input fun b d =>
      return (withLen d lds (if b = 0 then .low 1 kLenNumLowBits else .choice2), [])
  | .choice2 =>
    onBit d (lenBase lds.isRep + 1) input fun b d =>
      return (withLen d lds (if b = 0 then .mid 1 kLenNumMidBits else .high 1 kLenNumHighBits), [])
  | .low m n => lenTreeStep d matchType lds .low m n input
  | .mid m n => lenTreeStep d matchType lds .mid m n input
  | .high m n => lenTreeStep d matchType lds .high m n input

/-- The state of the distance decoder while it decodes. -/
def withDist (d : SymbolState) (lenState : Nat) (phase : DistPhase) : SymbolState :=
  { d with distDecodeState := some { lenState, phase } }

/-- The distance is known. -/
def finishDistance (d : SymbolState) (len : Nat) (dist : UInt32) : SymbolState :=
  { d with distDecodeState := none }.afterDistance len dist

/-- The position slot is known: it is the distance, or more bits follow. -/
def afterPosSlot (d : SymbolState) (len lenState posSlot : Nat) : SymbolState :=
  if posSlot < kStartPosModelIndex then finishDistance d len (UInt32.ofNat posSlot)
  else
    let numDirectBits := posSlot / 2 - 1
    let distInitial := UInt32.ofNat (2 + posSlot % 2)
    if posSlot < kEndPosModelIndex then
      let distBase := distInitial <<< UInt32.ofNat numDirectBits
      withDist d lenState
        (.specPosBits distBase (offPosDecoders + distBase.toNat - posSlot) 1 0 0 numDirectBits)
    else withDist d lenState (.directBits distInitial (numDirectBits - kNumAlignBits))

def distanceStep (d : SymbolState) (len : Nat) (input : List Byte) : SymbolNext :=
  match d.distDecodeState with
  | none => .halt (.error .panic)
  | some dds =>
    match dds.phase with
    | .posSlot m 0 => .move (afterPosSlot d len dds.lenState (m - 64)) input []
    | .posSlot m (n + 1) =>
      onBit d (offPosSlot + dds.lenState * 64 + m) input fun b d =>
        return (withDist d dds.lenState (.posSlot (2 * m + b) n), [])
    | .directBits dist 0 => .move (withDist d dds.lenState (.alignBits (dist <<< 4) 1 0 0)) input []
    | .directBits dist (n + 1) =>
      onDirectBit d input fun b d =>
        withDist d dds.lenState (.directBits (dist <<< 1 + UInt32.ofNat b) n)
    | .alignBits dist m symbol i =>
      if i < kNumAlignBits then
        onBit d (offAlign + m) input fun b d =>
          return (withDist d dds.lenState (.alignBits dist (2 * m + b)
            (symbol ||| UInt32.ofNat b <<< UInt32.ofNat i) (i + 1)), [])
      else .move (finishDistance d len (dist ||| symbol)) input []
    | .specPosBits dist probsOffset m symbol i numBits =>
      if i < numBits then
        onBit d (probsOffset + m) input fun b d =>
          return (withDist d dds.lenState (.specPosBits dist probsOffset (2 * m + b)
            (symbol ||| UInt32.ofNat b <<< UInt32.ofNat i) (i + 1) numBits), [])
      else .move (finishDistance d len (dist + symbol)) input []

def copyStep (d : SymbolState) (dist : UInt32) (remaining : Nat) (input : List Byte) : SymbolNext :=
  match remaining with
  | 0 => .move { d with phase := .newSymbol } input []
  | n + 1 =>
    match getByte d.window (dist.toNat + 1) with
    | .error f => .halt (.error f)
    | .ok b =>
      .move { d with
        window := d.window.put b
        decodedSize := d.decodedSize + 1
        phase := .copyMatch dist n } input [b]

def step (d : SymbolState) (input : List Byte) : SymbolNext :=
  if d.rcInitialized then
    match d.phase with
    | .finished status => .halt (.ok status)
    | .newSymbol => newSymbolStep d input
    | .needIsRep posState => isRepStep d posState input
    | .needRepG0 posState => repG0Step d posState input
    | .needRep0Long posState => rep0LongStep d posState input
    | .needRepG1 posState => repG1Step d posState input
    | .needRepG2 posState => repG2Step d posState input
    | .literal ls => literalStep d ls input
    | .matchLength matchType => lengthStep d matchType input
    | .matchDistance len _ => distanceStep d len input
    | .copyMatch dist remaining => copyStep d dist remaining input
  else initStep d input

end SymbolState
end Iluvatar
