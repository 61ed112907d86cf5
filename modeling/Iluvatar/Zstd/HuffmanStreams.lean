/-
Literals decoded with a Huffman table: from one stream, and from four at once.

Four streams are decoded in rounds of several symbols each while they are all far from their start
and from the end of their share of the output; each is then finished by itself.
-/
import Iluvatar.Compress.Filter
import Iluvatar.Zstd.Huffman

namespace Iluvatar

/-- Subtraction of counts, which must not underflow. -/
def checkedSub (a b : Nat) : Except ZstdFault Nat := if a < b then .error .panic else .ok (a - b)

/-- The number of bits below the marker of a backward stream. -/
def initStreamBits (src : List Byte) : Except ZstdFault Nat :=
  match BackwardBitReader.new src with
  | .error _ => .error (.error "last byte is 0 in huffman stream")
  | .ok reader => .ok reader.bitsRemaining

/-- A stream under way: the bits left, and the next position of its share of the output. -/
structure HufStream where
  src : List Byte
  rem : Nat
  pos : Nat
  stop : Nat
  deriving DecidableEq, Repr

/-- A cache of the next bits at its high end, and how many they are. -/
structure HufCache where
  bits : UInt64
  cbits : Nat
  deriving DecidableEq, Repr

/-- Bits `[rem - avail, rem)` of the stream. -/
def HufStream.cache (s : HufStream) : HufCache :=
  let avail := min s.rem 56
  { bits := UInt64.ofNat (extractBits s.src (s.rem - avail) avail) <<< UInt64.ofNat (64 - avail), cbits := avail }

/-- The rest of a stream, as far as its bits go.  Without a cache it stands at the head of the outer
loop. -/
def decodeStreamTail (lookup : List UInt16) (tl : Nat) : Nat → Option HufCache → HufStream → List Byte →
    Except ZstdFault (HufStream × List Byte)
  | 0, _, _, _ => .error .endless
  | fuel + 1, none, s, out =>
    if s.pos < s.stop ∧ 0 < s.rem then decodeStreamTail lookup tl fuel (some s.cache) s out else .ok (s, out)
  | fuel + 1, some cache, s, out =>
    let (symbol, nb) := hufLookup lookup cache.bits
    let nb := nb.toNat
    if s.rem < nb then .ok (s, out)
    else if out.length ≤ s.pos then .error .panic
    else do
      let out := out.set s.pos symbol
      let cbits ← checkedSub cache.cbits nb
      let s := { s with pos := s.pos + 1, rem := s.rem - nb }
      if s.stop ≤ s.pos then .ok (s, out)
      else if cbits < tl ∧ cbits < s.rem then decodeStreamTail lookup tl fuel none s out
      else decodeStreamTail lookup tl fuel (some { bits := cache.bits <<< UInt64.ofNat nb, cbits }) s out

/-- Every symbol takes a turn of the inner loop, and at most one of the outer. -/
def HufStream.tail (t : HuffmanTable) (s : HufStream) (out : List Byte) : Except ZstdFault (HufStream × List Byte) :=
  decodeStreamTail t.lookup t.tableLog (2 * (s.stop - s.pos) + 2) none s out

/-- Literals in one stream; `out` has the regenerated size. -/
def decompressHuffman1Stream (t : HuffmanTable) (src out : List Byte) : Except ZstdFault (List Byte) :=
  if src.isEmpty then
    if out.isEmpty then .ok out else .error (.error "empty source for huffman 1-stream")
  else do
    let rem ← initStreamBits src
    if t.valid = false then .error (.error "invalid huffman table")
    else do
      let (s, decoded) ← { src, rem, pos := 0, stop := out.length : HufStream }.tail t out
      if s.pos ≠ out.length then
        .error (.error ("huffman 1-stream: decoded " ++ toString s.pos ++ " bytes, expected " ++ toString out.length))
      else .ok decoded

/-! ## Rounds of four streams -/

/-- What a round keeps for a stream: its cache, the symbols packed from the low end, the bits used. -/
structure HufLane where
  cache : UInt64
  word : UInt64
  used : Nat
  deriving DecidableEq, Repr

namespace HufLane

def load (s : HufStream) : Except ZstdFault HufLane := do
  let lo ← checkedSub s.rem 56
  .ok { cache := UInt64.ofNat (extractBits s.src lo 56) <<< 8, word := 0, used := 0 }

/-- Symbol `k` of a round. -/
def next (lookup : List UInt16) (k : Nat) (l : HufLane) : HufLane :=
  let (symbol, nb) := hufLookup lookup l.cache
  { cache := l.cache <<< nb.toUInt64
    word := l.word ||| symbol.toUInt64 <<< UInt64.ofNat (8 * k)
    used := l.used + nb.toNat }

/-- The first `k` symbols of every stream. -/
def symbols (lookup : List UInt16) : Nat → List HufLane → List HufLane
  | 0, lanes => lanes
  | k + 1, lanes => (symbols lookup k lanes).map (next lookup k)

/-- The symbols are written out. -/
def store (k : Nat) (s : HufStream) (l : HufLane) (out : List Byte) : Except ZstdFault (HufStream × List Byte) :=
  if out.length < s.pos + k then .error .panic
  else do
    let rem ← checkedSub s.rem l.used
    .ok ({ s with pos := s.pos + k, rem }, out.take s.pos ++ Filter.storeLe k l.word ++ out.drop (s.pos + k))

def storeAll (k : Nat) : List HufStream → List HufLane → List Byte → Except ZstdFault (List HufStream × List Byte)
  | s :: streams, l :: lanes, out => do
    let (s, out) ← store k s l out
    let (streams, out) ← storeAll k streams lanes out
    .ok (s :: streams, out)
  | _, _, out => .ok ([], out)

end HufLane

namespace HufStream

/-- A round: `k` symbols of every stream. -/
def round (lookup : List UInt16) (k : Nat) (streams : List HufStream) (out : List Byte) :
    Except ZstdFault (List HufStream × List Byte) := do
  let lanes ← streams.mapM HufLane.load
  HufLane.storeAll k streams (HufLane.symbols lookup k lanes) out

def rounds (lookup : List UInt16) (k : Nat) : Nat → List HufStream → List Byte →
    Except ZstdFault (List HufStream × List Byte)
  | 0, streams, out => .ok (streams, out)
  | n + 1, streams, out => do
    let (streams, out) ← round lookup k streams out
    rounds lookup k n streams out

/-- Number of rounds that can run without checks. -/
def roundsLeft (k maxBits : Nat) : List HufStream → Nat → Except ZstdFault Nat
  | [], rounds => .ok rounds
  | s :: streams, rounds => do
    let byBits := if 56 ≤ s.rem then (s.rem - 56) / maxBits + 1 else 0
    let room ← checkedSub s.stop s.pos
    roundsLeft k maxBits streams (min (min rounds byBits) (room / k))

/-- The loop of `decode4StreamsFast`. -/
def fastLoop (lookup : List UInt16) (k maxBits : Nat) : Nat → List HufStream → List Byte →
    Except ZstdFault (List HufStream × List Byte)
  | 0, _, _ => .error .endless
  | fuel + 1, streams, out => do
    let n ← roundsLeft k maxBits streams (2 ^ 64 - 1)
    if n = 0 then .ok (streams, out)
    else do
      let (streams, out) ← rounds lookup k n streams out
      fastLoop lookup k maxBits fuel streams out

end HufStream

/-- Bulk-decode the streams `k` symbols at a time. -/
def decode4StreamsFast (k : Nat) (t : HuffmanTable) (streams : List HufStream) (out : List Byte) :
    Except ZstdFault (List HufStream × List Byte) :=
  if k ≤ 8 ∧ k * t.tableLog ≤ 56 then HufStream.fastLoop t.lookup k (k * t.tableLog) (out.length + 1) streams out
  else .error .panic

/-- Each stream is finished with the general decoder, from stream `i` on. -/
def finishStreams (t : HuffmanTable) : Nat → List (HufStream × Nat) → List Byte → Except ZstdFault (List Byte)
  | _, [], out => .ok out
  | i, (s, start) :: streams, out => do
    let (s, out) ← s.tail t out
    if s.pos ≠ s.stop then
      .error (.error ("huffman 4-stream: stream " ++ toString (i + 1) ++ " decoded " ++ toString (s.pos - start) ++
        " bytes, expected " ++ toString (s.stop - start)))
    else finishStreams t (i + 1) streams out

/-- The streams that the jump table delimits. -/
def jumpTable (src : List Byte) : Except ZstdFault (List (List Byte)) :=
  match src with
  | a0 :: a1 :: b0 :: b1 :: c0 :: c1 :: streams =>
    let size1 := a0.toNat + a1.toNat * 2 ^ 8
    let size2 := b0.toNat + b1.toNat * 2 ^ 8
    let size3 := c0.toNat + c1.toNat * 2 ^ 8
    if streams.length < size1 + size2 + size3 then .error (.error "huffman 4-stream sizes exceed source")
    else
      .ok [streams.take size1, (streams.drop size1).take size2, (streams.drop (size1 + size2)).take size3,
        streams.drop (size1 + size2 + size3)]
  | _ => .error (.error "huffman 4-stream source too small for jump table")

/-- The shares of the output: the last one has what the others leave. -/
def shares (regenSize : Nat) : List Nat :=
  let segSize := (regenSize + 3) / 4
  let regen1 := min segSize regenSize
  let regen2 := min segSize (regenSize - segSize)
  let regen3 := min segSize (regenSize - 2 * segSize)
  [regen1, regen2, regen3, regenSize - (regen1 + regen2 + regen3)]

/-- The streams at their starts, their shares from `start` on. -/
def startStreams : Nat → List (List Byte) → List Nat → Except ZstdFault (List (HufStream × Nat))
  | start, src :: srcs, share :: rest => do
    let rem ← initStreamBits src
    let streams ← startStreams (start + share) srcs rest
    .ok (({ src, rem, pos := start, stop := start + share }, start) :: streams)
  | _, _, _ => .ok []

/-- Literals in four streams; `out` has the regenerated size. -/
def decompressHuffman4Streams (t : HuffmanTable) (src out : List Byte) : Except ZstdFault (List Byte) := do
  let srcs ← jumpTable src
  if t.valid = false then .error (.error "invalid huffman table")
  else if out.length = 0 then .ok out
  else if srcs.any (·.isEmpty) then .error (.error "empty source for huffman 4-stream")
  else do
    let streams ← startStreams 0 srcs (shares out.length)
    let (decoded, out) ← decode4StreamsFast (if t.tableLog ≤ 11 then 5 else 4) t (streams.map (·.1)) out
    finishStreams t 0 (decoded.zip (streams.map (·.2))) out

end Iluvatar
