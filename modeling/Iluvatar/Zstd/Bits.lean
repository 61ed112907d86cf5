/-
Bit readers for zstd bitstreams.

A position in the stream is a count of bits, as the source has it; a value read is a
number.
-/
import Iluvatar.Compress.Decompressor

namespace Iluvatar

/-- What stops the decoder: an error with its text, a panic, or a loop without an end. -/
inductive ZstdFault where
  | error (text : String)
  | panic
  | endless
  deriving DecidableEq, Repr

/-- A forward bit reader.  `bitPos` is the position in the current byte. -/
structure ForwardBitReader where
  data : List Byte
  bytePos : Nat
  bitPos : Nat
  deriving DecidableEq, Repr

namespace ForwardBitReader

def new (data : List Byte) : ForwardBitReader := { data, bytePos := 0, bitPos := 0 }

/-- Total bits consumed so far. -/
def bitsConsumed (r : ForwardBitReader) : Nat := r.bytePos * 8 + r.bitPos

/-- Bytes consumed, rounded up. -/
def bytesConsumed (r : ForwardBitReader) : Nat := (r.bitsConsumed + 7) / 8

/-- The loop of `readBits`: a turn takes what it can of the current byte. -/
def gather (n : Nat) : Nat → ForwardBitReader → Nat → Nat → Except String (Nat × ForwardBitReader)
  | 0, r, result, _ => .ok (result, r)
  | fuel + 1, r, result, bitsRead =>
    if bitsRead < n then
      match r.data[r.bytePos]? with
      | none => .error "read past end of bitstream"
      | some byte =>
        let toRead := min (n - bitsRead) (8 - r.bitPos)
        let bits := byte.toNat >>> r.bitPos &&& (2 ^ toRead - 1)
        let bitPos := r.bitPos + toRead
        let r :=
          if 8 ≤ bitPos then { r with bitPos := 0, bytePos := r.bytePos + 1 }
          else { r with bitPos }
        gather n fuel r (result ||| bits <<< bitsRead) (bitsRead + toRead)
    else .ok (result, r)

/-- Read up to 25 bits, from the low end of each byte. -/
def readBits (r : ForwardBitReader) (n : Nat) : Except String (Nat × ForwardBitReader) :=
  if n = 0 then .ok (0, r)
  else if 25 < n then .error "too many bits requested"
  else gather n n r 0 0

end ForwardBitReader

/-- `floor(log2(x))`; there is none for 0. -/
def highestBit (x : Nat) : Except ZstdFault Nat :=
  if x = 0 then .error .panic else .ok (Nat.log2 x)

/-! ## The sequence bitstream -/

/-- The number that bytes stand for, the low end first. -/
def littleEndian : List Byte → Nat
  | [] => 0
  | b :: bs => b.toNat + 2 ^ 8 * littleEndian bs

/-- Up to 8 bytes from `byteIdx` on, with zeros past the end of the data. -/
def loadU64Le (data : List Byte) (byteIdx : Nat) : Nat := littleEndian ((data.drop byteIdx).take 8)

/-- `n` bits from bit `lo` on, at most 56 as a debug build asserts; bits past the end read as zero. -/
def extractBits (data : List Byte) (lo n : Nat) : Nat :=
  if n = 0 then 0 else loadU64Le data (lo >>> 3) >>> (lo &&& 7) &&& (2 ^ n - 1)

/-- How many bits a backward bitstream holds: those below the leading 1 of its last byte. -/
def streamBits (data : List Byte) : Except ZstdFault Nat :=
  match data.getLast? with
  | none => .error (.error "empty bitstream")
  | some last =>
    if last = 0 then .error (.error "last byte of bitstream is 0 (no init bit)")
    else .ok ((data.length - 1) * 8 + Nat.log2 last.toNat)

/-- Backward bit reader for the sequence bitstream.  `rem` is negative once reads have run
past the start of the stream; `cache` holds the next bits at its high end, `cbits` of them
to be read before the next refill. -/
structure SeqBitReader where
  data : List Byte
  rem : Int
  cache : Nat
  cbits : Nat
  deriving DecidableEq, Repr

namespace SeqBitReader

/-- Bits guaranteed readable after a `refill`. -/
def refillBits : Nat := 56

/-- Cache contents when fewer than 56 bits remain. -/
def tailCache (data : List Byte) (rem : Int) : Nat :=
  if rem ≤ 0 then 0 else extractBits data 0 rem.toNat <<< (64 - rem.toNat) % 2 ^ 64

/-- Top up the cache. -/
def refill (r : SeqBitReader) : SeqBitReader :=
  { r with
    cache :=
      if 56 ≤ r.rem then
        let lo := (r.rem - 56).toNat
        (loadU64Le r.data (lo >>> 3) >>> (lo &&& 7)) <<< 8 % 2 ^ 64
      else tailCache r.data r.rem
    cbits := refillBits }

def new (data : List Byte) : Except ZstdFault SeqBitReader := do
  let total ← streamBits data
  .ok { data, rem := total, cache := 0, cbits := 0 : SeqBitReader }.refill

/-- Drop `n` bits. -/
def consume (r : SeqBitReader) (n : Nat) : Except ZstdFault SeqBitReader :=
  if r.cbits < n then .error .panic
  else .ok { r with cache := r.cache <<< n % 2 ^ 64, cbits := r.cbits - n, rem := r.rem - n }

/-- Peek `n` bits, `skip` bits into the cache. -/
def peekAt (r : SeqBitReader) (skip n : Nat) : Except ZstdFault Nat :=
  if r.cbits < skip + n then .error .panic
  else .ok ((r.cache <<< skip % 2 ^ 64) >>> 1 >>> (63 - n))

/-- Read `n` bits. -/
def read (r : SeqBitReader) (n : Nat) : Except ZstdFault (Nat × SeqBitReader) := do
  let v ← r.peekAt 0 n
  let r ← r.consume n
  .ok (v, r)

/-- Bits that may still be read before the next refill. -/
def available (r : SeqBitReader) : Nat := r.cbits

/-- Whether more bits were read than the stream contains. -/
def isOverflowed (r : SeqBitReader) : Bool := decide (r.rem < 0)

end SeqBitReader

end Iluvatar
