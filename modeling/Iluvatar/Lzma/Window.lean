/-
The sliding window (dictionary) of the LZMA decoder: a circular buffer.

The operations are the code's, each with the indexing that panics when it is out of bounds.
-/
import Iluvatar.Library.Buffer
import Iluvatar.Library.Fallible
import Iluvatar.Lzma.Decoder

namespace Iluvatar

open Buffer

structure SlidingWindow where
  buf : List Byte
  pos : Nat
  size : Nat
  isFull : Bool
  totalPos : Nat
  pendingOut : List Byte
  deriving DecidableEq, Repr

namespace SlidingWindow

def new (dictSize : UInt32) : SlidingWindow :=
  let size := (max dictSize kDicMin).toNat
  { buf := List.replicate size 0, pos := 0, size, isFull := false, totalPos := 0, pendingOut := [] }

/-- Move the cursor over `n` bytes written to the buffer. -/
def advance (w : SlidingWindow) (n : Nat) : SlidingWindow :=
  let pos := w.pos + n
  if pos = w.size then { w with pos := 0, totalPos := w.totalPos + n, isFull := true }
  else { w with pos, totalPos := w.totalPos + n }

def putByteDirect (w : SlidingWindow) (b : Byte) : SlidingWindow :=
  advance { w with buf := w.buf.set w.pos b } 1

def putByte (w : SlidingWindow) (b : Byte) : SlidingWindow :=
  { w.putByteDirect b with pendingOut := w.pendingOut ++ [b] }

def index (buf : List Byte) (i : Nat) : Except Fault Byte :=
  match buf[i]? with
  | none => .error .panic
  | some b => .ok b

def getByte (w : SlidingWindow) (dist : Nat) : Except Fault Byte :=
  if dist ≤ w.pos then index w.buf (w.pos - dist)
  else if w.size < dist then .error .panic
  else index w.buf (w.size - dist + w.pos)

/-- The slice `buf[s..s + n]`. -/
def read (buf : List Byte) (s n : Nat) : Except Fault (List Byte) :=
  if s + n ≤ buf.length then .ok (slice buf s n) else .error .panic

/-- `copy_from_slice` into `buf[s..]`. -/
def write (buf : List Byte) (s : Nat) (bs : List Byte) : Except Fault (List Byte) :=
  if s + bs.length ≤ buf.length then .ok (splice buf s bs) else .error .panic

/-- Write a run of bytes, chunked around the circular buffer boundary. -/
def putSlice : Nat → SlidingWindow → List Byte → Except Fault SlidingWindow
  | 0, _, _ => .error .panic
  | fuel + 1, w, src =>
    if src = [] then .ok w
    else do
      let n := min src.length (w.size - w.pos)
      let buf ← write w.buf w.pos (src.take n)
      putSlice fuel (advance { w with buf } n) (src.drop n)

def putSliceDirect (w : SlidingWindow) (data : List Byte) : Except Fault SlidingWindow :=
  putSlice (data.length + 1) w data

/-- The byte loop of a short match or a short period. -/
def copyShort (src dst : Nat) : Nat → Nat → List Byte → List Byte →
    Except Fault (List Byte × List Byte)
  | 0, _, buf, out => .ok (buf, out)
  | n + 1, k, buf, out => do
    let b ← index buf (src + k)
    let buf ← write buf (dst + k) [b]
    let out ← write out k [b]
    copyShort src dst n (k + 1) buf out

/-- The loop over chunks of `m` bytes from `k` on, the last of which ends at `len`. -/
def copyChunks (src dst len m : Nat) : Nat → Nat → List Byte → List Byte →
    Except Fault (List Byte × List Byte)
  | 0, _, _, _ => .error .panic
  | fuel + 1, k, buf, out => do
    let chunk ← read buf (src + k) m
    let buf ← write buf (dst + k) chunk
    let out ← write out k chunk
    if k + m = len then return (buf, out)
    else copyChunks src dst len m fuel (min (k + m) (len - m)) buf out

/-- The loop that writes a run of one byte. -/
def fillRun (b : Byte) : Nat → Nat → SlidingWindow → Except Fault SlidingWindow
  | 0, _, _ => .error .panic
  | fuel + 1, remaining, w =>
    if remaining = 0 then .ok w
    else do
      let n := min remaining (w.size - w.pos)
      let buf ← write w.buf w.pos (List.replicate n b)
      fillRun b fuel (remaining - n) (advance { w with buf } n)

/-- The loop whose chunks neither wrap nor overlap the write cursor. -/
def copyWrapping (dist : Nat) : Nat → Nat → Nat → SlidingWindow → List Byte →
    Except Fault (List Byte × SlidingWindow)
  | 0, _, _, _, _ => .error .panic
  | fuel + 1, remaining, outOff, w, out =>
    if remaining = 0 then .ok (out, w)
    else do
      let src := if dist ≤ w.pos then w.pos - dist else w.size - (dist - w.pos)
      let n := min (min (min remaining (w.size - src)) (w.size - w.pos)) dist
      let chunk ← read w.buf src n
      let buf ← write w.buf w.pos chunk
      let out ← write out outOff chunk
      copyWrapping dist fuel (remaining - n) (outOff + n) (advance { w with buf } n) out

/-- The copy where neither source nor destination wraps: what it makes of the buffer and of
`out`. -/
def copyNear (w : SlidingWindow) (dist len : Nat) (out : List Byte) :
    Except Fault (List Byte × List Byte) :=
  let src := w.pos - dist
  if len < 8 ∨ dist < 8 then copyShort src w.pos len 0 w.buf out
  else if 16 ≤ dist ∧ 16 ≤ len then copyChunks src w.pos len 16 (len + 1) 0 w.buf out
  else copyChunks src w.pos len 8 (len + 1) 0 w.buf out

/-- Replicate `len` bytes from `dist` back into the window and into `out`, a slice of at least
`len` bytes. -/
def copyMatchInto (w : SlidingWindow) (dist len : Nat) (out : List Byte) :
    Except Fault (List Byte × SlidingWindow) :=
  if dist ≤ w.pos ∧ w.pos + len ≤ w.size ∧ (8 ≤ len ∧ 8 ≤ dist ∨ len < 16) then do
    let (buf, out) ← copyNear w dist len out
    return (out, advance { w with buf } len)
  else if dist = 1 then do
    let b ← w.getByte 1
    let out ← write out 0 (List.replicate len b)
    return (out, ← fillRun b (len + 1) len w)
  else copyWrapping dist (len + 1) len 0 w out

/-- The copy into a slice of just `len` bytes. -/
def copyMatchTo (w : SlidingWindow) (dist len : Nat) : Except Fault (List Byte × SlidingWindow) :=
  w.copyMatchInto dist len (List.replicate len 0)

def checkDistance (w : SlidingWindow) (dist : Nat) : Bool :=
  if w.isFull then dist < w.size else dist < w.pos

def isEmpty (w : SlidingWindow) : Bool := w.pos = 0 ∧ w.isFull = false

/-- Drain pending output into a slice of `room` bytes. -/
def drainOutput (w : SlidingWindow) (room : Nat) : List Byte × SlidingWindow :=
  let n := min w.pendingOut.length room
  (w.pendingOut.take n, { w with pendingOut := w.pendingOut.drop n })

/-- The live window contents, oldest first. -/
def getWindowData (w : SlidingWindow) : List Byte :=
  if w.isFull then w.buf.drop w.pos ++ w.buf.take w.pos else w.buf.take w.pos

end SlidingWindow
end Iluvatar
