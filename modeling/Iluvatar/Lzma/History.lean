/-
What the sliding window is for: the bytes decoded last, as far back as the dictionary
reaches.

The bytes are kept newest first, so a byte's distance is its place in the list plus one,
and a place nothing was written to reads as zero.
-/
import Iluvatar.Lzma.Decoder

namespace Iluvatar

structure History where
  size : Nat
  bytes : List Byte
  totalPos : Nat
  pending : List Byte
  deriving DecidableEq, Repr

namespace History

def new (dictSize : UInt32) : History :=
  { size := (max dictSize kDicMin).toNat, bytes := [], totalPos := 0, pending := [] }

def getByte (w : History) (dist : Nat) : Except Fault Byte :=
  if dist = 0 ∨ w.size < dist then .error .panic else .ok (w.bytes[dist - 1]?.getD 0)

def put (w : History) (b : Byte) : History :=
  { w with bytes := (b :: w.bytes).take w.size, totalPos := w.totalPos + 1 }

def putByte (w : History) (b : Byte) : History :=
  { w.put b with pending := w.pending ++ [b] }

/-- `n` bytes copied from `dist` back, each in its turn. -/
def copyMatchTo (dist : Nat) : Nat → History → Except Fault (List Byte × History)
  | 0, w => .ok ([], w)
  | n + 1, w => do
    let b ← w.getByte dist
    let (bs, w) ← copyMatchTo dist n (w.put b)
    return (b :: bs, w)

instance : LzmaWindow History where
  new := new
  totalPos := totalPos
  isEmpty w := w.bytes.isEmpty
  checkDistance w dist := dist < w.bytes.length
  getByte := getByte
  putByte := putByte
  putByteDirect := put
  putSliceDirect w data := .ok (data.foldl put w)
  copyMatchTo w dist len := copyMatchTo dist len w
  pendingLen w := w.pending.length
  drainOutput w n := (w.pending.take n, { w with pending := w.pending.drop n })

/-- The window once all its pending output has been taken. -/
def flushed (w : History) : History := { w with pending := [] }

@[simp] theorem flushed_pending (w : History) : w.flushed.pending = [] := rfl
@[simp] theorem flushed_size (w : History) : w.flushed.size = w.size := rfl
@[simp] theorem flushed_flushed (w : History) : w.flushed.flushed = w.flushed := rfl
@[simp] theorem flushed_putByte (w : History) (b : Byte) :
    (w.putByte b).flushed = (w.put b).flushed := rfl
@[simp] theorem putByte_pending (w : History) (b : Byte) :
    (w.putByte b).pending = w.pending ++ [b] := rfl
@[simp] theorem put_pending (w : History) (b : Byte) : (w.put b).pending = w.pending := rfl
@[simp] theorem put_size (w : History) (b : Byte) : (w.put b).size = w.size := rfl
@[simp] theorem put_flushed (w : History) (b : Byte) : w.flushed.put b = (w.put b).flushed := rfl
@[simp] theorem getByte_flushed (w : History) (dist : Nat) :
    w.flushed.getByte dist = w.getByte dist := rfl

theorem flushed_of_pending {w : History} (h : w.pending = []) : w.flushed = w := by
  rw [flushed, ← h]

/-- A distance within the dictionary can be read. -/
theorem getByte_ok {w : History} {dist : Nat} (hpos : 0 < dist) (hle : dist ≤ w.size) :
    ∃ b, w.getByte dist = .ok b := by
  refine ⟨_, if_neg ?_⟩
  omega

theorem isEmpty_iff (w : History) : LzmaWindow.isEmpty w = true ↔ w.bytes = [] :=
  List.isEmpty_iff

end History
end Iluvatar
