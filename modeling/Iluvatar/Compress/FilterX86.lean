/-
The x86 converter, and the encoder it undoes.

Both scan for a marker byte and convert the address after it, unless the markers passed over
just before make it ambiguous.  They differ in how an address and a position make the other.
-/
import Iluvatar.Compress.Filter
import Mathlib.Logic.Function.Iterate

namespace Iluvatar

open Sansio

namespace Filter

/-- What the x86 converter keeps from call to call. -/
structure X86State where
  prevMask : UInt32
  prevPos : UInt32
  deriving DecidableEq

def X86State.initial : X86State := { prevMask := 0, prevPos := 0 - 5 }

def maskToBitNumber : List Nat := [0, 1, 2, 2, 3]

def test86MsByte (b : Byte) : Bool := b == 0 || b == 0xFF

/-- A shift amount, which must be below the width. -/
def shiftAmount (n : Nat) : Except Fault UInt32 := if n < 32 then .ok (UInt32.ofNat n) else .error .panic

/-- The address loop, which has no bound of its own: `fuel` rounds that do not leave it are a
failure. -/
def x86Loop (address : UInt32 → UInt32 → UInt32) (here prevMask : UInt32) : Nat → UInt32 → Except Fault UInt32
  | 0, _ => .error .panic
  | fuel + 1, src => do
    let dest := address src (here + 5)
    if prevMask = 0 then return dest
    else
      let idx ← match maskToBitNumber[(prevMask >>> 1).toNat]? with
        | some idx => .ok idx
        | none => .error .panic
      let low ← shiftAmount (24 - idx * 8)
      if test86MsByte (dest >>> low).toUInt8 then
        let high ← shiftAmount (32 - idx * 8)
        x86Loop address here prevMask fuel (dest ^^^ (((1 : UInt32) <<< high) - 1))
      else return dest

def x86Rounds : Nat := 2

/-- A byte later, a marker is further back. -/
def shiftMask (mask : UInt32) : UInt32 := (mask &&& 0x77) <<< 1

/-- Scan from `here`. -/
def x86From (address : UInt32 → UInt32 → UInt32) :
    Nat → UInt32 → X86State → List Byte → Except Fault (Scanned X86State Byte)
  | fuel + 1, here, s, b0 :: b1 :: b2 :: b3 :: b4 :: rest =>
    if b0 ≠ 0xE8 ∧ b0 ≠ 0xE9 then do
      let r ← x86From address fuel (here + 1) s (b1 :: b2 :: b3 :: b4 :: rest)
      return { r with done := b0 :: r.done }
    else
      let offset := here - s.prevPos
      let mask := if 5 < offset then 0 else shiftMask^[offset.toNat] s.prevMask
      if test86MsByte b4 ∧ mask >>> 1 ≤ 4 ∧ mask >>> 1 ≠ 3 then do
        let dest ← x86Loop address here mask x86Rounds (load32Le [b1, b2, b3, b4])
        let r ← x86From address fuel (here + 5) { prevMask := 0, prevPos := here } rest
        return { r with
          done := b0 :: dest.toUInt8 :: (dest >>> 8).toUInt8 :: (dest >>> 16).toUInt8 ::
            (~~~(((dest >>> 24) &&& 1) - 1)).toUInt8 :: r.done }
      else do
        let mask := mask ||| 1
        let mask := if test86MsByte b4 then mask ||| 0x10 else mask
        let r ← x86From address fuel (here + 1) { prevMask := mask, prevPos := here }
          (b1 :: b2 :: b3 :: b4 :: rest)
        return { r with done := b0 :: r.done }
  | _, _, s, buf => .ok { done := [], rest := buf, state := s }

def x86Scan (address : UInt32 → UInt32 → UInt32) (buf : List Byte) (nowPos : UInt32) (s : X86State) :
    Except Fault (Scanned X86State Byte) :=
  if buf.length < 5 then .ok { done := [], rest := buf, state := s }
  else
    let s := if 5 < nowPos - s.prevPos then { s with prevPos := nowPos - 5 } else s
    x86From address buf.length nowPos s buf

def x86 : List Byte → UInt32 → X86State → Except Fault (Scanned X86State Byte) := x86Scan (· - ·)

def x86Encode : List Byte → UInt32 → X86State → Except Fault (Scanned X86State Byte) := x86Scan (· + ·)

end Filter
end Iluvatar
