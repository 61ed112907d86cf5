/-
AES-CBC decryption as a stage on the packed side of a chain.

The block cipher is the parameter `cipher`.  What CBC decryption is, apart from the stage, is
`cbcPlain`.
-/
import Iluvatar.Compress.Decompressor

namespace Iluvatar

def aesBlockSize : Nat := 16

/-- A block of the cipher. -/
structure AesBlock where
  bytes : List Byte
  size : bytes.length = aesBlockSize
  deriving DecidableEq

namespace AesBlock

/-- The first block of some bytes. -/
def front (data : List Byte) (h : aesBlockSize ≤ data.length) : AesBlock :=
  ⟨data.take aesBlockSize, by rw [List.length_take, Nat.min_eq_left h]⟩

def xor (a b : AesBlock) : AesBlock :=
  ⟨List.zipWith (· ^^^ ·) a.bytes b.bytes, by rw [List.length_zipWith, a.size, b.size, Nat.min_self]⟩

end AesBlock

/-- The CBC decryption of the first `n` blocks. -/
def cbcBlocks (cipher : AesBlock → AesBlock) : Nat → AesBlock → List Byte → List Byte
  | 0, _, _ => []
  | n + 1, prev, data =>
    if h : aesBlockSize ≤ data.length then
      ((cipher (.front data h)).xor prev).bytes ++ cbcBlocks cipher n (.front data h) (data.drop aesBlockSize)
    else []

/-- The CBC decryption of all whole blocks. -/
def cbcPlain (cipher : AesBlock → AesBlock) (prev : AesBlock) (data : List Byte) : List Byte :=
  cbcBlocks cipher (data.length / aesBlockSize) prev data

/-- `staged` is plaintext that the output could not take, `carry` the beginning of a block; `len` is
the plaintext length, where the last block's padding is cut. -/
structure AesCbcDecryptor where
  iv : AesBlock
  prev : AesBlock
  carry : List Byte
  staged : List Byte
  produced : Nat
  len : Option Nat
  finished : Bool
  deriving DecidableEq

/-- What a checkpoint holds. -/
structure AesCheckpointState where
  prev : AesBlock
  carry : List Byte
  staged : List Byte
  produced : Nat
  finished : Bool
  deriving DecidableEq

namespace AesCbcDecryptor

variable (cipher : AesBlock → AesBlock)

def new (iv : AesBlock) (len : Option Nat) : AesCbcDecryptor :=
  { iv, prev := iv, carry := [], staged := [], produced := 0, len, finished := false }

/-- `none` is `u64::MAX`, which no buffer reaches. -/
def remaining (d : AesCbcDecryptor) : Option Nat := d.len.map (· - d.produced)

/-- How many staged bytes are written. -/
def emitted (d : AesCbcDecryptor) (room : Nat) : Nat :=
  match d.remaining with
  | none => min d.staged.length room
  | some left => min (min d.staged.length room) left

/-- Write staged bytes, and drop the padding once the length is reached. -/
def emit (d : AesCbcDecryptor) (room : Nat) : List Byte × AesCbcDecryptor :=
  let n := d.emitted room
  let d' := { d with staged := d.staged.drop n, produced := d.produced + n }
  (d.staged.take n, if d'.remaining = some 0 then { d' with finished := true, staged := [] } else d')

def decryptBlock (d : AesCbcDecryptor) (block : AesBlock) : AesCbcDecryptor :=
  { d with prev := block, staged := d.staged ++ ((cipher block).xor d.prev).bytes }

/-- Decrypt at most `want` blocks from the input: what is left of it, and how many were not there. -/
def decryptBlocks : Nat → AesCbcDecryptor → List Byte → AesCbcDecryptor × List Byte × Nat
  | 0, d, input => (d, input, 0)
  | want + 1, d, input =>
    if h : aesBlockSize ≤ input.length then
      decryptBlocks want (d.decryptBlock cipher (.front input h)) (input.drop aesBlockSize)
    else (d, input, want + 1)

/-- Complete the block that was begun, as far as the input goes. -/
def fillCarry (d : AesCbcDecryptor) (input : List Byte) : AesCbcDecryptor × List Byte :=
  if d.carry.isEmpty then (d, input)
  else
    let take := min (aesBlockSize - d.carry.length) input.length
    let carry := d.carry ++ input.take take
    (if h : carry.length = aesBlockSize then { d with carry := [] }.decryptBlock cipher ⟨carry, h⟩
      else { d with carry }, input.drop take)

/-- Decrypt no more than the output can take. -/
def decryptInput (d : AesCbcDecryptor) (input : List Byte) (room : Nat) : AesCbcDecryptor × List Byte :=
  let wantBlocks := max (room / aesBlockSize) 1
  let (d, rest) := d.fillCarry cipher input
  let blocks := if aesBlockSize ≤ d.staged.length then 1 else 0
  let (d, rest, missing) := d.decryptBlocks cipher (wantBlocks - blocks) rest
  if 0 < missing ∧ rest ≠ [] then ({ d with carry := d.carry ++ rest }, []) else (d, rest)

/-- The answer of a call that took `consumed` bytes. -/
def answer (d : AesCbcDecryptor) (consumed : Nat) (produced : List Byte) :
    Except Fault (DecompressResult × AesCbcDecryptor) :=
  .ok ({
    bytesConsumed := consumed
    produced
    status := if d.finished then .streamEnd else .continue }, d)

/-- The end of the ciphertext. -/
def atEnd (d : AesCbcDecryptor) (produced : List Byte) : Except Fault (DecompressResult × AesCbcDecryptor) :=
  if d.carry ≠ [] then
    -- the ciphertext ends inside a block: it was cut short
    .error (.error .truncatedInput)
  else if d.staged = [] then
    if d.len.isSome ∧ d.remaining ≠ some 0 then .error (.error .truncatedInput)
    else { d with finished := true }.answer 0 produced
  else d.answer 0 produced

def decompress (d : AesCbcDecryptor) (input : List Byte) (room : Nat) :
    Except Fault (DecompressResult × AesCbcDecryptor) :=
  let (first, d) := d.emit room
  if d.finished then d.answer 0 first
  else if input.isEmpty then d.atEnd first
  else if first.length < room ∧ d.staged = [] then
    let (d, rest) := d.decryptInput cipher input (room - first.length)
    let (second, d) := d.emit (room - first.length)
    d.answer (input.length - rest.length) (first ++ second)
  else d.answer 0 first

def checkpoint (d : AesCbcDecryptor) (compressedOffset uncompressedOffset : Nat) :
    Except Fault (Option (Checkpoint AesCheckpointState)) :=
  .ok (some {
    compressedOffset, bitOffset := 0, uncompressedOffset
    state := some {
      prev := d.prev, carry := d.carry, staged := d.staged, produced := d.produced, finished := d.finished } })

def restore (d : AesCbcDecryptor) (cp : Checkpoint AesCheckpointState) : Except Fault AesCbcDecryptor :=
  match cp.state with
  | some s =>
    .ok { d with prev := s.prev, carry := s.carry, staged := s.staged, produced := s.produced, finished := s.finished }
  | none => .ok { d with prev := d.iv, carry := [], staged := [], produced := 0, finished := false }

end AesCbcDecryptor
end Iluvatar
