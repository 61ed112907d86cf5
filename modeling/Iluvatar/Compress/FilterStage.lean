/-
A converter or the Delta filter as a decoding stage.
-/
import Iluvatar.Compress.FilterX86

namespace Iluvatar

open Sansio Iluvatar.Filter

namespace FilterState

/-- A scan by a converter that keeps nothing but its position. -/
def positioned (S : Scanner UInt32 Byte) (st : FilterState) (data : List Byte) (nowPos : UInt32) :
    Except Fault (Scanned FilterState Byte) :=
  let r := S.run nowPos data
  .ok { done := r.done, rest := r.rest, state := st }

/-- Convert as much of `data` as the filter can commit to. -/
def convert (st : FilterState) (data : List Byte) (nowPos : UInt32) :
    Except Fault (Scanned FilterState Byte) :=
  match st with
  | .delta distance ring =>
    let r := (Filter.delta distance).run ring data
    .ok { done := r.done, rest := r.rest, state := .delta distance r.state }
  | .bcj arch prevMask prevPos =>
    match arch with
    | .x86 => do
      let r ← x86 data nowPos { prevMask, prevPos }
      return { done := r.done, rest := r.rest, state := .bcj arch r.state.prevMask r.state.prevPos }
    | .powerPc => st.positioned powerPc data nowPos
    | .ia64 => st.positioned ia64 data nowPos
    | .arm => st.positioned arm data nowPos
    | .armThumb => st.positioned armThumb data nowPos
    | .sparc => st.positioned sparc data nowPos
    | .arm64 => st.positioned arm64 data nowPos
    | .riscV => st.positioned riscV data nowPos

/-- The state at the start of a stream. -/
def initial : FilterState → FilterState
  | .bcj arch _ _ => .bcj arch 0 (0 - 5)
  | .delta distance _ => .delta distance { history := Vector.replicate deltaHistory 0, histPos := 0 }

end FilterState

/-- A converter or Delta decoding stage.  `buf` is the held input from stream position `pos` on;
the first `filtered` bytes are converted and waiting to be emitted. -/
structure FilterDecompressor where
  state : FilterState
  pos : Nat
  buf : List Byte
  filtered : Nat
  finished : Bool

structure FilterCheckpointState where
  pos : Nat
  held : List Byte
  filtered : Nat
  extra : FilterState
  finished : Bool

namespace FilterDecompressor

def withState (state : FilterState) : FilterDecompressor :=
  { state, pos := 0, buf := [], filtered := 0, finished := false }

def bcj (arch : BcjArch) : FilterDecompressor := withState (.bcj arch 0 (0 - 5))

/-- `distance` is 1 to 256. -/
def delta (distance : Nat) : Except Error FilterDecompressor :=
  if 1 ≤ distance ∧ distance ≤ deltaHistory then
    .ok (withState (.delta distance { history := Vector.replicate deltaHistory 0, histPos := 0 }))
  else .error (.decompressionError ("invalid delta distance: " ++ toString distance))

/-- Convert what can be; `last` means that no more input follows, so that everything is final. -/
def run (d : FilterDecompressor) (last : Bool) : Except Fault FilterDecompressor := do
  let start := d.filtered
  let r ← d.state.convert (d.buf.drop start) (UInt32.ofNat (d.pos + start))
  let buf := d.buf.take start ++ (r.done ++ r.rest)
  return { d with
    state := r.state
    buf
    filtered := if last then buf.length else start + r.done.length }

def emit (d : FilterDecompressor) (room : Nat) : List Byte × FilterDecompressor :=
  let n := min d.filtered room
  (d.buf.take n, { d with buf := d.buf.drop n, filtered := d.filtered - n, pos := d.pos + n })

def decompress (d : FilterDecompressor) (input : List Byte) (room : Nat) :
    Except Fault (DecompressResult × FilterDecompressor) := do
  let (produced, d) := d.emit room
  let (consumed, produced, d) ←
    if produced.length < room ∧ d.finished = false then do
      let (consumed, d) ←
        if input.isEmpty then do
          let d ← d.run true
          pure (0, { d with finished := true })
        else do
          let take := min input.length filterChunk
          let d ← { d with buf := d.buf ++ input.take take }.run false
          pure (take, d)
      let (more, d) := d.emit (room - produced.length)
      pure (consumed, produced ++ more, d)
    else pure (0, produced, d)
  return ({
    bytesConsumed := consumed
    produced
    status := if d.finished ∧ d.buf.isEmpty then .streamEnd else .continue }, d)

def checkpoint (d : FilterDecompressor) (compressedOffset uncompressedOffset : Nat) :
    Except Error (Option (Checkpoint FilterCheckpointState)) :=
  .ok (some
    { compressedOffset, bitOffset := 0, uncompressedOffset
      state := some
        { pos := d.pos, held := d.buf, filtered := d.filtered, extra := d.state
          finished := d.finished } })

def restore (d : FilterDecompressor) (cp : Checkpoint FilterCheckpointState) :
    Except Error FilterDecompressor :=
  match cp.state with
  | some s =>
    if s.held.length < s.filtered then .error (.checkpointError "filter checkpoint inconsistent")
    else
      .ok { state := s.extra, pos := s.pos, buf := s.held, filtered := s.filtered, finished := s.finished }
  | none => .ok { state := d.state.initial, pos := 0, buf := [], filtered := 0, finished := false }

end FilterDecompressor
end Iluvatar
