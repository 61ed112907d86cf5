/-
A pipeline of decoding stages behaving as one decompressor: packed bytes enter the
first stage, each stage's output feeds the next through a bounded buffer, and the last
stage's output is the chain's.

A slot keeps together what the source keeps in five vectors at one index.  The buffer of
the last slot is not used: the last stage writes to the caller's output.
-/
import Iluvatar.Compress.Decompressor
import Iluvatar.Compress.Stage

namespace Iluvatar

variable {σ κ : Type}

namespace ChainDecompressor

/-- Capacity of each inter-stage buffer. -/
def stageBuf : Nat := 64 * 1024

/-- One stage, with `buf` its output not yet consumed by the next stage and `read` the
consumed prefix. -/
structure Slot (σ : Type) where
  stage : σ
  totalIn : Nat
  totalOut : Nat
  ended : Bool
  buf : List Byte
  read : Nat
  deriving DecidableEq, Repr

def Slot.fresh (stage : σ) : Slot σ :=
  { stage, totalIn := 0, totalOut := 0, ended := false, buf := [], read := 0 }

/-- The bytes after the consumed prefix. -/
def Slot.unread (s : Slot σ) : List Byte := s.buf.drop s.read

/-- The stage after a call, which moved its totals. -/
def Slot.called (s : Slot σ) (r : DecompressResult) (stage : σ) : Slot σ :=
  { s with
    stage
    totalIn := s.totalIn + r.bytesConsumed
    totalOut := s.totalOut + r.bytesProduced
    ended := s.ended || r.status == .streamEnd }

def Slot.push (s : Slot σ) (made : List Byte) : Slot σ := { s with buf := s.buf ++ made }

/-- `n` bytes taken by the next stage; a buffer read to its end is emptied. -/
def Slot.taken (s : Slot σ) (n : Nat) : Slot σ :=
  if s.read + n = s.buf.length then { s with buf := [], read := 0 }
  else { s with read := s.read + n }

end ChainDecompressor

open ChainDecompressor

/-- The chain's slots, at least one and in packed-to-unpacked order. -/
structure ChainDecompressor (σ : Type) where
  first : Slot σ
  rest : List (Slot σ)
  deriving DecidableEq, Repr

/-- A chain's checkpoint state: one checkpoint per stage plus the bytes in flight
between stages, and which stages have reported end of stream. -/
structure ChainCheckpointState (κ : Type) where
  stages : List (Checkpoint κ)
  pending : List (List Byte)
  ended : List Bool
  deriving DecidableEq, Repr

namespace ChainDecompressor

/-- `stages` in packed-to-unpacked order; at least two. -/
def new : List σ → Except Error (ChainDecompressor σ)
  | s :: t :: rest => .ok { first := Slot.fresh s, rest := (t :: rest).map Slot.fresh }
  | _ => .error (.invalidState "a chain needs at least two stages")

def lastOf : Slot σ → List (Slot σ) → Slot σ
  | s, [] => s
  | _, t :: rest => lastOf t rest

def finished (ch : ChainDecompressor σ) : Bool := (lastOf ch.first ch.rest).ended

/-- What a stage's call gave: the slot, what it took and made, and whether it moved. -/
structure Turn (σ : Type) where
  slot : Slot σ
  taken : Nat
  made : List Byte
  progress : Bool

def moved (r : DecompressResult) : Bool := 0 < r.bytesConsumed || 0 < r.bytesProduced

def Turn.skip (s : Slot σ) : Turn σ := { slot := s, taken := 0, made := [], progress := false }

def Turn.of (s : Slot σ) (r : DecompressResult) (stage : σ) : Turn σ :=
  { slot := s.called r stage, taken := r.bytesConsumed, made := r.produced, progress := moved r }

def Slot.call (D : Decompress σ) (s : Slot σ) (input : List Byte) (room : Nat) :
    Except Fault (Turn σ) :=
  match D s.stage input room with
  | .error f => .error f
  | .ok (r, stage) => .ok (Turn.of s r stage)

/-- Stage 0 reads the caller's input.  Empty input is the caller's end of stream, which
the stage must see to flush. -/
def intake (D : Decompress σ) (s : Slot σ) (input avail : List Byte) : Except Fault (Turn σ) :=
  if !s.ended && decide (s.buf.length < stageBuf) then
    if !avail.isEmpty || input.isEmpty then s.call D avail (stageBuf - s.buf.length)
    else .ok (Turn.skip s)
  else .ok (Turn.skip s)

/-- Stage `s` reads what `prev` made, where it has not ended, has something to read or
to see the end of, and has `space` to write to. -/
def turn (D : Decompress σ) (prev s : Slot σ) (space : Nat) : Except Fault (Turn σ) :=
  if s.ended then .ok (Turn.skip s)
  else if prev.unread.isEmpty && !prev.ended then .ok (Turn.skip s)
  else if space = 0 then .ok (Turn.skip s)
  else s.call D prev.unread space

/-- What one pass over the stages after `prev` gave. -/
structure Pumped (σ : Type) where
  first : Slot σ
  rest : List (Slot σ)
  made : List Byte
  progress : Bool

/-- The stages after `prev` in turn; only the last writes to the caller's output, where
`room` is left. -/
def pump (D : Decompress σ) (prev : Slot σ) : List (Slot σ) → Nat → Except Fault (Pumped σ)
  | [], _ => .ok { first := prev, rest := [], made := [], progress := false }
  | [s], room =>
    match turn D prev s room with
    | .error f => .error f
    | .ok t =>
      .ok { first := prev.taken t.taken, rest := [t.slot], made := t.made, progress := t.progress }
  | s :: next :: rest, room =>
    match turn D prev s (stageBuf - s.buf.length) with
    | .error f => .error f
    | .ok t =>
      match pump D (t.slot.push t.made) (next :: rest) room with
      | .error f => .error f
      | .ok p =>
        .ok { first := prev.taken t.taken, rest := p.first :: p.rest, made := p.made
              progress := t.progress || p.progress }

/-- A call under way. -/
structure Calling (σ : Type) where
  chain : ChainDecompressor σ
  inPos : Nat
  output : List Byte

def Calling.result (x : Calling σ) : DecompressResult :=
  { bytesConsumed := x.inPos, produced := x.output
    status := if x.chain.finished then .streamEnd else .continue }

/-- One pass of the loop: stage 0, then the others.  `false` when nothing moved. -/
def round (D : Decompress σ) (input : List Byte) (room : Nat) (x : Calling σ) :
    Except Fault (Calling σ × Bool) :=
  match intake D x.chain.first input (input.drop x.inPos) with
  | .error f => .error f
  | .ok t =>
    match pump D (t.slot.push t.made) x.chain.rest (room - x.output.length) with
    | .error f => .error f
    | .ok p =>
      .ok ({ chain := { first := p.first, rest := p.rest }, inPos := x.inPos + t.taken
             output := x.output ++ p.made }, t.progress || p.progress)

/-- The loop, at most `fuel` times. -/
def loop (D : Decompress σ) (input : List Byte) (room : Nat) :
    Nat → Calling σ → Except Fault (Calling σ)
  | 0, _ => .error .panic
  | fuel + 1, x =>
    if x.chain.finished || decide (room ≤ x.output.length) then .ok x
    else
      match round D input room x with
      | .error f => .error f
      | .ok (x, progress) => if progress then loop D input room fuel x else .ok x

def decompress (D : Decompress σ) (fuel : Nat) (ch : ChainDecompressor σ) (input : List Byte)
    (room : Nat) : Except Fault (DecompressResult × ChainDecompressor σ) :=
  match loop D input room fuel { chain := ch, inPos := 0, output := [] } with
  | .error f => .error f
  | .ok x => .ok (x.result, x.chain)

/-- The checkpoints of the stages from `slots` on, each at the stage's own totals.  An
inner stage is fed from the pending bytes, which start at the count, so its checkpoint
must be exact; only stage 0 may resume behind it. -/
def stageCheckpoints (codec : Codec σ κ) :
    Bool → List (Slot σ) → Except Error (Option (List (Checkpoint κ)))
  | _, [] => .ok (some [])
  | inner, s :: rest =>
    match codec.checkpoint s.stage s.totalIn s.totalOut with
    | .error e => .error e
    | .ok none => .ok none
    | .ok (some cp) =>
      if !inner || cp.compressedOffset == s.totalIn then
        match stageCheckpoints codec true rest with
        | .error e => .error e
        | .ok none => .ok none
        | .ok (some cps) => .ok (some (cp :: cps))
      else .ok none

/-- The bytes in flight after every slot but the last. -/
def pendingOf : Slot σ → List (Slot σ) → List (List Byte)
  | _, [] => []
  | s, t :: rest => s.unread :: pendingOf t rest

def checkpoint (codec : Codec σ κ) (ch : ChainDecompressor σ)
    (_compressedOffset uncompressedOffset : Nat) :
    Except Error (Option (Checkpoint (ChainCheckpointState κ))) :=
  match stageCheckpoints codec false (ch.first :: ch.rest) with
  | .error e => .error e
  | .ok none => .ok none
  | .ok (some []) => .ok none
  | .ok (some (cp :: cps)) =>
    .ok (some
      { compressedOffset := cp.compressedOffset
        bitOffset := cp.bitOffset
        uncompressedOffset
        state := some
          { stages := cp :: cps
            pending := pendingOf ch.first ch.rest
            ended := (ch.first :: ch.rest).map Slot.ended } })

/-- Each stage restored from its checkpoint, with its pending bytes; the last has none. -/
def restoreSlots (codec : Codec σ κ) :
    List (Slot σ) → List (Checkpoint κ) → List (List Byte) → List Bool → Except Error (List (Slot σ))
  | s :: rest, cp :: cps, pending, ended :: endeds =>
    match codec.restore s.stage cp with
    | .error e => .error e
    | .ok stage =>
      match restoreSlots codec rest cps pending.tail endeds with
      | .error e => .error e
      | .ok slots =>
        .ok ({ stage, totalIn := cp.compressedOffset, totalOut := cp.uncompressedOffset, ended
               buf := pending.headD [], read := 0 } :: slots)
  | _, _, _, _ => .ok []

/-- Each stage restored from the start checkpoint. -/
def restartSlots (codec : Codec σ κ) (cp : Checkpoint κ) :
    List (Slot σ) → Except Error (List (Slot σ))
  | [] => .ok []
  | s :: rest =>
    match codec.restore s.stage cp with
    | .error e => .error e
    | .ok stage =>
      match restartSlots codec cp rest with
      | .error e => .error e
      | .ok slots => .ok (Slot.fresh stage :: slots)

def ofSlots (ch : ChainDecompressor σ) : List (Slot σ) → ChainDecompressor σ
  | [] => ch
  | s :: rest => { first := s, rest }

def restore (codec : Codec σ κ) (ch : ChainDecompressor σ)
    (cp : Checkpoint (ChainCheckpointState κ)) : Except Error (ChainDecompressor σ) :=
  let n := ch.rest.length + 1
  match cp.state with
  | some s =>
    if s.stages.length ≠ n ∨ s.pending.length ≠ n - 1 ∨ s.ended.length ≠ n then
      .error (.checkpointError "chain checkpoint does not match the chain")
    else
      match restoreSlots codec (ch.first :: ch.rest) s.stages s.pending s.ended with
      | .error e => .error e
      | .ok slots => .ok (ofSlots ch slots)
  | none =>
    match restartSlots codec
        { compressedOffset := cp.compressedOffset, bitOffset := cp.bitOffset
          uncompressedOffset := cp.uncompressedOffset, state := none } (ch.first :: ch.rest) with
    | .error e => .error e
    | .ok slots => .ok (ofSlots ch slots)

end ChainDecompressor
end Iluvatar
