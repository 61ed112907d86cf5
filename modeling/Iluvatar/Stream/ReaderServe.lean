/-
A `StreamReader` over an exact index serves exact bytes.

`ReadSession` is the caller's side of a reader: the range last asked for, the
bytes read for it, and whether a request for input is still unanswered.  A run is
any list of events.  A seek may come at any moment, input is always answered from
`compressedPosition`, cut anywhere, and reads may use buffers of any size.  The
invariant says where the decompressor stands in the stream, which segment of the
plain text is buffered, and what each state of the reader still owes its range;
every operation preserves it, so every run does.
-/
import Iluvatar.Compress.Contract
import Iluvatar.Library.Segment
import Iluvatar.Stream.Reader

namespace Iluvatar

open Sansio

variable {σ κ : Type}

inductive ReadEvent where
  | seek (offset len : Nat)
  | step (fuel : Nat)
  | provide (n : Nat)
  | read (n : Nat)
  deriving DecidableEq, Repr

structure ReadSession (σ κ : Type) where
  reader : StreamReader σ κ
  offset : Nat
  len : Nat
  delivered : List Byte
  wanted : Bool
  reported : Option EngineRequest

namespace ReadSession

/-- A session that has just created its reader. -/
def start (reader : StreamReader σ κ) (offset len : Nat) : ReadSession σ κ :=
  { reader, offset, len, delivered := [], wanted := false, reported := none }

/-- One event of the caller.  `none` means the event is not one a caller may
issue here: a seek behind `position`, a `provide` nobody asked for, or a `step`
whose loop has not reported within its fuel. -/
def drive (packed : List Byte) (s : ReadSession σ κ) : ReadEvent → Option (ReadSession σ κ)
  | .seek offset len =>
    if s.reader.position ≤ offset then
      match s.reader.seekForward offset len with
      | .ok reader => some { s with reader, offset, len, delivered := [], reported := none }
      | .error e => some { s with reported := some (.error (.error e)) }
    else none
  | .step fuel =>
    match s.reader.step fuel with
    | none => none
    | some (request, reader) =>
      some { s with
        reader
        wanted := s.wanted || request.wantsInput
        reported := some request }
  | .provide n =>
    if s.wanted then
      match (packed.drop s.reader.compressedPosition).take (n + 1) with
      | [] => some { s with reader := s.reader.signalEof, wanted := false }
      | b :: bs => some { s with reader := s.reader.provideData (b :: bs), wanted := false }
    else none
  | .read n =>
    let (out, reader) := s.reader.readOutput n
    some { s with reader, delivered := s.delivered ++ out }

/-- One turn of a caller that steps and then answers what is asked: input comes at
most `cut.1 + 1` bytes at a time, and output goes into `cut.2 + 1` bytes. -/
def turn (packed : List Byte) (fuel : Nat) (s : ReadSession σ κ) (cut : Nat × Nat) :
    Option (ReadSession σ κ) :=
  match s.drive packed (.step fuel) with
  | none => none
  | some s =>
    match s.reported with
    | some .needInput => s.drive packed (.provide cut.1)
    | some (.seekAndRead _ _) => s.drive packed (.provide cut.1)
    | some .outputReady => s.drive packed (.read (cut.2 + 1))
    | _ => some s

end ReadSession

/-- The plain bytes a range covers: `plain[min offset total .. min (offset + len) total]`. -/
def rangeOf (plain : List Byte) (offset len : Nat) : List Byte :=
  seg plain (min offset plain.length) (min (offset + len) plain.length)

namespace StreamReader

/-- Cutting a range to the true length of the stream does not change its bytes. -/
theorem rangeOf_eq_seg {plain : List Byte} {unpackedLen : Option Nat}
    (h : ∀ n, unpackedLen = some n → n = plain.length) (offset len : Nat) :
    rangeOf plain offset len = seg plain offset (offset + clampLen unpackedLen offset len) := by
  have hcut : rangeOf plain offset len = seg plain offset (offset + len) := by
    rw [rangeOf, seg_min]
    rcases Nat.le_total offset plain.length with hle | hle
    · rw [Nat.min_eq_left hle]
    · rw [Nat.min_eq_right hle, seg_eq_nil_of_length_le _ hle,
        seg_eq_nil_of_length_le _ (Nat.le_refl _)]
  rw [hcut]
  cases hu : unpackedLen with
  | none => rfl
  | some n =>
    obtain rfl := h n hu
    rw [clampLen, ← seg_min, ← seg_min plain offset (offset + _)]
    rcases Nat.le_total offset plain.length with hle | hle
    · congr 1
      omega
    · rw [seg_eq_nil_of_length_le _ hle, seg_eq_nil_of_length_le _ hle]

section Serve

variable {codec : Codec σ κ} {packed plain : List Byte} {At : σ → Nat → Nat → Prop}

/-- How many decoded bytes are buffered. -/
def bufferedLen (r : StreamReader σ κ) : Nat := r.outputBuf.length - r.outputRead

theorem buffered_length (r : StreamReader σ κ) : r.buffered.length = r.bufferedLen := by
  simp [buffered, bufferedLen]

theorem serveable_eq (r : StreamReader σ κ) : r.serveable = min r.bufferedLen r.rangeLeft := rfl

/-- A reader that has not been stepped. -/
structure Unstarted (codec : Codec σ κ) (At : σ → Nat → Nat → Prop) (r : StreamReader σ κ) :
    Prop where
  started : r.started = false
  created : codec.create = .ok r.decompressor
  exact : r.checkpoint.Exact codec At
  before : r.checkpoint.uncompressedOffset ≤ r.targetOffset
  outputBuf : r.outputBuf = []
  outputRead : r.outputRead = 0
  inputBuf : r.inputBuf = []
  inputPos : r.inputPos = 0
  live : r.eof = false
  notEnded : r.streamEnded = false
  state : r.state = if r.targetLen = 0 then .done else .seekToCheckpoint

/-- A stepped reader whose decompressor has taken `c` packed bytes. -/
structure Standing (packed plain : List Byte) (At : σ → Nat → Nat → Prop)
    (r : StreamReader σ κ) (c : Nat) : Prop where
  started : r.started = true
  stands : At r.decompressor c r.unpackedPos
  compressed : r.compressedPos = c + r.inputLeft.length
  input : r.inputLeft <+: packed.drop c
  inputPos : r.inputPos ≤ r.inputBuf.length
  bufferedLen_le : r.bufferedLen ≤ r.unpackedPos
  buffered : r.buffered = seg plain (r.unpackedPos - r.bufferedLen) r.unpackedPos
  eof : r.eof = true → packed.length ≤ r.compressedPos
  ended : r.streamEnded = true → r.unpackedPos = plain.length

/-- Skipping: nothing is buffered, and `remaining` bytes lie before the range. -/
structure Skips (r : StreamReader σ κ) (offset : Nat) (delivered : List Byte)
    (remaining : Nat) : Prop where
  pos : 0 < remaining
  empty : r.bufferedLen = 0
  target : r.unpackedPos + remaining = offset
  none : delivered = []
  range : 0 < r.rangeLeft

/-- Emitting: the buffer continues what was delivered, and `remaining` bytes of
the range are still to be decoded. -/
structure Emits (r : StreamReader σ κ) (offset : Nat) (delivered : List Byte)
    (remaining : Nat) : Prop where
  pos : 0 < remaining
  place : r.unpackedPos - r.bufferedLen = offset + delivered.length
  range : r.rangeLeft = remaining + r.bufferedLen

/-- Done: what is buffered within the range completes it. -/
structure Finishes (plain : List Byte) (r : StreamReader σ κ) (offset len : Nat)
    (delivered : List Byte) : Prop where
  complete : delivered ++ r.buffered.take r.rangeLeft = rangeOf plain offset len
  place_le : r.unpackedPos - r.bufferedLen ≤ offset + delivered.length
  place : 0 < r.serveable ∨ delivered ≠ [] →
    r.unpackedPos - r.bufferedLen = offset + delivered.length

/-- What each state of a stepped reader owes the range `offset`, `len`. -/
def Phase (plain : List Byte) (r : StreamReader σ κ) (offset len : Nat)
    (delivered : List Byte) : Prop :=
  match r.state with
  | .seekToCheckpoint => False
  | .skipping remaining => Skips r offset delivered remaining
  | .needInputSkipping remaining => Skips r offset delivered remaining ∧ r.inputLeft = []
  | .emitting remaining => Emits r offset delivered remaining
  | .needInputEmitting remaining => Emits r offset delivered remaining ∧ r.inputLeft = []
  | .done => Finishes plain r offset len delivered

/-- The part of the invariant that concerns the range rather than the position. -/
structure Range (plain : List Byte) (r : StreamReader σ κ) (offset len : Nat)
    (delivered : List Byte) : Prop where
  unpackedLen : ∀ n, r.unpackedLen = some n → n = plain.length
  requireFull : r.requireFull = true → r.unpackedLen ≠ none
  targetOffset : r.targetOffset = offset
  targetLen : r.targetLen = clampLen r.unpackedLen offset len
  rangeLeft : r.rangeLeft + delivered.length = r.targetLen
  delivered : delivered <+: rangeOf plain offset len

theorem Range.delivered_eq {r : StreamReader σ κ} {offset len : Nat} {delivered : List Byte}
    (h : Range plain r offset len delivered) :
    delivered = seg plain offset (offset + delivered.length) := by
  have hpre := h.delivered
  rw [rangeOf_eq_seg h.unpackedLen] at hpre
  have hlen := h.rangeLeft
  have htarget := h.targetLen
  have htake := List.prefix_iff_eq_take.mp hpre
  rw [seg_take] at htake
  rw [Nat.min_eq_right (by omega)] at htake
  exact htake

/-- When the buffer continues what was delivered and either covers the range or
ends with the stream, it completes the range. -/
theorem Range.finishes {r : StreamReader σ κ} {offset len c : Nat} {delivered : List Byte}
    (h : Range plain r offset len delivered) (hs : Standing packed plain At r c)
    (place : r.unpackedPos - r.bufferedLen = offset + delivered.length)
    (cover : r.rangeLeft ≤ r.bufferedLen ∨ r.unpackedPos = plain.length) :
    Finishes plain r offset len delivered := by
  refine ⟨?_, Nat.le_of_eq place, fun _ => place⟩
  have hle := hs.bufferedLen_le
  have hrange := h.rangeLeft
  have htarget := h.targetLen
  rw [hs.buffered, place, seg_take, rangeOf_eq_seg h.unpackedLen, ← htarget,
    show offset + delivered.length + r.rangeLeft = offset + r.targetLen by omega]
  have hmin : seg plain (offset + delivered.length)
      (min r.unpackedPos (offset + r.targetLen)) =
      seg plain (offset + delivered.length) (offset + r.targetLen) := by
    rcases cover with hcover | hend
    · rw [Nat.min_eq_right (by omega)]
    · rw [hend, Nat.min_comm, seg_min]
  rw [hmin]
  calc delivered ++ seg plain (offset + delivered.length) (offset + r.targetLen)
      = seg plain offset (offset + delivered.length) ++
          seg plain (offset + delivered.length) (offset + r.targetLen) := by
        rw [← h.delivered_eq]
    _ = seg plain offset (offset + r.targetLen) := seg_append plain (by omega) (by omega)

/-- A finished range has nothing left when the stream is known to hold it. -/
theorem Range.rangeLeft_eq_zero {r : StreamReader σ κ} {offset len : Nat} {delivered : List Byte}
    (h : Range plain r offset len delivered) (hfull : r.requireFull = true)
    (hdone : delivered = rangeOf plain offset len) : r.rangeLeft = 0 := by
  have hlen : delivered.length = (rangeOf plain offset len).length := by rw [← hdone]
  rw [rangeOf, seg_length] at hlen
  have hrange := h.rangeLeft
  have htarget := h.targetLen
  cases hu : r.unpackedLen with
  | none => exact absurd hu (h.requireFull hfull)
  | some n =>
    have hn := h.unpackedLen n hu
    rw [hu] at htarget
    simp only [clampLen] at htarget
    omega

/-- Where the reader stands: not stepped yet, or standing in the stream and owing
its range what its state says. -/
def Stage (codec : Codec σ κ) (packed plain : List Byte) (At : σ → Nat → Nat → Prop)
    (r : StreamReader σ κ) (offset len : Nat) (delivered : List Byte) : Prop :=
  (Unstarted codec At r ∧ delivered = []) ∨
    ∃ c, Standing packed plain At r c ∧ Phase plain r offset len delivered

/-- What is left to do: packed bytes to be read and to be taken, plain bytes to be made. -/
def work (packed plain : List Byte) (r : StreamReader σ κ) : Nat :=
  if r.started then
    (packed.length - r.compressedPos) + (packed.length - (r.compressedPos - r.inputLeft.length))
      + (plain.length - r.unpackedPos)
  else 2 * packed.length + plain.length + 1

/-- One decode call of a standing reader does what the contract says. -/
theorem Standing.decode {r : StreamReader σ κ} {c room : Nat}
    (hC : Obeys codec packed plain At) (hs : Standing packed plain At r c)
    (hinput : r.inputLeft = [] → r.eof = true) (hroom : 0 < room) :
    ∃ result d, codec.decompress r.decompressor r.inputLeft room = .ok (result, d) ∧
      GoodCall At packed plain c r.unpackedPos r.inputLeft room result d := by
  refine hC.decompress _ _ _ _ _ hs.stands hs.input (fun hnil => ?_) hroom
  have heof := hs.eof (hinput hnil)
  have hpos := hs.compressed
  rw [hnil] at hpos
  simpa [hpos] using heof

/-- `r'` is `r` after a decode call: of the bytes made, all but the first `dropped`
are buffered. -/
structure Advanced (r r' : StreamReader σ κ) (result : DecompressResult) (d : σ)
    (dropped : Nat) : Prop where
  started : r'.started = r.started
  decompressor : r'.decompressor = d
  inputBuf : r'.inputBuf = r.inputBuf
  inputPos : r'.inputPos = r.inputPos + result.bytesConsumed
  compressedPos : r'.compressedPos = r.compressedPos
  unpackedPos : r'.unpackedPos = r.unpackedPos + result.produced.length
  eof : r'.eof = r.eof
  buffered : r'.buffered = result.produced.drop dropped
  ended : r'.streamEnded = true → result.status = .streamEnd ∨ r.streamEnded = true

namespace Advanced

variable {r r' : StreamReader σ κ} {result : DecompressResult} {d : σ} {dropped c room : Nat}

theorem bufferedLen (h : Advanced r r' result d dropped) :
    r'.bufferedLen = result.produced.length - dropped := by
  rw [← buffered_length, h.buffered, List.length_drop]

theorem inputLeft (h : Advanced r r' result d dropped) :
    r'.inputLeft = r.inputLeft.drop result.bytesConsumed := by
  rw [StreamReader.inputLeft, StreamReader.inputLeft, h.inputBuf, h.inputPos, List.drop_drop]

/-- After a decode call the reader stands further on. -/
theorem standing (h : Advanced r r' result d dropped) (hs : Standing packed plain At r c)
    (hgood : GoodCall At packed plain c r.unpackedPos r.inputLeft room result d)
    (hdropped : dropped ≤ result.produced.length) :
    Standing packed plain At r' (c + result.bytesConsumed) := by
  have hproduced := eq_seg_of_prefix hgood.produced_eq
  have hle := hgood.consumed_le
  have hlen : r.inputLeft.length = r.inputBuf.length - r.inputPos := by
    simp [StreamReader.inputLeft]
  refine
    { started := by rw [h.started]; exact hs.started
      stands := by rw [h.decompressor, h.unpackedPos]; exact hgood.stands
      compressed := ?_
      input := ?_
      inputPos := ?_
      bufferedLen_le := ?_
      buffered := ?_
      eof := by rw [h.eof, h.compressedPos]; exact hs.eof
      ended := ?_ }
  · rw [h.compressedPos, h.inputLeft, List.length_drop, hs.compressed]
    omega
  · rw [h.inputLeft, ← List.drop_drop]
    exact List.IsPrefix.drop hs.input _
  · rw [h.inputPos, h.inputBuf]
    have := hs.inputPos
    omega
  · rw [h.bufferedLen, h.unpackedPos]
    omega
  · rw [h.buffered, h.bufferedLen, h.unpackedPos, hproduced, seg_drop, ← hproduced]
    congr 1
    omega
  · intro hend
    rw [h.unpackedPos]
    rcases h.ended hend with hstatus | hbefore
    · exact hgood.ended hstatus
    · have hpre := hgood.produced_eq
      rw [hs.ended hbefore, List.drop_length] at hpre
      rw [List.eq_nil_of_prefix_nil hpre, hs.ended hbefore, List.length_nil, Nat.add_zero]

theorem work_le (h : Advanced r r' result d dropped) (hs : Standing packed plain At r c)
    (hle : result.bytesConsumed ≤ r.inputLeft.length) :
    work packed plain r' ≤ work packed plain r := by
  have hc := hs.compressed
  simp only [work, h.started, hs.started, if_true, h.compressedPos, h.inputLeft,
    List.length_drop, h.unpackedPos]
  omega

theorem work_lt (h : Advanced r r' result d dropped) (hC : Obeys codec packed plain At)
    (hs : Standing packed plain At r c)
    (hgood : GoodCall At packed plain c r.unpackedPos r.inputLeft room result d)
    (hmoved : ¬ (result.bytesConsumed = 0 ∧ result.bytesProduced = 0)) :
    work packed plain r' < work packed plain r := by
  have hc := hs.compressed
  have hwithin := hC.within _ _ _ hgood.stands
  have hle := hgood.consumed_le
  simp only [DecompressResult.bytesProduced] at hmoved
  simp only [work, h.started, hs.started, if_true, h.compressedPos, h.inputLeft,
    List.length_drop, h.unpackedPos]
  omega

end Advanced

/-- A stepped reader that has taken all its input. -/
def Drained (r : StreamReader σ κ) : Prop := r.inputLeft = [] ∧ r.started = true

/-- What every step leaves alone. -/
structure Frame (r r' : StreamReader σ κ) : Prop where
  codec : r'.codec = r.codec
  targetOffset : r'.targetOffset = r.targetOffset
  targetLen : r'.targetLen = r.targetLen
  rangeLeft : r'.rangeLeft = r.rangeLeft
  unpackedLen : r'.unpackedLen = r.unpackedLen
  requireFull : r'.requireFull = r.requireFull
  eof : r'.eof = r.eof
  drained : r.Drained → r'.Drained

/-- What a round of the source's loop may do, reporting `request` or nothing. -/
structure Outcome (codec : Codec σ κ) (packed plain : List Byte) (At : σ → Nat → Nat → Prop)
    (offset len : Nat) (delivered : List Byte) (r : StreamReader σ κ)
    (request : Option EngineRequest) (r' : StreamReader σ κ) : Prop where
  stage : Stage codec packed plain At r' offset len delivered
  frame : Frame r r'
  fine : ∀ f, request ≠ some (.error f)
  work_le : work packed plain r' ≤ work packed plain r
  silent : request = none → work packed plain r' < work packed plain r
  needInput : request = some .needInput →
    r'.Drained ∧ (r'.eof = true → work packed plain r' < work packed plain r)
  seekAndRead : ∀ a b, request = some (.seekAndRead a b) →
    r'.Drained ∧ work packed plain r' < work packed plain r
  outputReady : request = some .outputReady → 0 < r'.serveable
  done : request = some .done → r'.state = .done ∧ r'.serveable = 0

theorem rangeOf_eq_nil {offset len : Nat} (h : plain.length ≤ offset) :
    rangeOf plain offset len = [] := by
  rw [rangeOf, Nat.min_eq_right h]
  exact seg_eq_nil_of_length_le _ (Nat.le_refl _)

/-- A reader that still skips where the stream ends has nothing to deliver. -/
theorem Skips.finishes {r : StreamReader σ κ} {offset len remaining : Nat}
    {delivered : List Byte} (h : Skips r offset delivered remaining)
    (hend : r.unpackedPos = plain.length) : Finishes plain r offset len delivered := by
  have htarget := h.target
  have hbuf : r.buffered = [] := List.eq_nil_of_length_eq_zero (by rw [buffered_length, h.empty])
  refine ⟨?_, ?_, ?_⟩
  · rw [h.none, hbuf, rangeOf_eq_nil (by omega), List.take_nil, List.append_nil]
  · rw [h.none, h.empty, List.length_nil]
    omega
  · rintro (hserve | hsome)
    · rw [serveable_eq, h.empty] at hserve
      omega
    · exact absurd h.none hsome

/-- The state field says nothing about where the reader stands. -/
theorem Standing.withState {r : StreamReader σ κ} {c : Nat} (hs : Standing packed plain At r c)
    (state : State) : Standing packed plain At { r with state } c :=
  ⟨hs.started, hs.stands, hs.compressed, hs.input, hs.inputPos, hs.bufferedLen_le, hs.buffered,
    hs.eof, hs.ended⟩

theorem Frame.withState {r r' : StreamReader σ κ} (h : Frame r r') (state : State) :
    Frame r { r' with state } :=
  ⟨h.codec, h.targetOffset, h.targetLen, h.rangeLeft, h.unpackedLen, h.requireFull, h.eof,
    h.drained⟩

theorem Frame.trans {r₁ r₂ r₃ : StreamReader σ κ} (h : Frame r₁ r₂) (h' : Frame r₂ r₃) :
    Frame r₁ r₃ :=
  ⟨h'.codec.trans h.codec, h'.targetOffset.trans h.targetOffset, h'.targetLen.trans h.targetLen,
    h'.rangeLeft.trans h.rangeLeft, h'.unpackedLen.trans h.unpackedLen,
    h'.requireFull.trans h.requireFull, h'.eof.trans h.eof, fun hdrained => h'.drained (h.drained hdrained)⟩

theorem inputLeft_eq_nil {r : StreamReader σ κ} (h : r.inputBuf.length ≤ r.inputPos) :
    r.inputLeft = [] := List.drop_eq_nil_of_le h

/-- Reporting `done` where the stream ends. -/
theorem Standing.outcome_done {r r₂ : StreamReader σ κ} {c offset len : Nat}
    {delivered : List Byte} (hs : Standing packed plain At r₂ c) (hframe : Frame r r₂)
    (hwork : work packed plain r₂ ≤ work packed plain r)
    (hfin : Finishes plain r₂ offset len delivered) (hserve : r₂.serveable = 0)
    (hend : r₂.unpackedPos = plain.length) :
    Outcome codec packed plain At offset len delivered r (some .done)
      { r₂ with streamEnded := true, state := .done } where
  stage := by
    refine .inr ⟨c, ?_, ⟨hfin.complete, hfin.place_le, hfin.place⟩⟩
    exact ⟨hs.started, hs.stands, hs.compressed, hs.input, hs.inputPos, hs.bufferedLen_le,
      hs.buffered, hs.eof, fun _ => hend⟩
  frame := ⟨hframe.codec, hframe.targetOffset, hframe.targetLen, hframe.rangeLeft,
    hframe.unpackedLen, hframe.requireFull, hframe.eof, hframe.drained⟩
  fine := by simp
  work_le := hwork
  silent := by simp
  needInput := by simp
  seekAndRead := by simp
  outputReady := by simp
  done := fun _ => ⟨rfl, hserve⟩

/-- Reporting `needInput`, having moved or with more input to come. -/
theorem outcome_needInput {r r' : StreamReader σ κ} {offset len : Nat} {delivered : List Byte}
    (hstage : Stage codec packed plain At r' offset len delivered) (hframe : Frame r r')
    (hwork : work packed plain r' ≤ work packed plain r) (hleft : r'.Drained)
    (hmoved : r'.eof = true → work packed plain r' < work packed plain r) :
    Outcome codec packed plain At offset len delivered r (some .needInput) r' where
  stage := hstage
  frame := hframe
  fine := by simp
  work_le := hwork
  silent := by simp
  needInput := fun _ => ⟨hleft, hmoved⟩
  seekAndRead := by simp
  outputReady := by simp
  done := by simp

/-- The phases in which the reader decodes. -/
def Decoding (r : StreamReader σ κ) (offset : Nat) (delivered : List Byte) : Prop :=
  (∃ m, r.state = .skipping m ∧ Skips r offset delivered m) ∨
    ∃ m, r.state = .emitting m ∧ Emits r offset delivered m

theorem Decoding.phase {r : StreamReader σ κ} {offset len : Nat} {delivered : List Byte}
    (h : Decoding r offset delivered) : Phase plain r offset len delivered := by
  rcases h with ⟨m, hstate, h⟩ | ⟨m, hstate, h⟩ <;> simpa only [Phase, hstate] using h

theorem Decoding.finishes {r : StreamReader σ κ} {c offset len : Nat} {delivered : List Byte}
    (h : Decoding r offset delivered) (hs : Standing packed plain At r c)
    (hrange : Range plain r offset len delivered) (hend : r.unpackedPos = plain.length) :
    Finishes plain r offset len delivered := by
  rcases h with ⟨m, _, hskips⟩ | ⟨m, _, hemits⟩
  · exact hskips.finishes hend
  · exact hrange.finishes hs hemits.place (.inr hend)

/-- Asking for input in mid-decode remembers what was being decoded. -/
theorem Decoding.needInput {r : StreamReader σ κ} {offset len : Nat} {delivered : List Byte}
    {result : DecompressResult} {hadInput : Bool} (h : Decoding r offset delivered)
    (hstop : ¬ (result.status = .streamEnd ∧ hadInput = true))
    (hempty : r.inputBuf.length ≤ r.inputPos) (heof : ¬ r.eof = true) :
    ∃ state, r.afterDecode result hadInput = (some .needInput, { r with state }) ∧
      Phase plain { r with state } offset len delivered := by
  have hleft := inputLeft_eq_nil hempty
  rcases h with ⟨m, hstate, h⟩ | ⟨m, hstate, h⟩
  · refine ⟨.needInputSkipping m, ?_, ?_⟩
    · simp only [afterDecode, if_neg hstop, if_pos hempty, if_neg heof, hstate]
    · exact ⟨⟨h.pos, h.empty, h.target, h.none, h.range⟩, hleft⟩
  · refine ⟨.needInputEmitting m, ?_, ?_⟩
    · simp only [afterDecode, if_neg hstop, if_pos hempty, if_neg heof, hstate]
    · exact ⟨⟨h.pos, h.place, h.range⟩, hleft⟩

/-- The tail of a decode call that gave the caller nothing. -/
theorem afterDecode_outcome {r r₂ : StreamReader σ κ} {result : DecompressResult} {d : σ}
    {dropped c room offset len : Nat} {delivered : List Byte}
    (hC : Obeys codec packed plain At) (hs : Standing packed plain At r c)
    (hgood : GoodCall At packed plain c r.unpackedPos r.inputLeft room result d)
    (hadv : Advanced r r₂ result d dropped) (hdropped : dropped ≤ result.produced.length)
    (hframe : Frame r r₂) (hrange : Range plain r₂ offset len delivered)
    (hempty : r₂.bufferedLen = 0) (hphase : Decoding r₂ offset delivered) :
    Outcome codec packed plain At offset len delivered r
      (r₂.afterDecode result (!r.inputLeft.isEmpty)).1
      (r₂.afterDecode result (!r.inputLeft.isEmpty)).2 := by
  have hs₂ := hadv.standing hs hgood hdropped
  have hwork := hadv.work_le hs hgood.consumed_le
  have hserve : r₂.serveable = 0 := by rw [serveable_eq, hempty, Nat.zero_min]
  have hstage : Stage codec packed plain At r₂ offset len delivered := .inr ⟨_, hs₂, hphase.phase⟩
  have hended : ∀ {req}, r₂.unpackedPos = plain.length →
      req = (some .done, { r₂ with streamEnded := true, state := .done }) →
      Outcome codec packed plain At offset len delivered r req.1 req.2 := by
    rintro req hend rfl
    exact hs₂.outcome_done hframe hwork (hphase.finishes hs₂ hrange hend) hserve hend
  by_cases hstop : result.status = .streamEnd ∧ (!r.inputLeft.isEmpty) = true
  · refine hended ?_ (by simp only [afterDecode, if_pos hstop])
    rw [hadv.unpackedPos]
    exact hgood.ended hstop.1
  · by_cases hout : r₂.inputBuf.length ≤ r₂.inputPos
    · by_cases heof : r₂.eof = true
      · by_cases hidle : result.bytesConsumed = 0 ∧ result.bytesProduced = 0
        · have hpos := hs₂.compressed
          rw [inputLeft_eq_nil hout, List.length_nil] at hpos
          have hwithin := hC.within _ _ _ hs₂.stands
          have hend : ¬ (0 < r₂.compressedPos ∧ result.status ≠ .streamEnd) ∧
              r₂.unpackedPos = plain.length := by
            rcases hgood.idle hidle with ⟨hstatus, hend⟩ | ⟨hpacked, hplain⟩
            · have hnone : result.produced.length = 0 := hidle.2
              refine ⟨fun h => h.2 hstatus, ?_⟩
              rw [hadv.unpackedPos, hnone, hend]
              rfl
            · rw [hpacked, hplain, List.length_nil] at hwithin
              rw [hplain, List.length_nil]
              omega
          refine hended hend.2 ?_
          simp only [afterDecode, if_neg hstop, if_pos hout, if_pos heof, if_pos hidle,
            if_neg hend.1]
        · have heq : r₂.afterDecode result (!r.inputLeft.isEmpty) = (some .needInput, r₂) := by
            simp only [afterDecode, if_neg hstop, if_pos hout, if_pos heof, if_neg hidle]
          rw [heq]
          exact outcome_needInput hstage hframe hwork ⟨inputLeft_eq_nil hout, hs₂.started⟩
            fun _ => hadv.work_lt hC hs hgood hidle
      · obtain ⟨state, heq, hst⟩ := hphase.needInput hstop hout heof
        rw [heq]
        exact outcome_needInput (.inr ⟨_, hs₂.withState state, hst⟩) (hframe.withState state)
          hwork ⟨inputLeft_eq_nil hout, hs₂.started⟩ fun h => absurd h heof
    · have hidle : ¬ (result.bytesConsumed = 0 ∧ result.bytesProduced = 0) := by
        intro hidle
        have hleft : r.inputLeft ≠ [] := by
          intro hnil
          have hlen : r.inputLeft.length = r.inputBuf.length - r.inputPos := by
            simp [StreamReader.inputLeft]
          rw [hnil, List.length_nil] at hlen
          rw [hadv.inputBuf, hadv.inputPos] at hout
          omega
        rcases hgood.idle hidle with ⟨hstatus, _⟩ | ⟨hpacked, _⟩
        · exact hstop ⟨hstatus, by simpa using hleft⟩
        · have hinput := hs.input
          rw [hpacked, List.drop_nil] at hinput
          exact hleft (List.eq_nil_of_prefix_nil hinput)
      have heq : r₂.afterDecode result (!r.inputLeft.isEmpty) = (none, r₂) := by
        simp only [afterDecode, if_neg hstop, if_neg hout, if_neg hidle]
      rw [heq]
      exact
        { stage := hstage, frame := hframe, fine := by simp, work_le := hwork,
          silent := fun _ => hadv.work_lt hC hs hgood hidle, needInput := by simp,
          seekAndRead := by simp, outputReady := by simp, done := by simp }

/-- Reporting decoded bytes. -/
theorem outcome_outputReady {r r' : StreamReader σ κ} {offset len : Nat} {delivered : List Byte}
    (hstage : Stage codec packed plain At r' offset len delivered) (hframe : Frame r r')
    (hwork : work packed plain r' ≤ work packed plain r) (hserve : 0 < r'.serveable) :
    Outcome codec packed plain At offset len delivered r (some .outputReady) r' where
  stage := hstage
  frame := hframe
  fine := by simp
  work_le := hwork
  silent := by simp
  needInput := by simp
  seekAndRead := by simp
  outputReady := fun _ => hserve
  done := by simp

theorem Outcome.congrStart {r r₁ r' : StreamReader σ κ} {offset len : Nat}
    {delivered : List Byte} {request : Option EngineRequest}
    (h : Outcome codec packed plain At offset len delivered r₁ request r') (hframe : Frame r r₁)
    (hwork : work packed plain r₁ ≤ work packed plain r) :
    Outcome codec packed plain At offset len delivered r request r' where
  stage := h.stage
  frame := hframe.trans h.frame
  fine := h.fine
  work_le := Nat.le_trans h.work_le hwork
  silent := fun hnone => Nat.lt_of_lt_of_le (h.silent hnone) hwork
  needInput := fun hreq =>
    ⟨(h.needInput hreq).1, fun heof => Nat.lt_of_lt_of_le ((h.needInput hreq).2 heof) hwork⟩
  seekAndRead := fun a b hreq =>
    ⟨(h.seekAndRead a b hreq).1, Nat.lt_of_lt_of_le (h.seekAndRead a b hreq).2 hwork⟩
  outputReady := h.outputReady
  done := h.done

/-- The state after bytes of the range were made: `left` more are owed, unless the
stream ended. -/
theorem Range.produced_phase {r : StreamReader σ κ} {c offset len left : Nat}
    {delivered : List Byte} (hrange : Range plain r offset len delivered)
    (hs : Standing packed plain At r c)
    (place : r.unpackedPos - r.bufferedLen = offset + delivered.length)
    (hleft : left = r.rangeLeft - r.bufferedLen)
    (hstate : r.state = (if left = 0 then .done else .emitting left) ∨
      r.state = .done ∧ r.unpackedPos = plain.length) :
    Phase plain r offset len delivered := by
  rcases hstate with hstate | ⟨hstate, hend⟩
  · by_cases hzero : left = 0
    · rw [if_pos hzero] at hstate
      simp only [Phase, hstate]
      exact hrange.finishes hs place (.inl (by omega))
    · rw [if_neg hzero] at hstate
      simp only [Phase, hstate]
      exact ⟨by omega, place, by omega⟩
  · simp only [Phase, hstate]
    exact hrange.finishes hs place (.inr hend)

end Serve
end StreamReader
end Iluvatar
