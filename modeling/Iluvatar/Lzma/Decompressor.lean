/-
The raw LZMA decompressor, and how it is fed.

It resumes the symbol machine: what a feeding comes to is decided by the machine's run over
the whole stream, however that is cut.
-/
import Iluvatar.Compress.Stage
import Iluvatar.Lzma.FastAgrees

namespace Iluvatar

open Sansio

/-- Full state of a raw LZMA decompressor. -/
structure LzmaCheckpointState (ω : Type) where
  decoderState : LzmaDecoder ω
  finished : Bool

/-- Raw LZMA without a container: the properties and the sizes come from outside. -/
structure LzmaDecompressor (ω : Type) where
  inner : LzmaDecoder ω
  props : LzmaProperties
  unpackSize : Option Nat
  finished : Bool

namespace LzmaDecompressor

section

variable {ω : Type} [LzmaWindow ω]

def new (props : LzmaProperties) (dictSize : UInt32) (unpackSize : Option Nat) :
    LzmaDecompressor ω :=
  { inner := (LzmaDecoder.new props dictSize).setUnpackSize unpackSize
    props, unpackSize, finished := false }

/-- From the properties byte of a `.lzma` file. -/
def fromPropsByte (props : Byte) (dictSize : UInt32) (unpackSize : Option Nat) :
    Except Error (LzmaDecompressor ω) :=
  match LzmaProperties.fromByte props with
  | none =>
    .error (.decompressionError ("invalid LZMA properties byte: " ++ toString props.toNat))
  | some props => .ok (new props dictSize unpackSize)

def decompress (s : LzmaDecompressor ω) (input : List Byte) (room : Nat) :
    Except Fault (DecompressResult × LzmaDecompressor ω) :=
  if s.finished then .ok ({ bytesConsumed := 0, produced := [], status := .streamEnd }, s)
  else do
    let (result, inner) ← s.inner.decode input room
    match result.status with
    | .finishedWithMark | .finishedWithoutMark =>
      return ({
        bytesConsumed := result.bytesConsumed
        produced := result.produced
        status := .streamEnd }, { s with inner, finished := true })
    | .continue | .needInput =>
      if input.isEmpty ∧ result.produced.length = 0 then throw (.error .truncatedInput)
      else
        return ({
          bytesConsumed := result.bytesConsumed
          produced := result.produced
          status := .continue }, { s with inner })

def checkpoint (s : LzmaDecompressor ω) (compressedOffset uncompressedOffset : Nat) :
    Except Error (Option (Checkpoint (LzmaCheckpointState ω))) :=
  .ok (some
    { compressedOffset, bitOffset := 0, uncompressedOffset
      state := some { decoderState := s.inner, finished := s.finished } })

def restore (s : LzmaDecompressor ω) (cp : Checkpoint (LzmaCheckpointState ω)) :
    Except Error (LzmaDecompressor ω) :=
  match cp.state with
  | some state => .ok { s with inner := state.decoderState, finished := state.finished }
  | none =>
    .ok { s with
      inner := (LzmaDecoder.new s.props s.inner.dictSize).setUnpackSize s.unpackSize
      finished := false }

end

open SymbolState LzmaDecoder

/-- A decompressor under way: it stands for the machine's state with its pending output taken. -/
structure Represents (s : LzmaDecompressor SlidingWindow) (m : SymbolState) (held pending : List Byte) :
    Prop where
  held : held = []
  unfinished : s.finished = false
  wf : s.inner.window.Wf
  good : Good m
  state : m = settled s.inner.view
  pending : pending = s.inner.window.pendingOut

/-- A machine's failure is the decompressor's. -/
def verdict : Except Fault LzmaDecodeStatus → Option Fault
  | .error f => some f
  | .ok _ => none

/-- One call does some of the machine's steps. -/
theorem serves {s : LzmaDecompressor SlidingWindow} {m : SymbolState} {held pending : List Byte}
    (h : s.Represents m held pending) (input : List Byte) {room : Nat} (hroom : 0 < room) :
    Serves symbolMachine Represents verdict (.error .truncatedInput) (· = []) m held pending input
      (asCall decompress s input room) := by
  obtain ⟨rfl, hunfinished, hwf, hgood, rfl, rfl⟩ := h
  obtain ⟨r, v, hdecode, hdecoded⟩ := decode_spec hgood input room
  obtain ⟨⟨r', d⟩, hdecode', rfl, hd, rfl⟩ := decode_shows ⟨hwf, rfl⟩ input room _ hdecode
  obtain ⟨out, hrun, hout⟩ := hdecoded.along.run
  have hnotFinished : ¬ s.finished = true := by
    rw [hunfinished]
    exact Bool.false_ne_true
  have hgood' : Good (settled d.view) := hdecoded.along.good
  have hcall : s.decompress input room = match r'.status with
      | .finishedWithMark | .finishedWithoutMark =>
        .ok ({
          bytesConsumed := r'.bytesConsumed
          produced := r'.produced
          status := .streamEnd }, { s with inner := d, finished := true })
      | .continue | .needInput =>
        if input.isEmpty ∧ r'.produced.length = 0 then .error (.error .truncatedInput)
        else
          .ok ({
            bytesConsumed := r'.bytesConsumed
            produced := r'.produced
            status := .continue }, { s with inner := d }) := by
    rw [decompress, if_neg hnotFinished, hdecode']
    rfl
  have hstopped := hdecoded.stopped
  generalize hstatus : r'.status = status at hcall hstopped
  rw [asCall, hcall]
  cases hstopped with
  | needInput hnil hpending hneed =>
    by_cases hquiet : input.isEmpty = true ∧ r'.produced.length = 0
    · have hempty : input = [] := List.isEmpty_iff.mp hquiet.1
      simp only [if_pos hquiet]
      subst hempty
      rw [List.drop_nil] at hrun
      exact .truncated rfl hrun hneed
    · simp only [if_neg hquiet]
      refine .going rfl hdecoded.consumed ?_ ⟨rfl, hunfinished, hd, hgood', rfl, rfl⟩ hrun hout
      by_cases hproduced : r'.produced.length = 0
      · have hall : input.drop r'.bytesConsumed = [] := hnil
        have hlen := List.drop_eq_nil_iff.mp hall
        have hsome : input ≠ [] := fun hf => hquiet ⟨List.isEmpty_iff.mpr hf, hproduced⟩
        have hpos := List.length_pos_of_ne_nil hsome
        exact .inl (Nat.lt_of_lt_of_le hpos hlen)
      · exact .inr (Nat.pos_of_ne_zero hproduced)
  | full hfull =>
    have hproduced : r'.produced.length = room := hfull
    have hquiet : ¬ (input.isEmpty = true ∧ r'.produced.length = 0) := fun hf => by omega
    simp only [if_neg hquiet]
    exact .going rfl hdecoded.consumed (.inr (Nat.lt_of_lt_of_eq hroom hproduced.symm)) ⟨rfl, hunfinished, hd, hgood', rfl, rfl⟩
      hrun hout
  | ended hends hpending hhalt =>
    have hnone : d.view.window.pending = [] := hpending
    rw [hnone, List.append_nil] at hout
    cases status with
    | «continue» => exact hends.elim
    | needInput => exact hends.elim
    | finishedWithMark => exact .ended rfl hdecoded.consumed rfl hrun hhalt rfl hout
    | finishedWithoutMark => exact .ended rfl hdecoded.consumed rfl hrun hhalt rfl hout

/-- The decompressor resumes the symbol machine. -/
theorem resumes :
    Resumes symbolMachine (asCall (decompress (ω := SlidingWindow))) Represents verdict
      (.error .truncatedInput) (· = []) where
  good := fun _ _ _ _ h => h.good
  serves := fun _ _ _ _ input _ h hroom => serves h input hroom

/-- The properties of a valid byte. -/
theorem fromByte_valid {b : Byte} {props : LzmaProperties} (h : LzmaProperties.fromByte b = some props) :
    props.lc ≤ 8 ∧ props.lp ≤ 4 ∧ props.pb ≤ 4 := by
  unfold LzmaProperties.fromByte at h
  split at h
  · cases h
  · next hlt =>
    obtain rfl := Option.some.inj h
    refine ⟨?_, ?_, ?_⟩
    · show b.toNat % 9 ≤ 8
      omega
    · show b.toNat / 9 % 5 ≤ 4
      omega
    · show b.toNat / 9 / 5 ≤ 4
      omega

/-- The machine a new decompressor stands for. -/
def start (props : LzmaProperties) (dictSize : UInt32) (unpackSize : Option Nat) : SymbolState :=
  (LzmaDecoder.new props dictSize).setUnpackSize unpackSize

/-- A new decompressor stands at the machine's start. -/
theorem new_represents (props : LzmaProperties) (dictSize : UInt32) (unpackSize : Option Nat)
    (hlc : props.lc ≤ 8) (hlp : props.lp ≤ 4) (hpb : props.pb ≤ 4) :
    (new props dictSize unpackSize : LzmaDecompressor SlidingWindow).Represents
      (start props dictSize unpackSize) [] [] := by
  obtain ⟨⟨hlength, hprobs, _, _, _, hstate, hsize, hdict, hpending, hreps⟩, _, hstarting⟩ :=
    new_good props dictSize hlc hlp hpb
  refine ⟨rfl, rfl, SlidingWindow.new_wf _, ?_, rfl, rfl⟩
  refine ⟨⟨hlength, hprobs, hlc, hlp, hpb, hstate, hsize, hdict, hpending, hreps⟩, ?_, hstarting⟩
  exact ⟨⟨rfl, rfl⟩, fun unpack _ => Nat.zero_le unpack⟩

end LzmaDecompressor
end Iluvatar
