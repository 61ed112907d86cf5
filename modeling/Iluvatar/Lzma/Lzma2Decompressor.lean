/-
The LZMA2 decompressor, and how it is fed.
-/
import Iluvatar.Lzma.Lzma2Calls

namespace Iluvatar

open Sansio

/-- Full state of an LZMA2 decompressor. -/
structure Lzma2FullCheckpointState (ω : Type) where
  decoderState : Lzma2Decoder ω
  totalIn : Nat
  totalOut : Nat
  finished : Bool

structure Lzma2Decompressor (ω : Type) where
  inner : Lzma2Decoder ω
  totalIn : Nat
  totalOut : Nat
  finished : Bool

namespace Lzma2Decompressor

section

variable {ω : Type} [LzmaWindow ω]

def new (dictSize : UInt32) : Lzma2Decompressor ω :=
  { inner := .new dictSize, totalIn := 0, totalOut := 0, finished := false }

/-- From the dictionary size property byte. -/
def fromPropByte (prop : Byte) : Except Error (Lzma2Decompressor ω) :=
  match Lzma2Decoder.fromPropByte prop with
  | none => .error (.decompressionError ("invalid LZMA2 property byte: " ++ toString prop.toNat))
  | some inner => .ok { inner, totalIn := 0, totalOut := 0, finished := false }

def decompress (s : Lzma2Decompressor ω) (input : List Byte) (room : Nat) :
    Except Fault (DecompressResult × Lzma2Decompressor ω) :=
  if s.finished then .ok ({ bytesConsumed := 0, produced := [], status := .streamEnd }, s)
  else do
    let (result, inner) ← s.inner.decode input room
    let s := { s with
      inner
      totalIn := s.totalIn + result.bytesConsumed
      totalOut := s.totalOut + result.produced.length }
    match result.status with
    | .error => throw (.error (.decompressionError "corrupt LZMA2 data"))
    | .finished =>
      return ({
        bytesConsumed := result.bytesConsumed
        produced := result.produced
        status := .streamEnd }, { s with finished := true })
    | .continue | .needInput =>
      -- out of input before the end marker
      if input.isEmpty ∧ result.produced.length = 0 then throw (.error .truncatedInput)
      else
        return ({
          bytesConsumed := result.bytesConsumed
          produced := result.produced
          status := .continue }, s)

def checkpoint (s : Lzma2Decompressor ω) (compressedOffset uncompressedOffset : Nat) :
    Except Error (Option (Checkpoint (Lzma2FullCheckpointState ω))) :=
  .ok (some
    { compressedOffset, bitOffset := 0, uncompressedOffset
      state := some
        { decoderState := s.inner, totalIn := s.totalIn, totalOut := s.totalOut
          finished := s.finished } })

def reset (s : Lzma2Decompressor ω) : Lzma2Decompressor ω :=
  { inner := .new s.inner.decoder.dictSize, totalIn := 0, totalOut := 0, finished := false }

def restore (s : Lzma2Decompressor ω) (cp : Checkpoint (Lzma2FullCheckpointState ω)) :
    Except Error (Lzma2Decompressor ω) :=
  match cp.state with
  | some state =>
    .ok
      { inner := state.decoderState, totalIn := state.totalIn, totalOut := state.totalOut
        finished := state.finished }
  | none => .ok s.reset

end

open SymbolState FrameState Lzma2Decoder

/-- A decompressor under way stands for the normal form of its decoder. -/
structure Represents (s : Lzma2Decompressor SlidingWindow) (m : FrameState) (held pending : List Byte) :
    Prop where
  held : held = []
  unfinished : s.finished = false
  sound : Sound s.inner
  state : m = framed s.inner
  pending : pending = s.inner.decoder.window.pendingOut

/-- The end control byte ends the stream, and corrupt data is an error. -/
def verdict : Except Fault Lzma2DecodeStatus → Option Fault
  | .error f => some f
  | .ok .error => some (.error (.decompressionError "corrupt LZMA2 data"))
  | .ok _ => none

/-- One call does some of the machine's steps. -/
theorem serves {s : Lzma2Decompressor SlidingWindow} {m : FrameState} {held pending : List Byte}
    (h : s.Represents m held pending) (input : List Byte) {room : Nat} (hroom : 0 < room) :
    Serves frameMachine Represents verdict (.error .truncatedInput) (· = []) m held pending input
      (asCall decompress s input room) := by
  obtain ⟨rfl, hunfinished, hsound, rfl, rfl⟩ := h
  obtain ⟨r, d, hdecode, hdecoded⟩ := decode_frames hsound input room
  obtain ⟨out, hrun, hout⟩ := hdecoded.along.run
  have hsound' : Sound d := hdecoded.along.sound
  have hnotFinished : ¬ s.finished = true := by
    rw [hunfinished]
    exact Bool.false_ne_true
  have hcall : s.decompress input room = match r.status with
      | .error => .error (.error (.decompressionError "corrupt LZMA2 data"))
      | .finished =>
        .ok ({
          bytesConsumed := r.bytesConsumed
          produced := r.produced
          status := .streamEnd },
          { inner := d, totalIn := s.totalIn + r.bytesConsumed
            totalOut := s.totalOut + r.produced.length, finished := true })
      | .continue | .needInput =>
        if input.isEmpty ∧ r.produced.length = 0 then .error (.error .truncatedInput)
        else
          .ok ({
            bytesConsumed := r.bytesConsumed
            produced := r.produced
            status := .continue },
            { s with inner := d, totalIn := s.totalIn + r.bytesConsumed
                     totalOut := s.totalOut + r.produced.length }) := by
    rw [decompress, if_neg hnotFinished, hdecode]
    rfl
  have hstopped := hdecoded.stopped
  generalize hstatus : r.status = status at hcall hstopped
  rw [asCall, hcall]
  cases hstopped with
  | ended hstate =>
    have hhalt : frameMachine.step (framed d) (input.drop r.bytesConsumed) = .halt (.ok .finished) := by
      show FrameState.step (framed d) (input.drop r.bytesConsumed) = _
      unfold FrameState.step
      rw [show (framed d).state = .finished from hstate]
    have hpending : d.decoder.window.pendingOut = [] := by
      refine hsound'.idle (.inl ?_)
      rw [show d.state = .finished from hstate]
      simp
    have hout : s.inner.decoder.window.pendingOut ++ out = r.produced ++ d.decoder.window.pendingOut := hout
    rw [hpending, List.append_nil] at hout
    exact .ended rfl hdecoded.consumed rfl hrun hhalt rfl hout
  | failed hstate =>
    have hhalt : frameMachine.step (framed d) (input.drop r.bytesConsumed) = .halt (.ok .error) := by
      show FrameState.step (framed d) (input.drop r.bytesConsumed) = _
      unfold FrameState.step
      rw [show (framed d).state = .error from hstate]
    exact .failed hrun hhalt rfl
  | needInput hnil hpending hneed =>
    by_cases hquiet : input.isEmpty = true ∧ r.produced.length = 0
    · have hempty : input = [] := List.isEmpty_iff.mp hquiet.1
      simp only [if_pos hquiet]
      subst hempty
      rw [List.drop_nil] at hrun
      exact .truncated rfl hrun hneed
    · simp only [if_neg hquiet]
      refine .going rfl hdecoded.consumed ?_ ⟨rfl, hunfinished, hsound', rfl, rfl⟩ hrun hout
      by_cases hproduced : r.produced.length = 0
      · have hlen := List.drop_eq_nil_iff.mp hnil
        have hsome : input ≠ [] := fun hf => hquiet ⟨List.isEmpty_iff.mpr hf, hproduced⟩
        exact .inl (Nat.lt_of_lt_of_le (List.length_pos_of_ne_nil hsome) hlen)
      · exact .inr (Nat.pos_of_ne_zero hproduced)
  | full hfull =>
    have hproduced : r.produced.length = room := hfull
    have hquiet : ¬ (input.isEmpty = true ∧ r.produced.length = 0) := fun hf => by omega
    simp only [if_neg hquiet]
    exact .going rfl hdecoded.consumed (.inr (Nat.lt_of_lt_of_eq hroom hproduced.symm))
      ⟨rfl, hunfinished, hsound', rfl, rfl⟩ hrun hout

/-- The decompressor resumes the frame machine. -/
theorem resumes :
    Resumes frameMachine (asCall (decompress (ω := SlidingWindow))) Represents verdict
      (.error .truncatedInput) (· = []) where
  good := fun s _ _ _ h => by
    obtain ⟨_, _, hsound, rfl, _⟩ := h
    exact hsound.good
  serves := fun _ _ _ _ input _ h hroom => serves h input hroom

/-- A new decoder is sound. -/
theorem new_sound (dictSize : UInt32) : Sound (Lzma2Decoder.new dictSize) := by
  have hnew := LzmaDecoder.new_good { lc := 0, lp := 0, pb := 0 } (max dictSize kDicMin)
    (by decide) (by decide) (by decide)
  have hmax : (max (max dictSize kDicMin) kDicMin).toNat = max (max dictSize.toNat 4096) 4096 := by
    rw [SlidingWindow.toNat_max, SlidingWindow.toNat_max]
    rfl
  refine ⟨SlidingWindow.new_wf _, ?_, fun _ => rfl, fun hf => by cases hf⟩
  rw [framed_outside (fun hf => by cases hf)]
  refine good_of_outside (leave_core hnew.core _) ?_ (fun hf => ?_) (fun hf => by cases hf)
  · show 4096 ≤ (max (max dictSize kDicMin) kDicMin).toNat
    omega
  · rcases hf with hf | hf | hf <;> cases hf

/-- A new decompressor stands at the machine's start. -/
theorem new_represents (dictSize : UInt32) :
    (new dictSize : Lzma2Decompressor SlidingWindow).Represents
      (framed (Lzma2Decoder.new dictSize)) [] [] :=
  ⟨rfl, rfl, new_sound dictSize, rfl, rfl⟩

end Lzma2Decompressor
end Iluvatar
