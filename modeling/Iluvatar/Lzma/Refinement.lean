/-
The decoder on a sliding window does what it does on a history.

Every function goes through on the window wherever it does on the history the window stands
for, and what it leaves stands for what it leaves there.
-/
import Iluvatar.Lzma.WindowView

namespace Iluvatar

open Except

namespace LzmaDecoder

/-- The decoder on the history its window stands for. -/
def view (d : LzmaDecoder SlidingWindow) : LzmaDecoder History :=
  { props := d.props
    dictSize := d.dictSize
    rangeDecoder := d.rangeDecoder
    rcInitialized := d.rcInitialized
    state := d.state
    reps := d.reps
    probs := d.probs
    window := d.window.view
    phase := d.phase
    unpackSize := d.unpackSize
    decodedSize := d.decodedSize
    lenDecodeState := d.lenDecodeState
    distDecodeState := d.distDecodeState }

/-- A decoder on a window and the one on a history that it stands for. -/
def Shows (d : LzmaDecoder SlidingWindow) (v : LzmaDecoder History) : Prop :=
  d.window.Wf ∧ d.view = v

variable {d : LzmaDecoder SlidingWindow} {v : LzmaDecoder History}

theorem Shows.window (h : d.Shows v) : d.window.Shows v.window := by
  obtain ⟨hwf, rfl⟩ := h
  exact ⟨hwf, rfl⟩

/-- The decoder with another window. -/
theorem Shows.withWindow (h : d.Shows v) {w : SlidingWindow} {u : History} (hw : w.Shows u) :
    Shows { d with window := w } { v with window := u } := by
  obtain ⟨_, rfl⟩ := h
  obtain ⟨hwf, rfl⟩ := hw
  exact ⟨hwf, rfl⟩

@[simp] theorem view_probs (d : LzmaDecoder SlidingWindow) : d.view.probs = d.probs := rfl
@[simp] theorem view_rangeDecoder (d : LzmaDecoder SlidingWindow) :
    d.view.rangeDecoder = d.rangeDecoder := rfl
@[simp] theorem view_phase (d : LzmaDecoder SlidingWindow) : d.view.phase = d.phase := rfl
@[simp] theorem view_distDecodeState (d : LzmaDecoder SlidingWindow) :
    d.view.distDecodeState = d.distDecodeState := rfl
@[simp] theorem view_lenDecodeState (d : LzmaDecoder SlidingWindow) :
    d.view.lenDecodeState = d.lenDecodeState := rfl

/-- A value next to the decoder and the rest of the input. -/
abbrev Alike {α : Type} : α × LzmaDecoder SlidingWindow × List Byte →
    α × LzmaDecoder History × List Byte → Prop :=
  Both Eq (Both Shows Eq)

/-- What a resumable function leaves. -/
def Resumes {α : Type} (r : Resumed SlidingWindow α) (r' : Resumed History α) : Prop :=
  r.value = r'.value ∧ r.decoder.Shows r'.decoder ∧ r.input = r'.input

section

variable {α β : Type} {P : α → β → Prop}

/-- A bit is decoded alike, or input is needed alike. -/
theorem bit_then (h : d.Shows v) (idx : Nat) (input : List Byte)
    {f : Option (Nat × LzmaDecoder SlidingWindow × List Byte) → Except Fault α}
    {g : Option (Nat × LzmaDecoder History × List Byte) → Except Fault β}
    (hnone : Refines P (f none) (g none))
    (hsome : ∀ b d v input, Shows d v → Refines P (f (some (b, d, input))) (g (some (b, v, input)))) :
    Refines P (d.bit idx input >>= f) (v.bit idx input >>= g) := by
  obtain ⟨hwf, rfl⟩ := h
  simp only [bit, view_probs, view_rangeDecoder]
  cases d.probs[idx]? with
  | none => exact Refines.error
  | some p =>
    cases hbit : d.rangeDecoder.decodeBit p input with
    | none =>
      simp only [hbit]
      exact hnone
    | some r =>
      simp only [hbit]
      exact hsome _ _ _ _ ⟨hwf, rfl⟩

end

theorem bitTree_shows (base : Nat) :
    ∀ n {m d v input}, Shows d v →
      Refines (Both Eq Alike) (bitTree base n m d input) (bitTree base n m v input) := by
  intro n
  induction n with
  | zero => intro m d v input h; exact Refines.ok ⟨rfl, rfl, h, rfl⟩
  | succ n ih =>
    intro m d v input h
    rw [bitTree, bitTree]
    apply bit_then h
    · exact Refines.ok ⟨rfl, rfl, h, rfl⟩
    · intro b d v input h
      exact ih h

theorem reverseBits_shows (base : Nat) :
    ∀ n {i m symbol d v input}, Shows d v →
      Refines (Both Eq (Both Eq (Both Eq Alike))) (reverseBits base n i m symbol d input)
        (reverseBits base n i m symbol v input) := by
  intro n
  induction n with
  | zero => intro i m symbol d v input h; exact Refines.ok ⟨rfl, rfl, rfl, rfl, h, rfl⟩
  | succ n ih =>
    intro i m symbol d v input h
    rw [reverseBits, reverseBits]
    apply bit_then h
    · exact Refines.ok ⟨rfl, rfl, rfl, rfl, h, rfl⟩
    · intro b d v input h
      exact ih h

theorem directBits_shows :
    ∀ n {dist d v input}, Shows d v →
      Both Eq Alike (directBits n dist d input) (directBits n dist v input) := by
  intro n
  induction n with
  | zero => intro dist d v input h; exact ⟨rfl, rfl, h, rfl⟩
  | succ n ih =>
    intro dist d v input h
    obtain ⟨hwf, rfl⟩ := h
    simp only [directBits, view_rangeDecoder]
    cases hbit : d.rangeDecoder.decodeDirectBit input with
    | none => exact ⟨rfl, rfl, ⟨hwf, rfl⟩, rfl⟩
    | some r => exact ih ⟨hwf, rfl⟩

theorem prevByte_shows (h : d.Shows v) : Refines Eq d.prevByte v.prevByte := by
  unfold prevByte
  apply Refines.ite
  · show d.window.isEmpty = true ↔ _
    rw [h.window.isEmpty]
    rfl
  · intro _
    exact Refines.ok rfl
  · intro _
    exact h.window.getByte 1

/-- The byte at the latest distance. -/
theorem getByte_shows (h : d.Shows v) :
    Refines Eq (LzmaWindow.getByte d.window (d.reps.r0.toNat + 1))
      (LzmaWindow.getByte v.window (v.reps.r0.toNat + 1)) := by
  have hbyte := h.window.getByte (d.reps.r0.toNat + 1)
  obtain ⟨hwf, rfl⟩ := h
  exact hbyte

theorem matchByte_shows (h : d.Shows v) : Refines Eq d.matchByte v.matchByte := by
  have hbyte := getByte_shows h
  obtain ⟨hwf, rfl⟩ := h
  exact Refines.ite Iff.rfl (fun _ => hbyte) (fun _ => Refines.ok rfl)

theorem litState_shows (h : d.Shows v) (prev : Byte) : d.litState prev = v.litState prev := by
  obtain ⟨hwf, rfl⟩ := h
  rfl

theorem startLiteralDecode_shows (h : d.Shows v) :
    Refines Shows d.startLiteralDecode v.startLiteralDecode := by
  unfold startLiteralDecode
  refine (prevByte_shows h).bind ?_
  rintro prev _ rfl
  refine (matchByte_shows h).bind ?_
  rintro matched _ rfl
  obtain ⟨hwf, rfl⟩ := h
  exact Refines.ok ⟨hwf, rfl⟩

theorem matchedLiteral_shows (offset : Nat) :
    ∀ fuel {ls d v input}, Shows d v →
      Refines Resumes (matchedLiteral offset fuel ls d input)
        (matchedLiteral offset fuel ls v input) := by
  intro fuel
  induction fuel with
  | zero => intro ls d v input h; exact Refines.error
  | succ fuel ih =>
    intro ls d v input h
    rw [matchedLiteral, matchedLiteral]
    refine Refines.ite Iff.rfl (fun _ => Refines.ok ⟨rfl, h, rfl⟩) (fun _ => ?_)
    apply bit_then h
    · obtain ⟨hwf, rfl⟩ := h
      exact Refines.ok ⟨rfl, ⟨hwf, rfl⟩, rfl⟩
    · intro b d v input h
      exact Refines.ite Iff.rfl (fun _ => Refines.ok ⟨rfl, h, rfl⟩) (fun _ => ih h)

theorem plainLiteral_shows (offset : Nat) :
    ∀ fuel {ls d v input}, Shows d v →
      Refines Resumes (plainLiteral offset fuel ls d input)
        (plainLiteral offset fuel ls v input) := by
  intro fuel
  induction fuel with
  | zero => intro ls d v input h; exact Refines.error
  | succ fuel ih =>
    intro ls d v input h
    rw [plainLiteral, plainLiteral]
    refine Refines.ite Iff.rfl (fun _ => Refines.ok ⟨rfl, h, rfl⟩) (fun _ => ?_)
    apply bit_then h
    · obtain ⟨hwf, rfl⟩ := h
      exact Refines.ok ⟨rfl, ⟨hwf, rfl⟩, rfl⟩
    · intro b d v input h
      exact ih h

theorem matchedPart_shows (h : d.Shows v) (offset : Nat) (ls : LiteralState) (input : List Byte) :
    Refines Resumes (matchedPart offset ls d input) (matchedPart offset ls v input) :=
  Refines.ite Iff.rfl (fun _ => matchedLiteral_shows offset 9 h) (fun _ => Refines.ok ⟨rfl, h, rfl⟩)

theorem putLiteral_shows (h : d.Shows v) (input : List Byte) (room : Nat) (ls : LiteralState) :
    Resumes (d.putLiteral input room ls) (v.putLiteral input room ls) := by
  obtain ⟨hdrained, hwindow⟩ :=
    (h.window.putByte (UInt8.ofNat (ls.symbol - 0x100))).drainOutput room
  obtain ⟨_, rfl⟩ := h
  refine ⟨congrArg some hdrained, ?_, rfl⟩
  obtain ⟨hwf, hview⟩ := hwindow
  exact ⟨hwf, congrArg (fun u : History => { d.view with
    window := u
    state := updateStateLiteral d.state
    decodedSize := d.decodedSize + 1
    phase := .newSymbol }) hview⟩

theorem continueLiteralDecode_shows (h : d.Shows v) (input : List Byte) (room : Nat) (ls : LiteralState) :
    Refines Resumes (d.continueLiteralDecode input room ls) (v.continueLiteralDecode input room ls) := by
  unfold continueLiteralDecode
  refine (matchedPart_shows h _ ls input).bind ?_
  rintro ⟨value, d, input⟩ ⟨_, v, _⟩ ⟨rfl, h, rfl⟩
  cases value with
  | none => exact Refines.ok ⟨rfl, h, rfl⟩
  | some ls =>
    refine (plainLiteral_shows _ 9 h).bind ?_
    rintro ⟨value, d, input⟩ ⟨_, v, _⟩ ⟨rfl, h, rfl⟩
    cases value with
    | none => exact Refines.ok ⟨rfl, h, rfl⟩
    | some ls => exact Refines.ok (putLiteral_shows h input room ls)

/-! ## Rep matches -/

theorem startRepLength_shows (h : d.Shows v) (matchType : MatchType) (posState : Nat) :
    (d.startRepLength matchType posState).Shows (v.startRepLength matchType posState) := by
  obtain ⟨hwf, rfl⟩ := h
  exact ⟨hwf, rfl⟩

/-- Another phase. -/
theorem Shows.withPhase (h : d.Shows v) (phase : DecodePhase) :
    Shows { d with phase } { v with phase } := by
  obtain ⟨hwf, rfl⟩ := h
  exact ⟨hwf, rfl⟩

theorem Shows.withReps (h : d.Shows v) (f : Reps → Reps) :
    Shows { d with reps := f d.reps } { v with reps := f v.reps } := by
  obtain ⟨hwf, rfl⟩ := h
  exact ⟨hwf, rfl⟩

theorem Shows.isEmpty (h : d.Shows v) : LzmaWindow.isEmpty d.window = LzmaWindow.isEmpty v.window :=
  h.window.isEmpty

theorem decodeRepG2_shows (h : d.Shows v) (input : List Byte) (posState : Nat) :
    Refines Resumes (d.decodeRepG2 input posState) (v.decodeRepG2 input posState) := by
  unfold decodeRepG2
  obtain ⟨hwf, rfl⟩ := h
  have h : d.Shows d.view := ⟨hwf, rfl⟩
  apply bit_then h
  · exact Refines.ok ⟨rfl, h.withPhase _, rfl⟩
  · intro b d v input h
    by_cases hb : b = 0
    · simp only [if_pos hb]
      exact Refines.ok ⟨rfl, startRepLength_shows (h.withReps Reps.takeRep2) _ _, rfl⟩
    · simp only [if_neg hb]
      exact Refines.ok ⟨rfl, startRepLength_shows (h.withReps Reps.takeRep3) _ _, rfl⟩

theorem decodeRepG1_shows (h : d.Shows v) (input : List Byte) (posState : Nat) :
    Refines Resumes (d.decodeRepG1 input posState) (v.decodeRepG1 input posState) := by
  unfold decodeRepG1
  obtain ⟨hwf, rfl⟩ := h
  have h : d.Shows d.view := ⟨hwf, rfl⟩
  apply bit_then h
  · exact Refines.ok ⟨rfl, h.withPhase _, rfl⟩
  · intro b d v input h
    refine Refines.ite Iff.rfl (fun _ => ?_) (fun _ => decodeRepG2_shows h input posState)
    exact Refines.ok ⟨rfl, startRepLength_shows (h.withReps Reps.takeRep1) _ _, rfl⟩

theorem decodeRep0Long_shows (h : d.Shows v) (input : List Byte) (posState : Nat) :
    Refines Resumes (d.decodeRep0Long input posState) (v.decodeRep0Long input posState) := by
  unfold decodeRep0Long
  obtain ⟨hwf, rfl⟩ := h
  have h : d.Shows d.view := ⟨hwf, rfl⟩
  apply bit_then h
  · exact Refines.ok ⟨rfl, h.withPhase _, rfl⟩
  · intro b d v input h
    refine Refines.ite Iff.rfl (fun _ => ?_) (fun _ => ?_)
    · refine (getByte_shows h).bind ?_
      rintro byte _ rfl
      obtain ⟨hput, hview⟩ := h.window.putByte byte
      obtain ⟨hwf, rfl⟩ := h
      exact Refines.ok ⟨rfl, ⟨hput, congrArg (fun u : History => { d.view with
        state := updateStateShortRep d.state
        window := u
        decodedSize := d.decodedSize + 1
        phase := .newSymbol }) hview⟩, rfl⟩
    · exact Refines.ok ⟨rfl, startRepLength_shows h _ _, rfl⟩

theorem decodeRepType_shows (h : d.Shows v) (input : List Byte) (posState : Nat) :
    Refines Resumes (d.decodeRepType input posState) (v.decodeRepType input posState) := by
  unfold decodeRepType
  have hempty := h.isEmpty
  obtain ⟨hwf, rfl⟩ := h
  have h : d.Shows d.view := ⟨hwf, rfl⟩
  refine Refines.ite Iff.rfl (fun _ => Refines.ok ⟨rfl, h.withPhase _, rfl⟩) (fun _ => ?_)
  refine Refines.ite (by rw [hempty]) (fun _ => Refines.ok ⟨rfl, h.withPhase _, rfl⟩) (fun _ => ?_)
  apply bit_then h
  · exact Refines.ok ⟨rfl, h.withPhase _, rfl⟩
  · intro b d v input h
    exact Refines.ite Iff.rfl (fun _ => decodeRep0Long_shows h input posState)
      (fun _ => decodeRepG1_shows h input posState)

theorem decodeIsRep_shows (h : d.Shows v) (input : List Byte) (posState : Nat) :
    Refines Resumes (d.decodeIsRep input posState) (v.decodeIsRep input posState) := by
  unfold decodeIsRep
  obtain ⟨hwf, rfl⟩ := h
  have h : d.Shows d.view := ⟨hwf, rfl⟩
  apply bit_then h
  · exact Refines.ok ⟨rfl, h.withPhase _, rfl⟩
  · intro b d v input h
    refine Refines.ite Iff.rfl (fun _ => ?_) (fun _ => decodeRepType_shows h input posState)
    obtain ⟨hwf, rfl⟩ := h
    exact Refines.ok ⟨rfl, ⟨hwf, rfl⟩, rfl⟩

/-! ## Lengths and distances -/

theorem Shows.withLen (h : d.Shows v) (lenDecodeState : Option LenDecodeState) :
    Shows { d with lenDecodeState } { v with lenDecodeState } := by
  obtain ⟨hwf, rfl⟩ := h
  exact ⟨hwf, rfl⟩

theorem Shows.withDist (h : d.Shows v) (distDecodeState : Option DistDecodeState) :
    Shows { d with distDecodeState } { v with distDecodeState } := by
  obtain ⟨hwf, rfl⟩ := h
  exact ⟨hwf, rfl⟩

theorem decodeLenTree_shows (h : d.Shows v) (input : List Byte) (lds : LenDecodeState) (coder : LenCoder)
    (m n : Nat) :
    Refines Resumes (d.decodeLenTree input lds coder m n) (v.decodeLenTree input lds coder m n) := by
  unfold decodeLenTree
  refine (bitTree_shows _ n h).bind ?_
  rintro ⟨m, n, d, input⟩ ⟨_, _, v, _⟩ ⟨rfl, rfl, h, rfl⟩
  exact Refines.ite Iff.rfl (fun _ => Refines.ok ⟨rfl, h, rfl⟩)
    (fun _ => Refines.ok ⟨rfl, h.withLen _, rfl⟩)

theorem decodeLenChoice2_shows (h : d.Shows v) (input : List Byte) (lds : LenDecodeState) :
    Refines Resumes (d.decodeLenChoice2 input lds) (v.decodeLenChoice2 input lds) := by
  unfold decodeLenChoice2
  apply bit_then h
  · exact Refines.ok ⟨rfl, h.withLen _, rfl⟩
  · intro b d v input h
    exact Refines.ite Iff.rfl (fun _ => decodeLenTree_shows h input lds .mid _ _)
      (fun _ => decodeLenTree_shows h input lds .high _ _)

theorem decodeLenChoice_shows (h : d.Shows v) (input : List Byte) (lds : LenDecodeState) :
    Refines Resumes (d.decodeLenChoice input lds) (v.decodeLenChoice input lds) := by
  unfold decodeLenChoice
  apply bit_then h
  · exact Refines.ok ⟨rfl, h.withLen _, rfl⟩
  · intro b d v input h
    exact Refines.ite Iff.rfl (fun _ => decodeLenTree_shows h input lds .low _ _)
      (fun _ => decodeLenChoice2_shows h input lds)

theorem decodeLength_shows (h : d.Shows v) (input : List Byte) :
    Refines Resumes (d.decodeLength input) (v.decodeLength input) := by
  have hnone := h.withLen none
  obtain ⟨hwf, rfl⟩ := h
  unfold decodeLength
  simp only [view_lenDecodeState]
  generalize d.lenDecodeState.getD { isRep := false, posState := 0, phase := .choice } = lds
  cases lds.phase with
  | choice => exact decodeLenChoice_shows hnone input lds
  | low m n => exact decodeLenTree_shows hnone input lds .low m n
  | choice2 => exact decodeLenChoice2_shows hnone input lds
  | mid m n => exact decodeLenTree_shows hnone input lds .mid m n
  | high m n => exact decodeLenTree_shows hnone input lds .high m n

theorem decodeSpecPosBits_shows (h : d.Shows v) (input : List Byte) (lenState : Nat) (dist : UInt32)
    (probsOffset m : Nat) (symbol : UInt32) (i numBits : Nat) :
    Refines Resumes (d.decodeSpecPosBits input lenState dist probsOffset m symbol i numBits)
      (v.decodeSpecPosBits input lenState dist probsOffset m symbol i numBits) := by
  unfold decodeSpecPosBits
  refine (reverseBits_shows _ _ h).bind ?_
  rintro ⟨n, i, m, symbol, d, input⟩ ⟨_, _, _, _, v, _⟩ ⟨rfl, rfl, rfl, rfl, h, rfl⟩
  exact Refines.ite Iff.rfl (fun _ => Refines.ok ⟨rfl, h, rfl⟩)
    (fun _ => Refines.ok ⟨rfl, h.withDist _, rfl⟩)

theorem decodeAlignBits_shows (h : d.Shows v) (input : List Byte) (lenState : Nat) (dist : UInt32)
    (m : Nat) (symbol : UInt32) (i : Nat) :
    Refines Resumes (d.decodeAlignBits input lenState dist m symbol i)
      (v.decodeAlignBits input lenState dist m symbol i) := by
  unfold decodeAlignBits
  refine (reverseBits_shows _ _ h).bind ?_
  rintro ⟨n, i, m, symbol, d, input⟩ ⟨_, _, _, _, v, _⟩ ⟨rfl, rfl, rfl, rfl, h, rfl⟩
  exact Refines.ite Iff.rfl (fun _ => Refines.ok ⟨rfl, h, rfl⟩)
    (fun _ => Refines.ok ⟨rfl, h.withDist _, rfl⟩)

theorem decodeDirectBits_shows (h : d.Shows v) (input : List Byte) (lenState : Nat) (dist : UInt32)
    (n : Nat) :
    Refines Resumes (d.decodeDirectBits input lenState dist n) (v.decodeDirectBits input lenState dist n) := by
  unfold decodeDirectBits
  have hbits := @directBits_shows n dist d v input h
  generalize directBits n dist d input = r at hbits
  generalize directBits n dist v input = r' at hbits
  obtain ⟨n, dist, d, input⟩ := r
  obtain ⟨n', dist', v, input'⟩ := r'
  obtain ⟨rfl, rfl, h, rfl⟩ := hbits
  exact Refines.ite Iff.rfl (fun _ => decodeAlignBits_shows h input lenState _ _ _ _)
    (fun _ => Refines.ok ⟨rfl, h.withDist _, rfl⟩)

theorem decodePosSlot_shows (h : d.Shows v) (input : List Byte) (lenState m n : Nat) :
    Refines Resumes (d.decodePosSlot input lenState m n) (v.decodePosSlot input lenState m n) := by
  unfold decodePosSlot
  refine (bitTree_shows _ n h).bind ?_
  rintro ⟨m, n, d, input⟩ ⟨_, _, v, _⟩ ⟨rfl, rfl, h, rfl⟩
  refine Refines.ite Iff.rfl (fun _ => ?_) (fun _ => Refines.ok ⟨rfl, h.withDist _, rfl⟩)
  refine Refines.ite Iff.rfl (fun _ => Refines.ok ⟨rfl, h, rfl⟩) (fun _ => ?_)
  exact Refines.ite Iff.rfl (fun _ => decodeSpecPosBits_shows h input _ _ _ _ _ _ _)
    (fun _ => decodeDirectBits_shows h input _ _ _)

theorem decodeDistance_shows (h : d.Shows v) (input : List Byte) :
    Refines Resumes (d.decodeDistance input) (v.decodeDistance input) := by
  have hnone := h.withDist none
  obtain ⟨hwf, rfl⟩ := h
  unfold decodeDistance
  simp only [view_distDecodeState]
  cases d.distDecodeState with
  | none => exact Refines.error
  | some dds =>
    simp only
    cases dds.phase with
    | posSlot m n => exact decodePosSlot_shows hnone input _ m n
    | directBits dist n => exact decodeDirectBits_shows hnone input _ dist n
    | alignBits dist m symbol i => exact decodeAlignBits_shows hnone input _ dist m symbol i
    | specPosBits dist probsOffset m symbol i numBits =>
      exact decodeSpecPosBits_shows hnone input _ dist probsOffset m symbol i numBits

end LzmaDecoder
end Iluvatar
