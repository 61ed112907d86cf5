/-
The resumable functions of the decoder follow the symbol machine: they are suspended in the
very state in which the machine asks for input.
-/
import Iluvatar.Lzma.Follows

namespace Iluvatar

open Sansio

namespace SymbolState

open LzmaDecoder LzmaWindow

variable {α : Type} {d : SymbolState} {input rest : List Byte}

/-- A resumable function saves the state it is suspended in. -/
def resumable : Answers (Resumed History α) α where
  need d rest := .ok { value := none, decoder := d, input := rest }
  value a d rest := { value := some a, decoder := d, input := rest }

/-- The decoder with its pending output taken, and that output. -/
def flush (d : SymbolState) : SymbolState × List Byte :=
  ({ d with window := d.window.flushed }, d.window.pending)

theorem flush_of_pending (h : d.window.pending = []) : flush d = (d, []) := by
  rw [flush, History.flushed_of_pending h, h]

/-- A match has its length to come, a short rep match has put its byte, or the stream ends. -/
def RepDone (d : SymbolState) : Prop :=
  (∃ matchType, d.phase = .matchLength matchType) ∨
    (d.phase = .newSymbol ∧ d.window.pending ≠ []) ∨ ∃ status, d.phase = .finished status

/-- What a rep function leaves is the machine's state, but for a pending byte. -/
def afterRep (_ : Unit) (d : SymbolState) (r : SymbolState × List Byte) : Prop :=
  flush d = r ∧ RepDone d

theorem decodeRepG2_follows (hinit : d.rcInitialized = true) (hpending : d.window.pending = [])
    (posState : Nat) (input : List Byte) :
    Follows resumable { d with phase := .needRepG2 posState } input afterRep (d.decodeRepG2 input posState) := by
  have hstep : SymbolState.step { d with phase := .needRepG2 posState } input =
      repG2Step { d with phase := .needRepG2 posState } posState input := by
    rw [SymbolState.step, if_pos hinit]
  refine .ofBit rfl rfl hstep rfl ?_
  intro b rangeDecoder probs rest
  by_cases hzero : b = 0
  · simp only [if_pos hzero]
    exact .silent (.here ⟨flush_of_pending hpending, .inl ⟨_, rfl⟩⟩)
  · simp only [if_neg hzero]
    exact .silent (.here ⟨flush_of_pending hpending, .inl ⟨_, rfl⟩⟩)

theorem decodeRepG1_follows (hinit : d.rcInitialized = true) (hpending : d.window.pending = [])
    (posState : Nat) (input : List Byte) :
    Follows resumable { d with phase := .needRepG1 posState } input afterRep (d.decodeRepG1 input posState) := by
  have hstep : SymbolState.step { d with phase := .needRepG1 posState } input =
      repG1Step { d with phase := .needRepG1 posState } posState input := by
    rw [SymbolState.step, if_pos hinit]
  refine .ofBit rfl rfl hstep rfl ?_
  intro b rangeDecoder probs rest
  by_cases hzero : b = 0
  · simp only [if_pos hzero]
    exact .silent (.here ⟨flush_of_pending hpending, .inl ⟨_, rfl⟩⟩)
  · simp only [if_neg hzero]
    have hnext := decodeRepG2_follows (d := { d with rangeDecoder, probs }) hinit
          hpending posState rest
    exact .silent hnext

theorem decodeRep0Long_follows (hinit : d.rcInitialized = true) (hpending : d.window.pending = [])
    (posState : Nat) (input : List Byte) :
    Follows resumable { d with phase := .needRep0Long posState } input afterRep
      (d.decodeRep0Long input posState) := by
  have hstep : SymbolState.step { d with phase := .needRep0Long posState } input =
      rep0LongStep { d with phase := .needRep0Long posState } posState input := by
    rw [SymbolState.step, if_pos hinit]
  refine .ofBit rfl rfl hstep rfl ?_
  intro b rangeDecoder probs rest
  by_cases hzero : b = 0
  · simp only [if_pos hzero]
    cases hbyte : LzmaWindow.getByte d.window (d.reps.r0.toNat + 1) with
    | error f => exact .failed
    | ok byte =>
      refine .done ⟨?_, .inr (.inl ⟨rfl, List.append_ne_nil_of_right_ne_nil _ (by simp)⟩)⟩
      show ({ d with
        rangeDecoder, probs
        state := updateStateShortRep d.state
        window := (d.window.put byte).flushed
        decodedSize := d.decodedSize + 1
        phase := .newSymbol }, d.window.pending ++ [byte]) = _
      rw [hpending, History.flushed_of_pending (by exact hpending)]
      rfl
  · simp only [if_neg hzero]
    exact .silent (.here ⟨flush_of_pending hpending, .inl ⟨_, rfl⟩⟩)

theorem decodeRepType_follows (hinit : d.rcInitialized = true) (hpending : d.window.pending = [])
    (posState : Nat) (input : List Byte) :
    Follows resumable { d with phase := .needRepG0 posState } input afterRep
      (d.decodeRepType input posState) := by
  have hstep : SymbolState.step { d with phase := .needRepG0 posState } input =
      repG0Step { d with phase := .needRepG0 posState } posState input := by
    rw [SymbolState.step, if_pos hinit]
  unfold LzmaDecoder.decodeRepType
  unfold repG0Step at hstep
  by_cases hreached : d.reachedUnpackSize = true
  · rw [if_pos hreached]
    rw [if_pos (by exact hreached)] at hstep
    exact .step hstep (.here ⟨flush_of_pending hpending, .inr (.inr ⟨_, rfl⟩)⟩)
  · rw [if_neg hreached]
    rw [if_neg (by exact hreached)] at hstep
    by_cases hempty : isEmpty d.window = true
    · rw [if_pos hempty]
      rw [if_pos (by exact hempty)] at hstep
      exact .step hstep (.here ⟨flush_of_pending hpending, .inr (.inr ⟨_, rfl⟩)⟩)
    · rw [if_neg hempty]
      rw [if_neg (by exact hempty)] at hstep
      refine .ofBit rfl rfl hstep rfl ?_
      intro b rangeDecoder probs rest
      by_cases hzero : b = 0
      · simp only [if_pos hzero]
        have hnext := decodeRep0Long_follows (d := { d with rangeDecoder, probs }) hinit
          hpending posState rest
        exact .silent hnext
      · simp only [if_neg hzero]
        have hnext := decodeRepG1_follows (d := { d with rangeDecoder, probs }) hinit
          hpending posState rest
        exact .silent hnext

theorem decodeIsRep_follows (hinit : d.rcInitialized = true) (hpending : d.window.pending = [])
    (posState : Nat) (input : List Byte) :
    Follows resumable { d with phase := .needIsRep posState } input afterRep
      (d.decodeIsRep input posState) := by
  have hstep : SymbolState.step { d with phase := .needIsRep posState } input =
      isRepStep { d with phase := .needIsRep posState } posState input := by
    rw [SymbolState.step, if_pos hinit]
  refine .ofBit rfl rfl hstep rfl ?_
  intro b rangeDecoder probs rest
  by_cases hzero : b = 0
  · simp only [if_pos hzero]
    exact .silent (.here ⟨flush_of_pending hpending, .inl ⟨_, rfl⟩⟩)
  · simp only [if_neg hzero]
    have hnext := decodeRepType_follows (d := { d with rangeDecoder, probs }) hinit
          hpending posState rest
    exact .silent hnext

/-- The drained part of a literal's output comes before what is left pending. -/
def afterLiteral (room : Nat) (drained : List Byte) (d : SymbolState) (r : SymbolState × List Byte) :
    Prop :=
  ((flush d).1, drained ++ (flush d).2) = r ∧ d.phase = .newSymbol ∧ r.2.length = 1 ∧
    drained.length ≤ room

theorem putLiteral_follows (hinit : d.rcInitialized = true) (hpending : d.window.pending = [])
    (room : Nat) (ls : LiteralState) (hfull : 0x100 ≤ ls.symbol) (input : List Byte) :
    Follows resumable { d with phase := .literal ls } input (afterLiteral room)
      (.ok (d.putLiteral input room ls)) := by
  have hstep : SymbolState.step { d with phase := .literal ls } input =
      .move (finishLiteral { d with phase := .literal ls } ls) input [literalByte ls] := by
    rw [SymbolState.step, if_pos hinit]
    simp only [literalStep, if_pos hfull]
  refine .done ⟨?_, rfl, rfl, List.length_take_le _ _⟩ (Machine.Runs.single hstep)
  show ({ d with
    window := (d.window.put (literalByte ls)).flushed
    state := updateStateLiteral d.state
    decodedSize := d.decodedSize + 1
    phase := .newSymbol },
    (d.window.pending ++ [literalByte ls]).take room ++
      (d.window.pending ++ [literalByte ls]).drop room) = _
  rw [List.take_append_drop, hpending, History.flushed_of_pending (by exact hpending)]
  rfl

theorem LiteralState.not_matched {ls : LiteralState} (h : ls.matched = false ∨ 0x100 ≤ ls.symbol) :
    ¬ (ls.matched = true ∧ ls.symbol < 0x100) := by
  rintro ⟨hmatched, hlt⟩
  rcases h with hplain | hfull
  · exact absurd hmatched (by simp [hplain])
  · omega

/-- A literal whose bits are decoded on their own. -/
theorem continuePlain_follows (hinit : d.rcInitialized = true) (hpending : d.window.pending = [])
    (room : Nat) {ls : LiteralState} (hpos : 1 ≤ ls.symbol)
    (hplain : ls.matched = false ∨ 0x100 ≤ ls.symbol) (input : List Byte) :
    Follows resumable { d with phase := .literal ls } input (afterLiteral room)
      (d.continueLiteralDecode input room ls) := by
  unfold LzmaDecoder.continueLiteralDecode matchedPart
  simp only [if_neg (LiteralState.not_matched hplain)]
  refine plainLiteral_follows hinit ?_ ?_ 8 ls d.rangeDecoder d.probs input rfl hplain ?_
  · intro ls' rangeDecoder probs rest hfull
    have hput := putLiteral_follows (d := { d with rangeDecoder, probs }) hinit hpending room ls' hfull
      rest
    exact hput
  · intro ls' rangeDecoder probs rest
    rfl
  · show 256 ≤ ls.symbol * 256
    omega

theorem continueLiteralDecode_follows (hinit : d.rcInitialized = true)
    (hpending : d.window.pending = []) (room : Nat) {ls : LiteralState} (hpos : 1 ≤ ls.symbol)
    (input : List Byte) :
    Follows resumable { d with phase := .literal ls } input (afterLiteral room)
      (d.continueLiteralDecode input room ls) := by
  by_cases hmatched : ls.matched = true ∧ ls.symbol < 0x100
  · unfold LzmaDecoder.continueLiteralDecode matchedPart
    simp only [if_pos hmatched]
    refine matchedLiteral_follows hinit ?_ ?_ 8 ls d.rangeDecoder d.probs input rfl hmatched.1 hpos ?_
    · intro ls' rangeDecoder probs rest hlit hpos' hplain
      have hnext := continuePlain_follows (d := { d with rangeDecoder, probs }) hinit hpending room
        hpos' hplain rest
      unfold LzmaDecoder.continueLiteralDecode matchedPart at hnext
      simp only [if_neg (LiteralState.not_matched hplain), hlit] at hnext
      exact hnext
    · intro ls' rangeDecoder probs rest
      rfl
    · show 256 ≤ ls.symbol * 256
      omega
  · refine continuePlain_follows hinit hpending room hpos ?_ input
    by_cases hfull : 0x100 ≤ ls.symbol
    · exact .inr hfull
    · refine .inl ?_
      cases hm : ls.matched with
      | false => rfl
      | true => exact absurd ⟨hm, by omega⟩ hmatched

/-- A length decoded is the machine's state after it. -/
def afterLen (matchType : MatchType) (len : Nat) (d : SymbolState) (r : SymbolState × List Byte) :
    Prop :=
  (d.afterLength matchType len, []) = r ∧ Fits d 1

theorem decodeLength_follows {matchType : MatchType} {lds : LenDecodeState}
    (hinit : d.rcInitialized = true) (hphase : d.phase = .matchLength matchType)
    (hlds : d.lenDecodeState = some lds) (hfits : Fits d 1) :
    Follows resumable d input (afterLen matchType) (d.decodeLength input) := by
  have hcontinues : LenContinues resumable (afterLen matchType) d { d with lenDecodeState := none }
      matchType lds pure :=
    { init := hinit
      phase := hphase
      value := fun _ _ _ _ => .here ⟨rfl, hfits⟩
      need := fun _ _ _ _ => rfl }
  have hsame : ∀ phase, lds.phase = phase → withLen d lds phase = d := by
    intro phase hl
    rw [withLen, ← hl, ← hlds]
  unfold LzmaDecoder.decodeLength
  rw [hlds, Option.getD_some]
  simp only
  cases hl : lds.phase with
  | choice =>
    have hnext := decodeLenChoice_follows hcontinues d.rangeDecoder d.probs input
    rwa [hsame _ hl, bind_pure] at hnext
  | choice2 =>
    have hnext := decodeLenChoice2_follows hcontinues d.rangeDecoder d.probs input
    rwa [hsame _ hl, bind_pure] at hnext
  | low m n =>
    have hnext := decodeLenTree_follows hcontinues .low m n d.rangeDecoder d.probs input
    rwa [LenCoder.phase, hsame _ hl, bind_pure] at hnext
  | mid m n =>
    have hnext := decodeLenTree_follows hcontinues .mid m n d.rangeDecoder d.probs input
    rwa [LenCoder.phase, hsame _ hl, bind_pure] at hnext
  | high m n =>
    have hnext := decodeLenTree_follows hcontinues .high m n d.rangeDecoder d.probs input
    rwa [LenCoder.phase, hsame _ hl, bind_pure] at hnext

/-- A distance decoded is the machine's state after it. -/
def afterDist (len : Nat) (dist : UInt32) (d : SymbolState) (r : SymbolState × List Byte) : Prop :=
  (d.afterDistance len dist, []) = r ∧ Fits d 1

theorem decodeDistance_follows {len lenState : Nat} {dds : DistDecodeState}
    (hinit : d.rcInitialized = true) (hphase : d.phase = .matchDistance len lenState)
    (hdds : d.distDecodeState = some dds) (hfits : Fits d 1) :
    Follows resumable d input (afterDist len) (d.decodeDistance input) := by
  have hcontinues : DistContinues resumable (afterDist len) d { d with distDecodeState := none } len
      dds.lenState pure :=
    { init := hinit
      phase := ⟨_, hphase⟩
      value := fun _ _ _ _ => .here ⟨rfl, hfits⟩
      need := fun _ _ _ _ => rfl }
  have hsame : ∀ phase, dds.phase = phase → withDist d dds.lenState phase = d := by
    intro phase hl
    rw [withDist, ← hl, ← hdds]
  unfold LzmaDecoder.decodeDistance
  rw [hdds]
  simp only
  cases hl : dds.phase with
  | posSlot m n =>
    have hnext := decodePosSlot_follows hcontinues m n d.rangeDecoder d.probs input
    rwa [hsame _ hl, bind_pure] at hnext
  | directBits dist n =>
    have hnext := decodeDirectBits_follows hcontinues dist n d.rangeDecoder d.probs input
    rwa [hsame _ hl, bind_pure] at hnext
  | alignBits dist m symbol i =>
    have hnext := decodeAlignBits_follows hcontinues dist m symbol i d.rangeDecoder d.probs input
    rwa [hsame _ hl, bind_pure] at hnext
  | specPosBits dist probsOffset m symbol i numBits =>
    have hnext := decodeSpecPosBits_follows hcontinues dist probsOffset m symbol i numBits
      d.rangeDecoder d.probs input
    rwa [hsame _ hl, bind_pure] at hnext

end SymbolState
end Iluvatar
