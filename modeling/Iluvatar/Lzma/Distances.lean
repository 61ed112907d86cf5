/-
How a raw LZMA stream comes to its end.

A stream ends at its declared length, at the end marker, or at a distance that reaches
beyond the bytes decoded so far.  The symbol machine says which of the three it is; the
decompressor's answer does not tell the last two apart.
-/
import Iluvatar.Lzma.Decompressor

namespace Iluvatar

open Sansio

/-- Every repeat distance is below `n`. -/
structure Reps.Within (r : Reps) (n : Nat) : Prop where
  r0 : r.r0.toNat < n
  r1 : r.r1.toNat < n
  r2 : r.r2.toNat < n
  r3 : r.r3.toNat < n

theorem Reps.Within.mono {r : Reps} {m n : Nat} (h : r.Within m) (hmn : m ≤ n) : r.Within n :=
  ⟨Nat.lt_of_lt_of_le h.r0 hmn, Nat.lt_of_lt_of_le h.r1 hmn, Nat.lt_of_lt_of_le h.r2 hmn,
    Nat.lt_of_lt_of_le h.r3 hmn⟩

namespace SymbolState

open LzmaDecoder LzmaWindow

/-- The distance of the match under way, once the decoder has all its bits. -/
def knownDistance (d : SymbolState) : Option UInt32 :=
  match d.phase, d.distDecodeState with
  | .matchDistance _ _, some dds =>
    match dds.phase with
    | .posSlot m 0 =>
      if m - 64 < kStartPosModelIndex then some (UInt32.ofNat (m - 64)) else none
    | .alignBits dist _ symbol i => if i < kNumAlignBits then none else some (dist ||| symbol)
    | .specPosBits dist _ _ symbol i numBits => if i < numBits then none else some (dist + symbol)
    | _ => none
  | _, _ => none

/-- The end marker is the largest distance. -/
def Marker (d : SymbolState) : Prop := d.knownDistance = some 0xFFFFFFFF

/-- The distance is beyond the dictionary or the bytes decoded so far. -/
def Beyond (d : SymbolState) (dist : UInt32) : Prop :=
  d.dictSize ≤ dist ∨ d.window.bytes.length ≤ dist.toNat

/-- A match reaches too far, or a repeat comes before the first byte: the decoder stops. -/
inductive StopsShort (d : SymbolState) : Prop where
  | simple {dist : UInt32} : d.knownDistance = some dist → dist ≠ 0xFFFFFFFF → d.Beyond dist →
      StopsShort d
  | repeated {posState : Nat} : d.phase = .needRepG0 posState → d.window.bytes = [] → StopsShort d

/-- A match, a repeat match or a short repeat reaches beyond the dictionary or the bytes
decoded so far. -/
inductive OutOfReach (d : SymbolState) : Prop where
  | stops : StopsShort d → OutOfReach d
  | short {posState : Nat} : d.phase = .needRep0Long posState → d.Beyond d.reps.r0 → OutOfReach d
  | copied {dist : UInt32} {remaining : Nat} : d.phase = .copyMatch dist remaining → d.Beyond dist →
      OutOfReach d

/-- What the distances of a phase reach. -/
def PhaseReach (d : SymbolState) : DecodePhase → Prop
  | .needRep0Long _ => d.window.bytes ≠ []
  | .needRepG1 _ => d.window.bytes ≠ []
  | .needRepG2 _ => d.window.bytes ≠ []
  | .matchLength .simple => True
  | .matchLength _ => d.window.bytes ≠ []
  | .copyMatch dist _ => dist.toNat < d.window.bytes.length
  | _ => True

/-- Repeat distances reach bytes decoded before, or none has been decoded and they are zero. -/
structure Reach (d : SymbolState) : Prop where
  short : d.window.bytes.length ≤ d.window.size
  reps : d.reps.Within (max 1 d.window.bytes.length)
  phase : PhaseReach d d.phase

/-- What a step keeps, and how it finishes. -/
structure Keeps (d d' : SymbolState) (out : List Byte) : Prop where
  unpackSize : d'.unpackSize = d.unpackSize
  dictSize : d'.dictSize = d.dictSize
  decoded : d'.decodedSize = d.decodedSize + out.length
  reach : Reach d → Reach d'
  ends : ∀ status, d'.phase = .finished status →
    (status = .finishedWithoutMark ∧ d.reachedUnpackSize = true) ∨ Marker d ∨ StopsShort d

def StepKeeps (d : SymbolState) : SymbolNext → Prop
  | .move d' _ out => Keeps d d' out
  | _ => True

/-- What follows a bit, or the failure to go on. -/
def BitKeeps (d : SymbolState) : Except Fault (SymbolState × List Byte) → Prop
  | .ok (d', out) => Keeps d d' out
  | .error _ => True

theorem onBit_keeps {d : SymbolState} {idx : Nat} {input : List Byte}
    {k : Nat → SymbolState → Except Fault (SymbolState × List Byte)}
    (hk : ∀ rangeDecoder probs b, BitKeeps d (k b { d with rangeDecoder, probs })) :
    StepKeeps d (onBit d idx input k) := by
  unfold onBit LzmaDecoder.bit
  match d.probs[idx]? with
  | none => trivial
  | some p =>
    simp only
    match d.rangeDecoder.decodeBit p input with
    | none => trivial
    | some (b, p', rangeDecoder, rest) =>
      have hnext := hk rangeDecoder (d.probs.set idx p') b
      simp only
      generalize k b { d with rangeDecoder, probs := d.probs.set idx p' } = next at hnext
      match next with
      | .error f => trivial
      | .ok (d', out) => exact hnext

theorem onDirectBit_keeps {d : SymbolState} {input : List Byte} {k : Nat → SymbolState → SymbolState}
    (hk : ∀ rangeDecoder b, Keeps d (k b { d with rangeDecoder }) []) :
    StepKeeps d (onDirectBit d input k) := by
  unfold onDirectBit
  match d.rangeDecoder.decodeDirectBit input with
  | none => trivial
  | some (b, rangeDecoder, rest) => exact hk rangeDecoder b

/-- A step that writes nothing and leaves window and distances as they are. -/
theorem quiet_keeps {d d' : SymbolState} (hunpack : d'.unpackSize = d.unpackSize)
    (hdict : d'.dictSize = d.dictSize) (hdecoded : d'.decodedSize = d.decodedSize)
    (hwindow : d'.window = d.window)
    (hreps : Reach d → d'.reps.Within (max 1 d.window.bytes.length))
    (hphase : Reach d → PhaseReach d d'.phase) (hends : ∀ status, d'.phase ≠ .finished status) :
    Keeps d d' [] := by
  refine ⟨hunpack, hdict, hdecoded, fun h => ⟨?_, ?_, ?_⟩, fun status hf => absurd hf (hends status)⟩
  · rw [hwindow]
    exact h.short
  · rw [hwindow]
    exact hreps h
  · have hphase := hphase h
    unfold PhaseReach at hphase ⊢
    rw [hwindow]
    exact hphase

theorem put_length {w : History} (hshort : w.bytes.length ≤ w.size) (hsize : 0 < w.size) (b : Byte) :
    0 < (w.put b).bytes.length ∧ w.bytes.length ≤ (w.put b).bytes.length ∧
      (w.put b).bytes.length ≤ (w.put b).size := by
  have hlength : (w.put b).bytes.length = min w.size (w.bytes.length + 1) := List.length_take ..
  have hsame : (w.put b).size = w.size := rfl
  omega

/-- A step that puts one byte. -/
theorem put_keeps {d d' : SymbolState} (hsize : 0 < d.window.size) {b : Byte}
    (hunpack : d'.unpackSize = d.unpackSize) (hdict : d'.dictSize = d.dictSize)
    (hdecoded : d'.decodedSize = d.decodedSize + 1) (hwindow : d'.window = d.window.put b)
    (hreps : d'.reps = d.reps)
    (hphase : d'.phase = .newSymbol ∨
      ∃ dist n m, d.phase = .copyMatch dist n ∧ d'.phase = .copyMatch dist m) :
    Keeps d d' [b] := by
  refine ⟨hunpack, hdict, hdecoded, fun h => ?_, fun status hf => ?_⟩
  · obtain ⟨hpos, hmore, hshort⟩ := put_length h.short hsize b
    refine ⟨?_, ?_, ?_⟩
    · rw [hwindow]
      exact hshort
    · rw [hwindow, hreps]
      exact h.reps.mono (by omega)
    · rcases hphase with hphase | ⟨dist, n, m, hbefore, hphase⟩
      · rw [hphase]
        trivial
      · have hreach := h.phase
        rw [hbefore] at hreach
        have hreach : dist.toNat < d.window.bytes.length := hreach
        rw [hphase]
        show dist.toNat < d'.window.bytes.length
        rw [hwindow]
        exact Nat.lt_of_lt_of_le hreach hmore
  · rcases hphase with hphase | ⟨dist, n, m, _, hphase⟩ <;> rw [hphase] at hf <;> cases hf

/-- A step that finishes the stream. -/
theorem finish_keeps {d : SymbolState} {status : LzmaDecodeStatus}
    (hends : (status = .finishedWithoutMark ∧ d.reachedUnpackSize = true) ∨ Marker d ∨ StopsShort d) :
    Keeps d { d with phase := .finished status } [] := by
  refine ⟨rfl, rfl, rfl, fun h => ⟨h.short, h.reps, trivial⟩, fun status' hf => ?_⟩
  obtain rfl : status = status' := by
    injection hf
  exact hends

variable {d : SymbolState} {input : List Byte}

theorem newSymbolStep_keeps : StepKeeps d (newSymbolStep d input) := by
  unfold newSymbolStep
  by_cases hreached : d.reachedUnpackSize = true
  · rw [if_pos hreached]
    exact finish_keeps (.inl ⟨rfl, hreached⟩)
  · rw [if_neg hreached]
    refine onBit_keeps fun rangeDecoder probs b => ?_
    by_cases hzero : b = 0
    · simp only [if_pos hzero]
      unfold LzmaDecoder.startLiteralDecode
      cases LzmaDecoder.prevByte { d with rangeDecoder, probs } with
      | error f => trivial
      | ok prevByte =>
        cases LzmaDecoder.matchByte { d with rangeDecoder, probs } with
        | error f => trivial
        | ok matchByte => exact quiet_keeps rfl rfl rfl rfl (fun h => h.reps) (fun _ => trivial) (fun _ hf => by cases hf)
    · simp only [if_neg hzero]
      exact quiet_keeps rfl rfl rfl rfl (fun h => h.reps) (fun _ => trivial) (fun _ hf => by cases hf)

theorem isRepStep_keeps (posState : Nat) : StepKeeps d (isRepStep d posState input) := by
  refine onBit_keeps fun rangeDecoder probs b => ?_
  by_cases hzero : b = 0
  · simp only [if_pos hzero]
    have hreps : Reach d → d.reps.shift.Within (max 1 d.window.bytes.length) :=
      fun h => ⟨h.reps.r0, h.reps.r0, h.reps.r1, h.reps.r2⟩
    exact quiet_keeps rfl rfl rfl rfl hreps (fun _ => trivial) (fun _ hf => by cases hf)
  · simp only [if_neg hzero]
    exact quiet_keeps rfl rfl rfl rfl (fun h => h.reps) (fun _ => trivial) (fun _ hf => by cases hf)

theorem repG0Step_keeps {posState : Nat} (hphase : d.phase = .needRepG0 posState) :
    StepKeeps d (repG0Step d posState input) := by
  unfold repG0Step
  by_cases hreached : d.reachedUnpackSize = true
  · rw [if_pos hreached]
    exact finish_keeps (.inl ⟨rfl, hreached⟩)
  · rw [if_neg hreached]
    by_cases hempty : isEmpty d.window = true
    · rw [if_pos hempty]
      exact finish_keeps (.inr (.inr (.repeated hphase ((History.isEmpty_iff _).mp hempty))))
    · rw [if_neg hempty]
      have hsome : Reach d → d.window.bytes ≠ [] := fun _ hf => hempty ((History.isEmpty_iff _).mpr hf)
      refine onBit_keeps fun rangeDecoder probs b => ?_
      by_cases hzero : b = 0
      · simp only [if_pos hzero]
        exact quiet_keeps rfl rfl rfl rfl (fun h => h.reps) hsome (fun _ hf => by cases hf)
      · simp only [if_neg hzero]
        exact quiet_keeps rfl rfl rfl rfl (fun h => h.reps) hsome (fun _ hf => by cases hf)

theorem rep0LongStep_keeps (hsize : 0 < d.window.size) {posState : Nat}
    (hphase : d.phase = .needRep0Long posState) : StepKeeps d (rep0LongStep d posState input) := by
  have hsome : Reach d → d.window.bytes ≠ [] := by
    intro h
    have hreach := h.phase
    rwa [hphase] at hreach
  refine onBit_keeps fun rangeDecoder probs b => ?_
  by_cases hzero : b = 0
  · simp only [if_pos hzero]
    cases getByte d.window (d.reps.r0.toNat + 1) with
    | error f => trivial
    | ok byte => exact put_keeps hsize rfl rfl rfl rfl rfl (.inl rfl)
  · simp only [if_neg hzero]
    exact quiet_keeps rfl rfl rfl rfl (fun h => h.reps) hsome (fun _ hf => by cases hf)

theorem repG1Step_keeps {posState : Nat} (hphase : d.phase = .needRepG1 posState) :
    StepKeeps d (repG1Step d posState input) := by
  have hsome : Reach d → d.window.bytes ≠ [] := by
    intro h
    have hreach := h.phase
    rwa [hphase] at hreach
  refine onBit_keeps fun rangeDecoder probs b => ?_
  by_cases hzero : b = 0
  · simp only [if_pos hzero]
    have hreps : Reach d → d.reps.takeRep1.Within (max 1 d.window.bytes.length) :=
      fun h => ⟨h.reps.r1, h.reps.r0, h.reps.r2, h.reps.r3⟩
    exact quiet_keeps rfl rfl rfl rfl hreps hsome (fun _ hf => by cases hf)
  · simp only [if_neg hzero]
    exact quiet_keeps rfl rfl rfl rfl (fun h => h.reps) hsome (fun _ hf => by cases hf)

theorem repG2Step_keeps {posState : Nat} (hphase : d.phase = .needRepG2 posState) :
    StepKeeps d (repG2Step d posState input) := by
  have hsome : Reach d → d.window.bytes ≠ [] := by
    intro h
    have hreach := h.phase
    rwa [hphase] at hreach
  refine onBit_keeps fun rangeDecoder probs b => ?_
  by_cases hzero : b = 0
  · simp only [if_pos hzero]
    have hreps : Reach d → d.reps.takeRep2.Within (max 1 d.window.bytes.length) :=
      fun h => ⟨h.reps.r2, h.reps.r0, h.reps.r1, h.reps.r3⟩
    exact quiet_keeps rfl rfl rfl rfl hreps hsome (fun _ hf => by cases hf)
  · simp only [if_neg hzero]
    have hreps : Reach d → d.reps.takeRep3.Within (max 1 d.window.bytes.length) :=
      fun h => ⟨h.reps.r3, h.reps.r0, h.reps.r1, h.reps.r2⟩
    exact quiet_keeps rfl rfl rfl rfl hreps hsome (fun _ hf => by cases hf)

theorem literalStep_keeps (hsize : 0 < d.window.size) (ls : LiteralState) :
    StepKeeps d (literalStep d ls input) := by
  unfold literalStep
  by_cases hfull : 0x100 ≤ ls.symbol
  · simp only [if_pos hfull]
    exact put_keeps hsize rfl rfl rfl rfl rfl (.inl rfl)
  · simp only [if_neg hfull]
    by_cases hmatched : ls.matched = true
    · simp only [if_pos hmatched]
      exact onBit_keeps fun rangeDecoder probs b =>
        quiet_keeps rfl rfl rfl rfl (fun h => h.reps) (fun _ => trivial) (fun _ hf => by cases hf)
    · simp only [if_neg hmatched]
      exact onBit_keeps fun rangeDecoder probs b =>
        quiet_keeps rfl rfl rfl rfl (fun h => h.reps) (fun _ => trivial) (fun _ hf => by cases hf)

/-- A repeat match starts where its distance reaches. -/
theorem afterLength_keeps {matchType : MatchType}
    (hphase : d.phase = .matchLength matchType) (len : Nat) :
    Keeps d ({ d with lenDecodeState := none }.afterLength matchType len) [] := by
  have hcopy : (Reach d → d.window.bytes ≠ []) →
      Keeps d ({ d with lenDecodeState := none }.startCopyMatch d.reps.r0 (len + kMatchMinLen)) [] := by
    intro hsome
    have hwithin : Reach d → d.reps.r0.toNat < d.window.bytes.length := by
      intro h
      have hpos := List.length_pos_of_ne_nil (hsome h)
      have hr0 := h.reps.r0
      omega
    exact quiet_keeps rfl rfl rfl rfl (fun h => h.reps) hwithin (fun _ hf => by cases hf)
  have hreach : Reach d → PhaseReach d (.matchLength matchType) := by
    intro h
    have hreach := h.phase
    rwa [hphase] at hreach
  cases matchType with
  | simple => exact quiet_keeps rfl rfl rfl rfl (fun h => h.reps) (fun _ => trivial) (fun _ hf => by cases hf)
  | rep0 => exact hcopy hreach
  | rep1 => exact hcopy hreach
  | rep2 => exact hcopy hreach
  | rep3 => exact hcopy hreach

/-- A length goes on being decoded. -/
theorem withLen_keeps (rangeDecoder : RangeDecoder) (probs : List UInt16)
    (lds : LenDecodeState) {matchType : MatchType} (hphase : d.phase = .matchLength matchType)
    (phase : LenPhase) : Keeps d (withLen { d with rangeDecoder, probs } lds phase) [] := by
  refine quiet_keeps rfl rfl rfl rfl (fun h => h.reps) (fun h => h.phase) fun status hf => ?_
  have hf : d.phase = .finished status := hf
  rw [hphase] at hf
  cases hf

theorem lenTreeStep_keeps {matchType : MatchType}
    (hphase : d.phase = .matchLength matchType) (lds : LenDecodeState) (coder : LenCoder) (m n : Nat) :
    StepKeeps d (lenTreeStep d matchType lds coder m n input) := by
  cases n with
  | zero => exact afterLength_keeps hphase _
  | succ n =>
    unfold lenTreeStep
    exact onBit_keeps fun rangeDecoder probs b => withLen_keeps rangeDecoder probs lds hphase _

theorem lengthStep_keeps {matchType : MatchType}
    (hphase : d.phase = .matchLength matchType) : StepKeeps d (lengthStep d matchType input) := by
  unfold lengthStep
  generalize d.lenDecodeState.getD { isRep := false, posState := 0, phase := .choice } = lds
  obtain ⟨isRep, posState, phase⟩ := lds
  cases phase with
  | choice =>
    exact onBit_keeps fun rangeDecoder probs b => withLen_keeps rangeDecoder probs _ hphase _
  | choice2 =>
    exact onBit_keeps fun rangeDecoder probs b => withLen_keeps rangeDecoder probs _ hphase _
  | low m n => exact lenTreeStep_keeps hphase _ .low m n
  | mid m n => exact lenTreeStep_keeps hphase _ .mid m n
  | high m n => exact lenTreeStep_keeps hphase _ .high m n

/-- A distance goes on being decoded. -/
theorem withDist_keeps (rangeDecoder : RangeDecoder) (probs : List UInt16)
    {len lenState : Nat} (hphase : d.phase = .matchDistance len lenState) (lenState' : Nat)
    (phase : DistPhase) : Keeps d (withDist { d with rangeDecoder, probs } lenState' phase) [] := by
  refine quiet_keeps rfl rfl rfl rfl (fun h => h.reps) (fun h => h.phase) fun status hf => ?_
  have hf : d.phase = .finished status := hf
  rw [hphase] at hf
  cases hf

/-- A distance once known is the marker, reaches too far, or is copied from. -/
theorem finishDistance_keeps {dist : UInt32} (hknown : d.knownDistance = some dist)
    (len : Nat) : Keeps d (finishDistance d len dist) [] := by
  unfold finishDistance LzmaDecoder.afterDistance
  by_cases hmark : dist = 0xFFFFFFFF
  · rw [if_pos hmark]
    subst hmark
    exact ⟨rfl, rfl, rfl, fun h => ⟨h.short, h.reps, trivial⟩, fun _ _ => .inr (.inl hknown)⟩
  · rw [if_neg hmark]
    have hcheck : checkDistance d.window dist.toNat = decide (dist.toNat < d.window.bytes.length) := rfl
    by_cases hfar : d.dictSize ≤ dist ∨ ¬ checkDistance d.window dist.toNat
    · rw [if_pos hfar]
      have hbeyond : d.Beyond dist := by
        rcases hfar with hfar | hfar
        · exact .inl hfar
        · rw [hcheck, decide_eq_true_eq] at hfar
          exact .inr (Nat.le_of_not_lt hfar)
      exact ⟨rfl, rfl, rfl, fun h => ⟨h.short, h.reps, trivial⟩,
        fun _ _ => .inr (.inr (.simple hknown hmark hbeyond))⟩
    · rw [if_neg hfar]
      have hnear : dist.toNat < d.window.bytes.length := by
        have hnear := not_not.mp (fun hf => hfar (.inr hf))
        rw [hcheck, decide_eq_true_eq] at hnear
        exact hnear
      have hreps : Reach d → Reps.Within { d.reps with r0 := dist } (max 1 d.window.bytes.length) :=
        fun h => ⟨Nat.lt_of_lt_of_le hnear (Nat.le_max_right _ _), h.reps.r1, h.reps.r2, h.reps.r3⟩
      exact quiet_keeps rfl rfl rfl rfl hreps (fun _ => hnear) (fun _ hf => by cases hf)

theorem afterPosSlot_keeps {len lenState lenState' m : Nat}
    (hphase : d.phase = .matchDistance len lenState)
    (hdds : d.distDecodeState = some { lenState := lenState', phase := .posSlot m 0 }) :
    Keeps d (afterPosSlot d len lenState' (m - 64)) [] := by
  unfold afterPosSlot
  by_cases hstart : m - 64 < kStartPosModelIndex
  · rw [if_pos hstart]
    have hknown : d.knownDistance = some (UInt32.ofNat (m - 64)) := by
      unfold knownDistance
      rw [hphase, hdds]
      exact if_pos hstart
    exact finishDistance_keeps hknown len
  · rw [if_neg hstart]
    simp only
    split
    · exact withDist_keeps _ _ hphase _ _
    · exact withDist_keeps _ _ hphase _ _

theorem distanceStep_keeps {len lenState : Nat}
    (hphase : d.phase = .matchDistance len lenState) : StepKeeps d (distanceStep d len input) := by
  unfold distanceStep
  cases hdds : d.distDecodeState with
  | none => trivial
  | some dds =>
    obtain ⟨lenState', phase⟩ := dds
    cases phase with
    | posSlot m n =>
      cases n with
      | zero => exact afterPosSlot_keeps hphase hdds
      | succ n =>
        exact onBit_keeps fun rangeDecoder probs b => withDist_keeps rangeDecoder probs hphase _ _
    | directBits dist n =>
      cases n with
      | zero => exact withDist_keeps _ _ hphase _ _
      | succ n =>
        exact onDirectBit_keeps fun rangeDecoder b => withDist_keeps rangeDecoder _ hphase _ _
    | alignBits dist m symbol i =>
      by_cases hi : i < kNumAlignBits
      · simp only [if_pos hi]
        exact onBit_keeps fun rangeDecoder probs b => withDist_keeps rangeDecoder probs hphase _ _
      · simp only [if_neg hi]
        have hknown : d.knownDistance = some (dist ||| symbol) := by
          unfold knownDistance
          rw [hphase, hdds]
          exact if_neg hi
        exact finishDistance_keeps hknown len
    | specPosBits dist probsOffset m symbol i numBits =>
      by_cases hi : i < numBits
      · simp only [if_pos hi]
        exact onBit_keeps fun rangeDecoder probs b => withDist_keeps rangeDecoder probs hphase _ _
      · simp only [if_neg hi]
        have hknown : d.knownDistance = some (dist + symbol) := by
          unfold knownDistance
          rw [hphase, hdds]
          exact if_neg hi
        exact finishDistance_keeps hknown len

theorem copyStep_keeps (hsize : 0 < d.window.size) {dist : UInt32} {remaining : Nat}
    (hphase : d.phase = .copyMatch dist remaining) : StepKeeps d (copyStep d dist remaining input) := by
  cases remaining with
  | zero => exact quiet_keeps rfl rfl rfl rfl (fun h => h.reps) (fun _ => trivial) (fun _ hf => by cases hf)
  | succ n =>
    unfold copyStep
    cases getByte d.window (dist.toNat + 1) with
    | error f => trivial
    | ok b => exact put_keeps hsize rfl rfl rfl rfl rfl (.inr ⟨dist, _, n, hphase, rfl⟩)

theorem initStep_keeps (hphase : d.phase = .newSymbol) :
    StepKeeps d (initStep d input) := by
  cases input with
  | nil => trivial
  | cons b rest =>
    refine quiet_keeps rfl rfl rfl rfl (fun h => h.reps) (fun h => h.phase) fun status hf => ?_
    have hf : d.phase = .finished status := hf
    rw [hphase] at hf
    cases hf

/-- Every step keeps the reach of the distances and counts what it writes. -/
theorem step_keeps (hgood : Good d) (input : List Byte) : StepKeeps d (step d input) := by
  have hsize : 0 < d.window.size := by
    rw [hgood.core.size]
    exact hgood.core.dictSize
  unfold step
  by_cases hinit : d.rcInitialized = true
  · rw [if_pos hinit]
    cases hphase : d.phase with
    | finished status => trivial
    | newSymbol => exact newSymbolStep_keeps
    | needIsRep posState => exact isRepStep_keeps posState
    | needRepG0 posState => exact repG0Step_keeps hphase
    | needRep0Long posState => exact rep0LongStep_keeps hsize hphase
    | needRepG1 posState => exact repG1Step_keeps hphase
    | needRepG2 posState => exact repG2Step_keeps hphase
    | literal ls => exact literalStep_keeps hsize ls
    | matchLength matchType => exact lengthStep_keeps hphase
    | matchDistance len lenState => exact distanceStep_keeps hphase
    | copyMatch dist remaining => exact copyStep_keeps hsize hphase
  · rw [if_neg hinit]
    have hnew := (hgood.starting (Bool.eq_false_iff.mpr hinit)).2
    exact initStep_keeps hnew

/-- The run of the machine over a stream passes such a state. -/
def Meets (m : SymbolState) (packed : List Byte) (P : SymbolState → Prop) : Prop :=
  ∃ out m' rest, symbolMachine.Runs m packed out m' rest ∧ P m'

/-- What a run keeps, and what a finished one has passed. -/
structure RunKeeps (m : SymbolState) (packed : List Byte) (m' : SymbolState) (out : List Byte) :
    Prop where
  good : Good m'
  reach : Reach m → Reach m'
  unpackSize : m'.unpackSize = m.unpackSize
  decoded : m'.decodedSize = m.decodedSize + out.length
  ends : ∀ status, m'.phase = .finished status → m.phase = .finished status ∨
    (status = .finishedWithoutMark ∧ m'.reachedUnpackSize = true) ∨
    Meets m packed fun d => Marker d ∨ StopsShort d

theorem runs_keep {m m' : SymbolState} {packed rest out : List Byte} (hgood : Good m)
    (hrun : symbolMachine.Runs m packed out m' rest) : RunKeeps m packed m' out := by
  induction hrun with
  | refl m packed => exact ⟨hgood, id, rfl, rfl, fun _ hf => .inl hf⟩
  | @step m m₁ m' packed packed₁ rest out out' hstep hrun ih =>
    have hmove : step m packed = .move m₁ packed₁ out := hstep
    have hkeeps := step_keeps hgood packed
    have hstepGood := step_good hgood packed
    rw [hmove] at hkeeps hstepGood
    have hkeeps : Keeps m m₁ out := hkeeps
    have hrest := ih hstepGood.1
    refine ⟨hrest.good, fun h => hrest.reach (hkeeps.reach h), hrest.unpackSize.trans hkeeps.unpackSize, ?_, ?_⟩
    · rw [hrest.decoded, hkeeps.decoded, List.length_append, Nat.add_assoc]
    · intro status hf
      right
      rcases hrest.ends status hf with hf₁ | hsize | ⟨o, m₂, rest₂, hrun₂, hmet⟩
      · rcases hkeeps.ends status hf₁ with ⟨hstatus, hreached⟩ | hmarker | hfar
        · left
          refine ⟨hstatus, ?_⟩
          unfold reachedUnpackSize at hreached ⊢
          rw [hrest.unpackSize, hkeeps.unpackSize, hrest.decoded, hkeeps.decoded]
          cases hunpack : m.unpackSize with
          | none =>
            rw [hunpack] at hreached
            cases hreached
          | some unpack =>
            rw [hunpack] at hreached
            have hle : unpack ≤ m.decodedSize := of_decide_eq_true hreached
            exact decide_eq_true (by omega)
        · exact .inr ⟨[], m, packed, .refl _ _, .inl hmarker⟩
        · exact .inr ⟨[], m, packed, .refl _ _, .inr hfar⟩
      · exact .inl hsize
      · exact .inr ⟨_, m₂, rest₂, .step hstep hrun₂, hmet⟩

/-- The range coder is initialized once the first symbol has begun. -/
theorem Good.initialized {d : SymbolState} (h : Good d) (hphase : d.phase ≠ .newSymbol) :
    d.rcInitialized = true := by
  cases hinit : d.rcInitialized with
  | true => rfl
  | false => exact absurd (h.starting hinit).2 hphase

/-- The next step finishes the stream as if the marker had come. -/
def Breaks (d : SymbolState) : Prop :=
  ∀ input, ∃ d', step d input = .move d' input [] ∧ d'.rcInitialized = true ∧
    d'.phase = .finished .finishedWithMark

/-- A distance known in a good state belongs to a match that has room for a byte. -/
theorem knownDistance_phase {d : SymbolState} {dist : UInt32} (h : d.knownDistance = some dist) :
    ∃ len lenState, d.phase = .matchDistance len lenState ∧
      ∀ input, distanceStep d len input = .move (finishDistance d len dist) input [] := by
  unfold knownDistance at h
  split at h
  · next len lenState dds hphase hdds =>
    refine ⟨len, lenState, hphase, fun input => ?_⟩
    unfold distanceStep
    rw [hdds]
    simp only
    split at h
    · next m hdist =>
      split at h
      · next hstart =>
        obtain rfl := Option.some.inj h
        rw [hdist]
        simp only [afterPosSlot, if_pos hstart]
      · cases h
    · next dist' m symbol i hdist =>
      split at h
      · cases h
      · next hi =>
        obtain rfl := Option.some.inj h
        rw [hdist]
        exact if_neg hi
    · next dist' probsOffset m symbol i numBits hdist =>
      split at h
      · cases h
      · next hi =>
        obtain rfl := Option.some.inj h
        rw [hdist]
        exact if_neg hi
    · cases h
  · cases h

theorem known_breaks {d : SymbolState} (hgood : Good d) {dist : UInt32}
    (h : d.knownDistance = some dist) (hends : dist = 0xFFFFFFFF ∨ d.Beyond dist) : Breaks d := by
  obtain ⟨len, lenState, hphase, hstep⟩ := knownDistance_phase h
  have hinit : d.rcInitialized = true := hgood.initialized (fun hf => by rw [hphase] at hf; cases hf)
  intro input
  refine ⟨finishDistance d len dist, ?_, ?_, ?_⟩
  · unfold step
    rw [if_pos hinit, hphase]
    exact hstep input
  · exact (afterDistance_same _ _ _).2.trans hinit
  · unfold finishDistance LzmaDecoder.afterDistance
    by_cases hmark : dist = 0xFFFFFFFF
    · rw [if_pos hmark]
    · have hfar : d.dictSize ≤ dist ∨ ¬ checkDistance d.window dist.toNat := by
        rcases hends.resolve_left hmark with hfar | hfar
        · exact .inl hfar
        · refine .inr fun hf => ?_
          have hnear : dist.toNat < d.window.bytes.length := of_decide_eq_true hf
          omega
      rw [if_neg hmark, if_pos hfar]

theorem stopsShort_breaks {d : SymbolState} (hgood : Good d) (h : StopsShort d) : Breaks d := by
  cases h with
  | simple hknown _ hbeyond => exact known_breaks hgood hknown (.inr hbeyond)
  | @repeated posState hphase hempty =>
    have hinit : d.rcInitialized = true := hgood.initialized (fun hf => by rw [hphase] at hf; cases hf)
    have hnot : ¬ d.reachedUnpackSize = true := by
      have hfits := hgood.phase
      rw [hphase] at hfits
      intro hreached
      unfold reachedUnpackSize at hreached
      cases hunpack : d.unpackSize with
      | none =>
        rw [hunpack] at hreached
        cases hreached
      | some unpack =>
        rw [hunpack] at hreached
        have hle : unpack ≤ d.decodedSize := of_decide_eq_true hreached
        have hlt := hfits.2.1 unpack hunpack
        omega
    intro input
    refine ⟨{ d with phase := .finished .finishedWithMark }, ?_, hinit, rfl⟩
    unfold step
    rw [if_pos hinit, hphase]
    show repG0Step d posState input = _
    unfold repG0Step
    rw [if_neg hnot, if_pos ((History.isEmpty_iff _).mpr hempty)]

theorem outOfReach_breaks {d : SymbolState} (hgood : Good d) (hreach : Reach d) (h : OutOfReach d) :
    Breaks d := by
  cases h with
  | stops h => exact stopsShort_breaks hgood h
  | @short posState hphase hbeyond =>
    have hsome := hreach.phase
    rw [hphase] at hsome
    have hpos := List.length_pos_of_ne_nil hsome
    have hr0 := hreach.reps.r0
    have hsize := hgood.core.reps.r0
    rcases hbeyond with hfar | hfar
    · have := UInt32.le_iff_toNat_le.mp hfar
      omega
    · omega
  | @copied dist remaining hphase hbeyond =>
    have hnear := hreach.phase
    have hdict := hgood.phase
    rw [hphase] at hnear hdict
    have hnear : dist.toNat < d.window.bytes.length := hnear
    have hsize : dist.toNat < d.dictSize.toNat := hdict.2.2
    rcases hbeyond with hfar | hfar
    · have := UInt32.le_iff_toNat_le.mp hfar
      omega
    · omega

end SymbolState

namespace LzmaDecompressor

open SymbolState LzmaDecoder

variable {props : LzmaProperties} {dictSize : UInt32} {unpackSize : Option Nat} {packed : List Byte}

/-- The end of a feeding can be trusted: it comes at the declared length or at the marker, and
never where a distance reaches too far. -/
structure CleanEnd (props : LzmaProperties) (dictSize : UInt32) (unpackSize : Option Nat)
    (packed : List Byte) (e : Ending Fault Byte) : Prop where
  exact : e.outcome = none → ∀ n, unpackSize = some n → e.output.length = n
  refused : Meets (start props dictSize unpackSize) packed OutOfReach → e.outcome ≠ none
  cause : e.outcome = none → (∃ n, unpackSize = some n ∧ e.output.length = n) ∨
    Meets (start props dictSize unpackSize) packed Marker

theorem start_reach (props : LzmaProperties) (dictSize : UInt32) (unpackSize : Option Nat) :
    Reach (start props dictSize unpackSize) :=
  ⟨Nat.zero_le _, ⟨Nat.one_pos, Nat.one_pos, Nat.one_pos, Nat.one_pos⟩, trivial⟩

/-- A stream the machine breaks off is reported as ended. -/
theorem broken_ends {out : List Byte} {m' : SymbolState} {rest : List Byte} {e : Ending Fault Byte}
    (hstop : symbolMachine.Runs (start props dictSize unpackSize) packed out m' rest)
    (hstops : symbolMachine.Stops m' rest)
    (hat : EndsAt symbolMachine verdict (.error .truncatedInput) (· = []) packed out m' rest e)
    {out₁ : List Byte} {m₁ : SymbolState} {rest₁ : List Byte}
    (hrun : symbolMachine.Runs (start props dictSize unpackSize) packed out₁ m₁ rest₁)
    (hbreaks : Breaks m₁) : e.outcome = none ∧ e.output = out₁ := by
  obtain ⟨d', hmove, hinit, hphase⟩ := hbreaks rest₁
  have hmove : symbolMachine.step m₁ rest₁ = .move d' rest₁ [] := hmove
  have hhalt : symbolMachine.step d' rest₁ = .halt (.ok .finishedWithMark) := by
    show SymbolState.step d' rest₁ = _
    unfold SymbolState.step
    rw [if_pos hinit, hphase]
  have hwhole := hrun.trans (.single hmove)
  rw [List.append_nil] at hwhole
  obtain ⟨out₂, hback, hout⟩ := hwhole.to_stop hstop hstops
  cases hback with
  | step hstep _ => exact absurd (hhalt.symm.trans hstep) (by simp)
  | refl =>
    have hnone : e.outcome = none := by
      rw [hat.outcome, Machine.outcome, hhalt]
      rfl
    refine ⟨hnone, ?_⟩
    rw [(hat.all hnone).1, hout, List.append_nil]

/-- Every feeding of a stream ends, and its end can be trusted just where no distance of the
stream reaches too far and, for a declared length, no end marker comes before it. -/
theorem cleanEnd_iff {b : Byte} (h : LzmaProperties.fromByte b = some props) (dictSize : UInt32)
    (unpackSize : Option Nat) (packed : List Byte) (cuts : Nat → Nat × Nat) :
    (∃ e, EndsAs (asCall decompress) packed cuts
      (new props dictSize unpackSize : LzmaDecompressor SlidingWindow) e) ∧
    ∀ e, EndsAs (asCall decompress) packed cuts
        (new props dictSize unpackSize : LzmaDecompressor SlidingWindow) e →
      (CleanEnd props dictSize unpackSize packed e ↔
        ¬ Meets (start props dictSize unpackSize) packed OutOfReach ∧
          ∀ n, unpackSize = some n → ¬ Meets (start props dictSize unpackSize) packed Marker) := by
  obtain ⟨hlc, hlp, hpb⟩ := fromByte_valid h
  have hrep := new_represents props dictSize unpackSize hlc hlp hpb
  have hreach := start_reach props dictSize unpackSize
  obtain ⟨out, m', rest, hstop, hstops, hall⟩ := resumes.ends hrep packed
  obtain ⟨e, hends, hat⟩ := hall cuts
  refine ⟨⟨e, hends⟩, fun e' hends' => ?_⟩
  obtain rfl := hends.unique hends'
  constructor
  · intro hclean
    constructor
    · rintro ⟨out₁, m₁, rest₁, hrun, hfar⟩
      have hkeep := runs_keep hrep.good hrun
      have hbroken := broken_ends hstop hstops hat hrun (outOfReach_breaks hkeep.good (hkeep.reach hreach) hfar)
      exact hclean.refused ⟨out₁, m₁, rest₁, hrun, hfar⟩ hbroken.1
    · rintro n rfl ⟨out₁, m₁, rest₁, hrun, hmarker⟩
      have hkeep := runs_keep hrep.good hrun
      obtain ⟨hnone, houtput⟩ :=
        broken_ends hstop hstops hat hrun (known_breaks hkeep.good hmarker (.inl rfl))
      have hlength := hclean.exact hnone n rfl
      have hfits := hkeep.good.phase
      obtain ⟨len, lenState, hphase, _⟩ := knownDistance_phase hmarker
      rw [hphase] at hfits
      have hone := hfits.2.1 n hkeep.unpackSize
      have hdecoded : m₁.decodedSize = 0 + out₁.length := hkeep.decoded
      rw [houtput] at hlength
      omega
  · rintro ⟨hnear, hunmarked⟩
    have hkeep := runs_keep hrep.good hstop
    have hcause : e.outcome = none →
        (∃ n, unpackSize = some n ∧ e.output.length = n) ∨
          Meets (start props dictSize unpackSize) packed Marker := by
      intro hnone
      have houtcome := hat.outcome
      rw [hnone, Machine.outcome] at houtcome
      have hgoodStep := step_good hkeep.good rest
      have hstep : symbolMachine.step m' rest = SymbolState.step m' rest := rfl
      rw [hstep] at houtcome
      generalize SymbolState.step m' rest = next at houtcome hgoodStep
      cases next with
      | need => cases houtcome
      | move _ _ _ => cases houtcome
      | halt t =>
        obtain ⟨status, _, hphase⟩ := hgoodStep
        rcases hkeep.ends status hphase with hf | ⟨_, hreached⟩ | ⟨o, m₁, rest₁, hrun, hmarker | hfar⟩
        · cases hf
        · left
          have hfits := hkeep.good.phase
          rw [hphase] at hfits
          unfold reachedUnpackSize at hreached
          have hunpack : m'.unpackSize = unpackSize := hkeep.unpackSize
          cases hsize : unpackSize with
          | none =>
            rw [hunpack, hsize] at hreached
            cases hreached
          | some n =>
            rw [hunpack, hsize] at hreached
            have hle : n ≤ m'.decodedSize := of_decide_eq_true hreached
            have hge := hfits.1 n (hunpack.trans hsize)
            have hdecoded : m'.decodedSize = 0 + out.length := hkeep.decoded
            refine ⟨n, rfl, ?_⟩
            rw [(hat.all hnone).1]
            omega
        · exact .inr ⟨o, m₁, rest₁, hrun, hmarker⟩
        · exact absurd ⟨o, m₁, rest₁, hrun, .stops hfar⟩ hnear
    refine ⟨?_, fun hfar => absurd hfar hnear, hcause⟩
    rintro hnone n rfl
    rcases hcause hnone with ⟨n', hn, hlength⟩ | hmarker
    · obtain rfl := Option.some.inj hn
      exact hlength
    · exact absurd hmarker (hunmarked n rfl)

/-- The properties byte 93, and a stream of one repeat match. -/
theorem cleanEnd_iff_repeated :
    (∃ e, EndsAs (asCall decompress) [0, 0xFF, 0xFF, 0xFF, 0xF0] (fun _ => (4, 0))
      (new { lc := 3, lp := 0, pb := 2 } 4096 (some 10) : LzmaDecompressor SlidingWindow) e) ∧
    ∀ e, EndsAs (asCall decompress) [0, 0xFF, 0xFF, 0xFF, 0xF0] (fun _ => (4, 0))
        (new { lc := 3, lp := 0, pb := 2 } 4096 (some 10) : LzmaDecompressor SlidingWindow) e →
      (CleanEnd { lc := 3, lp := 0, pb := 2 } 4096 (some 10) [0, 0xFF, 0xFF, 0xFF, 0xF0] e ↔
        ¬ Meets (start { lc := 3, lp := 0, pb := 2 } 4096 (some 10)) [0, 0xFF, 0xFF, 0xFF, 0xF0] OutOfReach ∧
          ∀ n, some 10 = some n →
            ¬ Meets (start { lc := 3, lp := 0, pb := 2 } 4096 (some 10)) [0, 0xFF, 0xFF, 0xFF, 0xF0] Marker) :=
  cleanEnd_iff (b := 93) rfl 4096 (some 10) [0, 0xFF, 0xFF, 0xFF, 0xF0] fun _ => (4, 0)

/-- A repeat match before the first byte ends a stream of ten bytes after none. -/
theorem cleanEnd_repeated : ¬ ∀ (b : Byte) (props : LzmaProperties) (dictSize : UInt32)
    (unpackSize : Option Nat) (packed : List Byte) (cuts : Nat → Nat × Nat) (e : Ending Fault Byte),
    LzmaProperties.fromByte b = some props →
    EndsAs (asCall decompress) packed cuts
      (new props dictSize unpackSize : LzmaDecompressor SlidingWindow) e →
    CleanEnd props dictSize unpackSize packed e := by
  intro hall
  have hends : EndsAs (asCall decompress) [0, 0xFF, 0xFF, 0xFF, 0xF0] (fun _ => (4, 0))
      (new { lc := 3, lp := 0, pb := 2 } 4096 (some 10) : LzmaDecompressor SlidingWindow)
      { outcome := none, consumed := 5, output := [] } := ⟨1, rfl⟩
  have hclean := hall 93 _ 4096 (some 10) _ _ _ rfl hends
  have hlength : (0 : Nat) = 10 := hclean.exact rfl 10 rfl
  exact absurd hlength (by decide)

end LzmaDecompressor
end Iluvatar
