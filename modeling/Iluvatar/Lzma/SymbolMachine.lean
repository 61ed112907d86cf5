/-
The symbol machine, and what its runs keep.
-/
import Iluvatar.Lzma.SymbolGood

namespace Iluvatar

open Sansio

namespace SymbolState

open LzmaDecoder LzmaWindow

/-- A step whose decision does not change when more input follows. -/
def Extends (f : List Byte → SymbolNext) : Prop :=
  ∀ input more, f input ≠ .need → f (input ++ more) = (f input).append more

theorem onBit_extends (d : SymbolState) (idx : Nat)
    (k : Nat → SymbolState → Except Fault (SymbolState × List Byte)) :
    Extends fun input => onBit d idx input k := by
  intro input more hgoes
  simp only [onBit, LzmaDecoder.bit] at hgoes ⊢
  match hget : d.probs[idx]? with
  | none => rfl
  | some p =>
    simp only [hget] at hgoes ⊢
    match hbit : d.rangeDecoder.decodeBit p input with
    | none => simp [hbit] at hgoes
    | some (b, p', rangeDecoder, rest) =>
      rw [RangeDecoder.decodeBit_append more hbit]
      simp only
      match k b { d with rangeDecoder, probs := d.probs.set idx p' } with
      | .error f => rfl
      | .ok (d', out) => rfl

theorem onDirectBit_extends (d : SymbolState) (k : Nat → SymbolState → SymbolState) :
    Extends fun input => onDirectBit d input k := by
  intro input more hgoes
  simp only [onDirectBit] at hgoes ⊢
  match hbit : d.rangeDecoder.decodeDirectBit input with
  | none => simp [hbit] at hgoes
  | some (b, rangeDecoder, rest) =>
    rw [RangeDecoder.decodeDirectBit_append more hbit]
    rfl

theorem move_extends (d' : SymbolState) (out : List Byte) :
    Extends fun input => .move d' input out :=
  fun _ _ _ => rfl

theorem halt_extends (t : Except Fault LzmaDecodeStatus) : Extends fun _ => .halt t :=
  fun _ _ _ => rfl

theorem initStep_extends (d : SymbolState) : Extends (initStep d) := by
  intro input more hgoes
  cases input with
  | nil => exact absurd rfl hgoes
  | cons b rest => rfl

theorem lenTreeStep_extends (d : SymbolState) (matchType : MatchType) (lds : LenDecodeState)
    (coder : LenCoder) (m n : Nat) : Extends (lenTreeStep d matchType lds coder m n) := by
  cases n with
  | zero => exact move_extends _ _
  | succ n =>
    unfold lenTreeStep
    exact onBit_extends _ _ _

theorem lengthStep_extends (d : SymbolState) (matchType : MatchType) :
    Extends (lengthStep d matchType) := by
  unfold lengthStep
  generalize d.lenDecodeState.getD { isRep := false, posState := 0, phase := .choice } = lds
  obtain ⟨isRep, posState, phase⟩ := lds
  cases phase with
  | choice => exact onBit_extends _ _ _
  | choice2 => exact onBit_extends _ _ _
  | low m n => exact lenTreeStep_extends _ _ _ _ _ _
  | mid m n => exact lenTreeStep_extends _ _ _ _ _ _
  | high m n => exact lenTreeStep_extends _ _ _ _ _ _

theorem distanceStep_extends (d : SymbolState) (len : Nat) : Extends (distanceStep d len) := by
  unfold distanceStep
  cases d.distDecodeState with
  | none => exact halt_extends _
  | some dds =>
    obtain ⟨lenState, phase⟩ := dds
    cases phase with
    | posSlot m n =>
      cases n with
      | zero => exact move_extends _ _
      | succ n => exact onBit_extends _ _ _
    | directBits dist n =>
      cases n with
      | zero => exact move_extends _ _
      | succ n => exact onDirectBit_extends _ _
    | alignBits dist m symbol i =>
      by_cases hi : i < kNumAlignBits
      · simp only [if_pos hi]
        exact onBit_extends _ _ _
      · simp only [if_neg hi]
        exact move_extends _ _
    | specPosBits dist probsOffset m symbol i numBits =>
      by_cases hi : i < numBits
      · simp only [if_pos hi]
        exact onBit_extends _ _ _
      · simp only [if_neg hi]
        exact move_extends _ _

theorem literalStep_extends (d : SymbolState) (ls : LiteralState) : Extends (literalStep d ls) := by
  unfold literalStep
  by_cases hfull : 0x100 ≤ ls.symbol
  · simp only [if_pos hfull]
    exact move_extends _ _
  · simp only [if_neg hfull]
    by_cases hmatched : ls.matched = true
    · simp only [if_pos hmatched]
      exact onBit_extends _ _ _
    · simp only [if_neg hmatched]
      exact onBit_extends _ _ _

theorem copyStep_extends (d : SymbolState) (dist : UInt32) (remaining : Nat) :
    Extends (copyStep d dist remaining) := by
  cases remaining with
  | zero => exact move_extends _ _
  | succ n =>
    unfold copyStep
    cases getByte d.window (dist.toNat + 1) with
    | error f => exact halt_extends _
    | ok b => exact move_extends _ _

theorem step_extends (d : SymbolState) : Extends (step d) := by
  unfold step
  by_cases hinit : d.rcInitialized = true
  · simp only [if_pos hinit]
    cases d.phase with
    | finished status => exact halt_extends _
    | newSymbol =>
      unfold newSymbolStep
      by_cases hreached : d.reachedUnpackSize = true
      · simp only [if_pos hreached]
        exact move_extends _ _
      · simp only [if_neg hreached]
        exact onBit_extends _ _ _
    | needIsRep posState => exact onBit_extends _ _ _
    | needRepG0 posState =>
      unfold repG0Step
      by_cases hreached : d.reachedUnpackSize = true
      · simp only [if_pos hreached]
        exact move_extends _ _
      · simp only [if_neg hreached]
        by_cases hempty : isEmpty d.window = true
        · simp only [if_pos hempty]
          exact move_extends _ _
        · simp only [if_neg hempty]
          exact onBit_extends _ _ _
    | needRep0Long posState => exact onBit_extends _ _ _
    | needRepG1 posState => exact onBit_extends _ _ _
    | needRepG2 posState => exact onBit_extends _ _ _
    | literal ls => exact literalStep_extends _ _
    | matchLength matchType => exact lengthStep_extends _ _
    | matchDistance len lenState => exact distanceStep_extends _ _
    | copyMatch dist remaining => exact copyStep_extends _ _ _
  · simp only [if_neg hinit]
    exact initStep_extends _

end SymbolState

open SymbolState

/-- LZMA decoding one bit at a time. -/
def symbolMachine : Machine SymbolState (Except Fault LzmaDecodeStatus) Byte Byte where
  step := SymbolState.step
  Good := SymbolState.Good
  Less := SymbolState.Less
  wf := SymbolState.less_wf
  append := fun d => SymbolState.step_extends d
  suffix := by
    intro d input d' rest out hgood hstep
    have hstepGood := step_good hgood input
    rw [hstep] at hstepGood
    exact hstepGood.2.1
  good := by
    intro d input d' rest out hgood hstep
    have hstepGood := step_good hgood input
    rw [hstep] at hstepGood
    exact hstepGood.1
  descends := by
    intro d input d' rest out hgood hstep
    have hstepGood := step_good hgood input
    rw [hstep] at hstepGood
    exact hstepGood.2.2.1

namespace SymbolState

/-- A good machine does not fail. -/
theorem Good.no_fault {d : SymbolState} (h : Good d) {input : List Byte} {f : Fault} :
    step d input ≠ .halt (.error f) := by
  intro hstep
  have hgood := step_good h input
  rw [hstep] at hgood
  obtain ⟨status, hstatus, _⟩ := hgood
  exact absurd hstatus (by simp)

/-- A run that writes nothing takes as many bytes as its symbol loses bits, at most. -/
theorem runs_bits {d d' : SymbolState} {input rest out : List Byte} (h : Good d)
    (hinit : d.rcInitialized = true) (hrun : symbolMachine.Runs d input out d' rest)
    (hout : out = []) :
    d'.rcInitialized = true ∧ input.length + bitsLeft d' ≤ rest.length + bitsLeft d := by
  induction hrun with
  | refl => exact ⟨hinit, Nat.le_refl _⟩
  | @step m m₁ m₂ input input₁ input₂ out₁ out₂ hstep _ ih =>
    obtain ⟨hnil, hnil'⟩ := List.append_eq_nil_iff.mp hout
    have hgood := step_good h input
    have hstep : step m input = .move m₁ input₁ out₁ := hstep
    rw [hstep] at hgood
    obtain ⟨hgood₁, _, _, hbits⟩ := hgood
    obtain ⟨hinit₁, hless⟩ := hbits hinit
    obtain ⟨hinit₂, hmore⟩ := ih hgood₁ hinit₁ hnil'
    have := hless hnil
    exact ⟨hinit₂, by omega⟩

end SymbolState
end Iluvatar
