/-
The invariant of the symbol machine: its probability indices, its distances and its
counts stay in bounds, so that it never fails; and every step that takes no input
descends.
-/
import Iluvatar.Lzma.Symbol
import Mathlib.Data.Nat.Log
import Mathlib.Tactic.IntervalCases

namespace Iluvatar

open Sansio

/-- Every distance lies within the dictionary. -/
structure Reps.Below (r : Reps) (dictSize : UInt32) : Prop where
  r0 : r.r0.toNat < dictSize.toNat
  r1 : r.r1.toNat < dictSize.toNat
  r2 : r.r2.toNat < dictSize.toNat
  r3 : r.r3.toNat < dictSize.toNat

theorem Reps.Below.shift {r : Reps} {n : UInt32} (h : r.Below n) : r.shift.Below n :=
  ⟨h.r0, h.r0, h.r1, h.r2⟩

theorem Reps.Below.takeRep1 {r : Reps} {n : UInt32} (h : r.Below n) : r.takeRep1.Below n :=
  ⟨h.r1, h.r0, h.r2, h.r3⟩

theorem Reps.Below.takeRep2 {r : Reps} {n : UInt32} (h : r.Below n) : r.takeRep2.Below n :=
  ⟨h.r2, h.r0, h.r1, h.r3⟩

theorem Reps.Below.takeRep3 {r : Reps} {n : UInt32} (h : r.Below n) : r.takeRep3.Below n :=
  ⟨h.r3, h.r0, h.r1, h.r2⟩

/-- Node `m` of a bit tree of `k` bits, with `n` of them left. -/
structure TreeNode (k m n : Nat) : Prop where
  left : n ≤ k
  node : (m + 1) * 2 ^ n ≤ 2 ^ (k + 1)

theorem TreeNode.root (k : Nat) : TreeNode k 1 k :=
  ⟨Nat.le_refl _, by rw [Nat.pow_succ]; omega⟩

theorem TreeNode.child {k m n b : Nat} (h : TreeNode k m (n + 1)) (hb : b < 2) :
    TreeNode k (2 * m + b) n := by
  have hnode := h.node
  have hleft := h.left
  rw [Nat.pow_succ] at hnode
  refine ⟨by omega, Nat.le_trans (Nat.mul_le_mul_right _ (?_ : 2 * m + b + 1 ≤ (m + 1) * 2)) ?_⟩
  · omega
  · calc (m + 1) * 2 * 2 ^ n = (m + 1) * (2 ^ n * 2) := by rw [Nat.mul_assoc, Nat.mul_comm 2]
      _ ≤ 2 ^ (k + 1) := hnode

theorem TreeNode.lt {k m n : Nat} (h : TreeNode k m (n + 1)) : m < 2 ^ k := by
  have hnode := h.node
  have hpow : 2 ≤ 2 ^ (n + 1) := by
    rw [Nat.pow_succ]
    have := Nat.two_pow_pos n
    omega
  have := Nat.mul_le_mul_left (m + 1) hpow
  rw [Nat.pow_succ 2 k] at hnode
  omega

theorem TreeNode.leaf {k m : Nat} (h : TreeNode k m 0) : m < 2 ^ (k + 1) := by
  have hnode := h.node
  rw [Nat.pow_zero] at hnode
  omega

namespace LzmaDecoder.LenCoder

theorem value_le {coder : LenCoder} {m : Nat} (h : TreeNode coder.numBits m 0) :
    coder.value m ≤ 271 := by
  have hleaf := h.leaf
  cases coder with
  | low =>
    have : m < 16 := hleaf
    show m - 8 ≤ 271
    omega
  | mid =>
    have : m < 16 := hleaf
    show m - 8 + 8 ≤ 271
    omega
  | high =>
    have : m < 512 := hleaf
    show m - 256 + 8 + 8 ≤ 271
    omega

/-- A tree lies within its length decoder. -/
theorem offset_lt {coder : LenCoder} {posState m n : Nat} (hpos : posState < 16)
    (h : TreeNode coder.numBits m (n + 1)) : coder.offset posState + m < 514 := by
  have hlt := h.lt
  cases coder with
  | low =>
    have : m < 8 := hlt
    show 2 + posState * 8 + m < 514
    omega
  | mid =>
    have : m < 8 := hlt
    show 2 + 16 * 8 + posState * 8 + m < 514
    omega
  | high =>
    have : m < 256 := hlt
    show 2 + 16 * 8 + 16 * 8 + m < 514
    omega

end LzmaDecoder.LenCoder

/-- A length half decoded. -/
structure LenGood (lds : LenDecodeState) : Prop where
  posState : lds.posState < 16
  tree : match lds.phase with
    | .choice => True
    | .choice2 => True
    | .low m n => TreeNode 3 m n
    | .mid m n => TreeNode 3 m n
    | .high m n => TreeNode 8 m n

/-- A distance half decoded. -/
structure DistGood (dds : DistDecodeState) : Prop where
  lenState : dds.lenState < 4
  tree : match dds.phase with
    | .posSlot m n => TreeNode 6 m n
    | .directBits _ n => n ≤ 26
    | .alignBits _ m _ i => TreeNode 4 m (4 - i)
    | .specPosBits _ probsOffset m _ i numBits =>
      probsOffset ≤ 1812 ∧ numBits ≤ 5 ∧ TreeNode numBits m (numBits - i)

namespace SymbolState

open LzmaDecoder LzmaWindow

/-- What holds in every phase. -/
structure Core (d : SymbolState) : Prop where
  probsLength : d.probs.length = numProbs d.props.lc d.props.lp
  probs : ∀ p ∈ d.probs, RangeDecoder.Prob p
  lc : d.props.lc ≤ 8
  lp : d.props.lp ≤ 4
  pb : d.props.pb ≤ 4
  state : d.state < 12
  size : d.window.size = d.dictSize.toNat
  dictSize : 0 < d.dictSize.toNat
  pending : d.window.pending = []
  reps : d.reps.Below d.dictSize

/-- `n` more bytes may be decoded. -/
def Fits (d : SymbolState) (n : Nat) : Prop :=
  ∀ unpack, d.unpackSize = some unpack → d.decodedSize + n ≤ unpack

/-- No length or distance is half decoded. -/
structure Idle (d : SymbolState) : Prop where
  lenDecodeState : d.lenDecodeState = none
  distDecodeState : d.distDecodeState = none

/-- A literal half decoded. -/
structure LiteralGood (d : SymbolState) (ls : LiteralState) : Prop where
  symbol_pos : 1 ≤ ls.symbol
  symbol_lt : ls.symbol < 0x200
  litState : ls.litState < 2 ^ (d.props.lc + d.props.lp)

/-- The statuses a decoder finishes with. -/
def Ends : LzmaDecodeStatus → Prop
  | .finishedWithMark => True
  | .finishedWithoutMark => True
  | _ => False

/-- What holds in each phase. -/
def PhaseGood (d : SymbolState) : DecodePhase → Prop
  | .newSymbol => Idle d ∧ Fits d 0
  | .finished status => Fits d 0 ∧ Ends status
  | .needIsRep posState => Idle d ∧ Fits d 1 ∧ posState < 16
  | .needRepG0 posState => Idle d ∧ Fits d 1 ∧ posState < 16
  | .needRep0Long posState => Idle d ∧ Fits d 1 ∧ posState < 16
  | .needRepG1 posState => Idle d ∧ Fits d 1 ∧ posState < 16
  | .needRepG2 posState => Idle d ∧ Fits d 1 ∧ posState < 16
  | .literal ls => Idle d ∧ Fits d 1 ∧ LiteralGood d ls
  | .matchLength _ => d.distDecodeState = none ∧ Fits d 1 ∧
    ∃ lds, d.lenDecodeState = some lds ∧ LenGood lds
  | .matchDistance len _ => d.lenDecodeState = none ∧ Fits d 1 ∧ 2 ≤ len ∧ len ≤ 273 ∧
    ∃ dds, d.distDecodeState = some dds ∧ DistGood dds
  | .copyMatch dist remaining => Idle d ∧ Fits d remaining ∧ dist.toNat < d.dictSize.toNat

structure Good (d : SymbolState) : Prop where
  core : Core d
  phase : PhaseGood d d.phase
  starting : d.rcInitialized = false → d.rangeDecoder.initBuf.length < 5 ∧ d.phase = .newSymbol

/-- What the phase has still to come, for steps that take no input. -/
def rank (d : SymbolState) : Nat :=
  match d.phase with
  | .finished _ => 0
  | .newSymbol => 1
  | .copyMatch _ remaining => remaining + 2
  | .matchDistance len _ =>
    match d.distDecodeState with
    | some { lenState := _, phase := .posSlot _ _ } => len + 5
    | some { lenState := _, phase := .directBits _ _ } => len + 4
    | _ => len + 3
  | _ => 300

/-- The order of steps that take no input: the range shrinks or the symbol goes on. -/
def Less (d' d : SymbolState) : Prop :=
  d'.rangeDecoder.range.toNat < d.rangeDecoder.range.toNat ∨
    d'.rangeDecoder.range.toNat = d.rangeDecoder.range.toNat ∧ rank d' < rank d

theorem less_wf : WellFounded Less := by
  have hlex : WellFounded (InvImage (Prod.Lex (· < ·) (· < ·))
      fun d : SymbolState => (d.rangeDecoder.range.toNat, rank d)) :=
    InvImage.wf _ (Prod.lex Nat.lt_wfRel Nat.lt_wfRel).wf
  refine Subrelation.wf ?_ hlex
  intro d' d h
  rcases h with hrange | ⟨hsame, hrank⟩
  · exact Prod.Lex.left _ _ hrange
  · show Prod.Lex _ _ (_, _) (_, _)
    rw [hsame]
    exact Prod.Lex.right _ hrank

/-- Bits a length may still take, up to the first of its distance's. -/
def lenBits : LenPhase → Nat
  | .choice => 55
  | .choice2 => 54
  | .low _ n => 40 + n
  | .mid _ n => 40 + n
  | .high _ n => 40 + n

def distBits : DistPhase → Nat
  | .posSlot _ n => 32 + n
  | .directBits _ n => 5 + n
  | .alignBits _ _ _ i => 4 - i
  | .specPosBits _ _ _ _ i numBits => numBits - i

/-- Bits the symbol under way may still take before it writes its first byte. -/
def bitsLeft (d : SymbolState) : Nat :=
  match d.phase with
  | .newSymbol => 60
  | .needIsRep _ => 59
  | .needRepG0 _ => 58
  | .needRep0Long _ => 57
  | .needRepG1 _ => 57
  | .needRepG2 _ => 56
  | .literal ls => 8 - Nat.log 2 ls.symbol
  | .matchLength _ => (d.lenDecodeState.map fun lds => lenBits lds.phase).getD 0
  | .matchDistance _ _ => (d.distDecodeState.map fun dds => distBits dds.phase).getD 0
  | .copyMatch _ 0 => 60
  | .copyMatch _ (_ + 1) => 0
  | .finished _ => 0

/-- What a step of a good machine comes to. -/
def StepGood (d : SymbolState) (input : List Byte) : SymbolNext → Prop
  | .need => input = []
  | .halt t => ∃ status, t = .ok status ∧ d.phase = .finished status
  | .move d' rest out => Good d' ∧ rest <:+ input ∧
    (rest.length < input.length ∨ Less d' d) ∧
    (d.rcInitialized = true → d'.rcInitialized = true ∧
      (out = [] → input.length + bitsLeft d' ≤ rest.length + bitsLeft d))

theorem fits_of_not_reached {d : SymbolState} (h : ¬ d.reachedUnpackSize = true) : Fits d 1 := by
  intro unpack hunpack
  rw [reachedUnpackSize, hunpack] at h
  have h : ¬ unpack ≤ d.decodedSize := by simpa using h
  omega

theorem Core.probs_size {d : SymbolState} (h : Core d) :
    1847 + 768 * 2 ^ (d.props.lc + d.props.lp) = d.probs.length := h.probsLength.symm

theorem Core.base_lt {d : SymbolState} (h : Core d) {idx : Nat} (hidx : idx < 2615) :
    idx < d.probs.length := by
  have hsize := h.probs_size
  have hpow := Nat.two_pow_pos (d.props.lc + d.props.lp)
  omega

/-- The invariant's share that decoding a bit touches. -/
theorem Core.withBit {d : SymbolState} (h : Core d) (rangeDecoder : RangeDecoder)
    {probs : List UInt16} (hlen : probs.length = d.probs.length)
    (hprobs : ∀ p ∈ probs, RangeDecoder.Prob p) : Core { d with rangeDecoder, probs } :=
  { h with probsLength := hlen.trans h.probsLength, probs := hprobs }

/-- What follows a bit keeps the invariant and goes on with the symbol. -/
inductive BitGood (d : SymbolState) (rangeDecoder : RangeDecoder) :
    Except Fault (SymbolState × List Byte) → Prop where
  | intro {d' : SymbolState} {out : List Byte} : Core d' → PhaseGood d' d'.phase →
    d'.rangeDecoder = rangeDecoder → d'.rcInitialized = true →
    (out = [] → bitsLeft d' + 1 ≤ bitsLeft d) → BitGood d rangeDecoder (.ok (d', out))

/-- A bit step is good where its index is in bounds and what follows the bit is good. -/
theorem onBit_good {d : SymbolState} {idx : Nat} {input : List Byte}
    {k : Nat → SymbolState → Except Fault (SymbolState × List Byte)} (h : Core d)
    (hidx : idx < d.probs.length)
    (hk : ∀ rangeDecoder probs b, probs.length = d.probs.length →
      (∀ p ∈ probs, RangeDecoder.Prob p) → b < 2 →
      BitGood d rangeDecoder (k b { d with rangeDecoder, probs })) :
    StepGood d input (onBit d idx input k) := by
  have hget : d.probs[idx]? = some d.probs[idx] := List.getElem?_eq_getElem hidx
  have hp := h.probs _ (List.getElem_mem hidx)
  unfold onBit LzmaDecoder.bit
  simp only [hget]
  match hbit : d.rangeDecoder.decodeBit d.probs[idx] input with
  | none => exact RangeDecoder.decodeBit_none hbit
  | some (b, p', rangeDecoder, rest) =>
    obtain ⟨hb, hp', hsuffix, htaken, hless⟩ := RangeDecoder.decodeBit_spec hp hbit
    have hall : ∀ p ∈ d.probs.set idx p', RangeDecoder.Prob p := by
      intro p hmem
      rcases List.mem_or_eq_of_mem_set hmem with hmem | rfl
      · exact h.probs p hmem
      · exact hp'
    have hgood := hk rangeDecoder (d.probs.set idx p') b (List.length_set ..) hall hb
    simp only
    generalize k b { d with rangeDecoder, probs := d.probs.set idx p' } = next at hgood
    cases hgood with
    | intro hcore hphase hsame hinit hbits =>
      refine ⟨⟨hcore, hphase, by simp [hinit]⟩, hsuffix, ?_, fun _ => ⟨hinit, fun hnil => ?_⟩⟩
      · rcases hless with hless | hless
        · exact .inl hless
        · exact .inr (.inl (by rw [hsame]; exact hless))
      · have := hbits hnil
        omega

theorem onDirectBit_good {d : SymbolState} {input : List Byte} {k : Nat → SymbolState → SymbolState}
    (hk : ∀ rangeDecoder b, BitGood d rangeDecoder (.ok (k b { d with rangeDecoder }, []))) :
    StepGood d input (onDirectBit d input k) := by
  unfold onDirectBit
  match hbit : d.rangeDecoder.decodeDirectBit input with
  | none => exact RangeDecoder.decodeDirectBit_none hbit
  | some (b, rangeDecoder, rest) =>
    obtain ⟨hsuffix, htaken, hless⟩ := RangeDecoder.decodeDirectBit_spec hbit
    have hgood := hk rangeDecoder b
    simp only
    generalize k b { d with rangeDecoder } = next at hgood
    cases hgood with
    | intro hcore hphase hsame hinit hbits =>
      refine ⟨⟨hcore, hphase, by simp [hinit]⟩, hsuffix, ?_, fun _ => ⟨hinit, fun hnil => ?_⟩⟩
      · rcases hless with hless | hless
        · exact .inl hless
        · exact .inr (.inl (by rw [hsame]; exact hless))
      · have := hbits hnil
        omega

/-- A step that takes no input and writes nothing. -/
theorem idle_good {d d' : SymbolState} {input : List Byte} (hcore : Core d')
    (hphase : PhaseGood d' d'.phase) (hrange : d'.rangeDecoder = d.rangeDecoder)
    (hrank : rank d' < rank d) (hinit : d'.rcInitialized = true)
    (hbits : bitsLeft d' ≤ bitsLeft d) : StepGood d input (.move d' input []) :=
  ⟨⟨hcore, hphase, by simp [hinit]⟩, List.suffix_refl _, .inr (.inr ⟨by rw [hrange], hrank⟩),
    fun _ => ⟨hinit, fun _ => Nat.add_le_add_left hbits _⟩⟩

theorem litState_lt {lc lp total : Nat} (hlc : lc ≤ 8) (prev : Byte) :
    (total % 2 ^ lp) * 2 ^ lc + prev.toNat / 2 ^ (8 - lc) < 2 ^ (lc + lp) := by
  have hhigh : total % 2 ^ lp < 2 ^ lp := Nat.mod_lt _ (Nat.two_pow_pos _)
  have hprev : prev.toNat < 2 ^ (8 - lc) * 2 ^ lc := by
    rw [← Nat.pow_add, Nat.sub_add_cancel hlc]
    exact prev.toNat_lt
  have hlow : prev.toNat / 2 ^ (8 - lc) < 2 ^ lc := Nat.div_lt_of_lt_mul hprev
  calc (total % 2 ^ lp) * 2 ^ lc + prev.toNat / 2 ^ (8 - lc)
      < (total % 2 ^ lp) * 2 ^ lc + 2 ^ lc := Nat.add_lt_add_left hlow _
    _ = (total % 2 ^ lp + 1) * 2 ^ lc := (Nat.succ_mul _ _).symm
    _ ≤ 2 ^ lp * 2 ^ lc := Nat.mul_le_mul_right _ hhigh
    _ = 2 ^ (lc + lp) := by rw [Nat.add_comm, Nat.pow_add]

theorem Core.getRep {d : SymbolState} (h : Core d) {dist : UInt32}
    (hdist : dist.toNat < d.dictSize.toNat) :
    ∃ b, getByte d.window (dist.toNat + 1) = .ok b :=
  History.getByte_ok (Nat.succ_pos _) (by rw [h.size]; exact hdist)

theorem startLiteralDecode_ok {d : SymbolState} (h : Core d) :
    ∃ ls, d.startLiteralDecode = .ok { d with phase := .literal ls } ∧ LiteralGood d ls ∧
      ls.symbol = 1 := by
  obtain ⟨prev, hprev⟩ : ∃ prev, d.prevByte = .ok prev := by
    unfold LzmaDecoder.prevByte
    split
    · exact ⟨0, rfl⟩
    · exact History.getByte_ok Nat.one_pos (by rw [h.size]; exact h.dictSize)
  obtain ⟨byte, hmatch⟩ : ∃ byte, d.matchByte = .ok byte := by
    unfold LzmaDecoder.matchByte
    split
    · exact h.getRep h.reps.r0
    · exact ⟨0, rfl⟩
  refine ⟨_, by simp only [startLiteralDecode, hprev, hmatch]; rfl,
    { symbol_pos := Nat.le_refl _, symbol_lt := ?_, litState := litState_lt h.lc prev }, rfl⟩
  show 1 < 0x200
  omega

theorem Fits.mono {d : SymbolState} {n m : Nat} (h : Fits d n) (hle : m ≤ n) : Fits d m := by
  intro unpack hunpack
  have := h unpack hunpack
  omega

theorem posState_lt {d : SymbolState} (h : Core d) : d.posState < 16 := by
  have hmod : d.posState < 2 ^ d.props.pb := Nat.mod_lt _ (Nat.two_pow_pos _)
  have hpow : 2 ^ d.props.pb ≤ 2 ^ 4 := Nat.pow_le_pow_right (by omega) h.pb
  omega

theorem updateState_lt {state : Nat} (h : state < 12) :
    updateStateLiteral state < 12 ∧ updateStateMatch state < 12 ∧ updateStateRep state < 12 ∧
      updateStateShortRep state < 12 := by
  unfold updateStateLiteral updateStateMatch updateStateRep updateStateShortRep
  refine ⟨?_, ?_, ?_, ?_⟩ <;> repeat' split
  all_goals omega

theorem newSymbolStep_good {d : SymbolState} {input : List Byte} (h : Good d)
    (hinit : d.rcInitialized = true) (hphase : d.phase = .newSymbol) :
    StepGood d input (newSymbolStep d input) := by
  have hcore := h.core
  obtain ⟨hidle, hfits⟩ : Idle d ∧ Fits d 0 := by
    have hgood := h.phase
    rwa [hphase] at hgood
  unfold newSymbolStep
  by_cases hreached : d.reachedUnpackSize = true
  · rw [if_pos hreached]
    exact idle_good { hcore with } ⟨hfits, trivial⟩ rfl (by simp [rank, hphase]) hinit (by simp [bitsLeft])
  · rw [if_neg hreached]
    have hone := fits_of_not_reached hreached
    have hpos := posState_lt hcore
    have hstate := hcore.state
    apply onBit_good hcore
    · apply hcore.base_lt
      show 0 + (d.state * 16 + d.posState) < 2615
      omega
    · intro rangeDecoder probs b hlen hprobs hb
      have hcore' := hcore.withBit rangeDecoder hlen hprobs
      by_cases hzero : b = 0
      · obtain ⟨ls, hstart, hlit, hsym⟩ := startLiteralDecode_ok hcore'
        rw [if_pos hzero, hstart]
        exact .intro { hcore' with } ⟨⟨hidle.1, hidle.2⟩, hone, ⟨hlit.1, hlit.2, hlit.3⟩⟩ rfl hinit
          (by simp [bitsLeft, hphase, hsym])
      · rw [if_neg hzero]
        exact .intro { hcore' with } ⟨⟨hidle.1, hidle.2⟩, hone, hpos⟩ rfl hinit
          (by simp [bitsLeft, hphase])

/-- The length of a match comes next. -/
theorem lenStart_good {d : SymbolState} {matchType : MatchType} {isRep : Bool} {posState : Nat}
    (hphase : d.phase = .matchLength matchType) (hdist : d.distDecodeState = none)
    (hone : Fits d 1) (hpos : posState < 16)
    (hlen : d.lenDecodeState = some { isRep, posState, phase := .choice }) :
    PhaseGood d d.phase := by
  rw [hphase]
  exact ⟨hdist, hone, _, hlen, { posState := hpos, tree := trivial }⟩

theorem isRepStep_good {d : SymbolState} {posState : Nat} {input : List Byte} (h : Good d)
    (hinit : d.rcInitialized = true) (hphase : d.phase = .needIsRep posState) :
    StepGood d input (isRepStep d posState input) := by
  have hcore := h.core
  obtain ⟨hidle, hone, hpos⟩ : Idle d ∧ Fits d 1 ∧ posState < 16 := by
    have hgood := h.phase
    rwa [hphase] at hgood
  have hstate := hcore.state
  obtain ⟨_, hmatch, _, _⟩ := updateState_lt hstate
  apply onBit_good hcore
  · apply hcore.base_lt
    show 192 + d.state < 2615
    omega
  · intro rangeDecoder probs b hlen hprobs hb
    have hcore' := hcore.withBit rangeDecoder hlen hprobs
    by_cases hzero : b = 0
    · rw [if_pos hzero]
      exact .intro { hcore' with state := hmatch, reps := hcore'.reps.shift }
        (lenStart_good rfl hidle.2 hone hpos rfl) rfl hinit (by simp [bitsLeft, hphase, lenBits])
    · rw [if_neg hzero]
      exact .intro { hcore' with } ⟨⟨hidle.1, hidle.2⟩, hone, hpos⟩ rfl hinit
        (by simp [bitsLeft, hphase])

theorem repG0Step_good {d : SymbolState} {posState : Nat} {input : List Byte} (h : Good d)
    (hinit : d.rcInitialized = true) (hphase : d.phase = .needRepG0 posState) :
    StepGood d input (repG0Step d posState input) := by
  have hcore := h.core
  obtain ⟨hidle, hone, hpos⟩ : Idle d ∧ Fits d 1 ∧ posState < 16 := by
    have hgood := h.phase
    rwa [hphase] at hgood
  have hstate := hcore.state
  have hfits := hone.mono (Nat.zero_le 1)
  unfold repG0Step
  by_cases hreached : d.reachedUnpackSize = true
  · rw [if_pos hreached]
    exact idle_good { hcore with } ⟨hfits, trivial⟩ rfl (by simp [rank, hphase]) hinit (by simp [bitsLeft])
  · rw [if_neg hreached]
    by_cases hempty : isEmpty d.window = true
    · rw [if_pos hempty]
      exact idle_good { hcore with } ⟨hfits, trivial⟩ rfl (by simp [rank, hphase]) hinit (by simp [bitsLeft])
    · rw [if_neg hempty]
      apply onBit_good hcore
      · apply hcore.base_lt
        show 204 + d.state < 2615
        omega
      · intro rangeDecoder probs b hlen hprobs hb
        have hcore' := hcore.withBit rangeDecoder hlen hprobs
        by_cases hzero : b = 0
        · rw [if_pos hzero]
          exact .intro { hcore' with } ⟨⟨hidle.1, hidle.2⟩, hone, hpos⟩ rfl hinit
            (by simp [bitsLeft, hphase])
        · rw [if_neg hzero]
          exact .intro { hcore' with } ⟨⟨hidle.1, hidle.2⟩, hone, hpos⟩ rfl hinit
            (by simp [bitsLeft, hphase])

/-- The core after a byte has gone into the window. -/
theorem Core.put {d : SymbolState} (h : Core d) (b : Byte) :
    Core { d with window := d.window.put b } :=
  { h with }

theorem rep0LongStep_good {d : SymbolState} {posState : Nat} {input : List Byte} (h : Good d)
    (hinit : d.rcInitialized = true) (hphase : d.phase = .needRep0Long posState) :
    StepGood d input (rep0LongStep d posState input) := by
  have hcore := h.core
  obtain ⟨hidle, hone, hpos⟩ : Idle d ∧ Fits d 1 ∧ posState < 16 := by
    have hgood := h.phase
    rwa [hphase] at hgood
  have hstate := hcore.state
  obtain ⟨_, _, hrep, hshort⟩ := updateState_lt hstate
  apply onBit_good hcore
  · apply hcore.base_lt
    show 240 + (d.state * 16 + posState) < 2615
    omega
  · intro rangeDecoder probs b hlen hprobs hb
    have hcore' := hcore.withBit rangeDecoder hlen hprobs
    by_cases hzero : b = 0
    · obtain ⟨byte, hbyte⟩ := hcore.getRep hcore.reps.r0
      rw [if_pos hzero]
      simp only [hbyte]
      exact .intro { hcore'.put byte with state := hshort } ⟨⟨hidle.1, hidle.2⟩, hone⟩ rfl hinit
        (by simp)
    · rw [if_neg hzero]
      exact .intro { hcore' with state := hrep } (lenStart_good rfl hidle.2 hone hpos rfl) rfl hinit
        (by simp [bitsLeft, hphase, startRepLength, lenBits])

theorem repG1Step_good {d : SymbolState} {posState : Nat} {input : List Byte} (h : Good d)
    (hinit : d.rcInitialized = true) (hphase : d.phase = .needRepG1 posState) :
    StepGood d input (repG1Step d posState input) := by
  have hcore := h.core
  obtain ⟨hidle, hone, hpos⟩ : Idle d ∧ Fits d 1 ∧ posState < 16 := by
    have hgood := h.phase
    rwa [hphase] at hgood
  have hstate := hcore.state
  obtain ⟨_, _, hrep, _⟩ := updateState_lt hstate
  apply onBit_good hcore
  · apply hcore.base_lt
    show 216 + d.state < 2615
    omega
  · intro rangeDecoder probs b hlen hprobs hb
    have hcore' := hcore.withBit rangeDecoder hlen hprobs
    by_cases hzero : b = 0
    · rw [if_pos hzero]
      exact .intro { hcore' with state := hrep, reps := hcore'.reps.takeRep1 }
        (lenStart_good rfl hidle.2 hone hpos rfl) rfl hinit
        (by simp [bitsLeft, hphase, startRepLength, lenBits])
    · rw [if_neg hzero]
      exact .intro { hcore' with } ⟨⟨hidle.1, hidle.2⟩, hone, hpos⟩ rfl hinit
        (by simp [bitsLeft, hphase])

theorem repG2Step_good {d : SymbolState} {posState : Nat} {input : List Byte} (h : Good d)
    (hinit : d.rcInitialized = true) (hphase : d.phase = .needRepG2 posState) :
    StepGood d input (repG2Step d posState input) := by
  have hcore := h.core
  obtain ⟨hidle, hone, hpos⟩ : Idle d ∧ Fits d 1 ∧ posState < 16 := by
    have hgood := h.phase
    rwa [hphase] at hgood
  have hstate := hcore.state
  obtain ⟨_, _, hrep, _⟩ := updateState_lt hstate
  apply onBit_good hcore
  · apply hcore.base_lt
    show 228 + d.state < 2615
    omega
  · intro rangeDecoder probs b hlen hprobs hb
    have hcore' := hcore.withBit rangeDecoder hlen hprobs
    by_cases hzero : b = 0
    · rw [if_pos hzero]
      exact .intro { hcore' with state := hrep, reps := hcore'.reps.takeRep2 }
        (lenStart_good rfl hidle.2 hone hpos rfl) rfl hinit
        (by simp [bitsLeft, hphase, startRepLength, lenBits])
    · rw [if_neg hzero]
      exact .intro { hcore' with state := hrep, reps := hcore'.reps.takeRep3 }
        (lenStart_good rfl hidle.2 hone hpos rfl) rfl hinit
        (by simp [bitsLeft, hphase, startRepLength, lenBits])

/-- Another bit of a symbol that is not full. -/
theorem LiteralGood.child {d : SymbolState} {ls : LiteralState} {b : Nat} (h : LiteralGood d ls)
    (hopen : ¬ 0x100 ≤ ls.symbol) (hb : b < 2) :
    1 ≤ 2 * ls.symbol + b ∧ 2 * ls.symbol + b < 0x200 ∧
      8 - Nat.log 2 (2 * ls.symbol + b) + 1 ≤ 8 - Nat.log 2 ls.symbol := by
  have hpos := h.symbol_pos
  have hhalf : (2 * ls.symbol + b) / 2 = ls.symbol := by omega
  have hlog := Nat.log_div_base 2 (2 * ls.symbol + b)
  rw [hhalf] at hlog
  have hpos' : 1 ≤ Nat.log 2 (2 * ls.symbol + b) := Nat.log_pos (by omega) (by omega)
  have hle : Nat.log 2 ls.symbol < 8 := Nat.log_lt_of_lt_pow (by omega) (by omega)
  omega

theorem LiteralGood.index_lt {d : SymbolState} {ls : LiteralState} (h : LiteralGood d ls)
    (hcore : Core d) {k : Nat} (hk : k < 0x300) :
    baseProbsSize + kLzmaLitSize * ls.litState + k < d.probs.length := by
  have hsize := hcore.probs_size
  have hlit := h.litState
  show 1847 + 768 * ls.litState + k < d.probs.length
  omega

theorem literalStep_good {d : SymbolState} {ls : LiteralState} {input : List Byte} (h : Good d)
    (hinit : d.rcInitialized = true) (hphase : d.phase = .literal ls) :
    StepGood d input (literalStep d ls input) := by
  have hcore := h.core
  obtain ⟨hidle, hone, hlit⟩ : Idle d ∧ Fits d 1 ∧ LiteralGood d ls := by
    have hgood := h.phase
    rwa [hphase] at hgood
  obtain ⟨hstate, _⟩ := updateState_lt hcore.state
  unfold literalStep
  by_cases hfull : 0x100 ≤ ls.symbol
  · simp only [if_pos hfull]
    refine ⟨⟨{ hcore.put _ with state := hstate }, ⟨⟨hidle.1, hidle.2⟩, ?_⟩, ?_⟩,
      List.suffix_refl _, .inr (.inr ⟨rfl, ?_⟩), fun _ => ⟨hinit, by simp⟩⟩
    · exact hone
    · simp [finishLiteral, hinit]
    · simp [rank, hphase, finishLiteral]
  · simp only [if_neg hfull]
    by_cases hmatched : ls.matched = true
    · simp only [if_pos hmatched]
      apply onBit_good hcore
      · rw [Nat.add_assoc]
        apply hlit.index_lt hcore
        omega
      · intro rangeDecoder probs b hlen hprobs hb
        obtain ⟨hpos, hlt, hlog⟩ := hlit.child hfull hb
        have hcore' := hcore.withBit rangeDecoder hlen hprobs
        by_cases hdiffer : (ls.matchByte >>> 7).toNat % 2 ≠ b
        · rw [if_pos hdiffer]
          exact .intro { hcore' with } ⟨⟨hidle.1, hidle.2⟩, hone, ⟨hpos, hlt, hlit.litState⟩⟩ rfl hinit
            (by simpa [bitsLeft, hphase] using hlog)
        · rw [if_neg hdiffer]
          exact .intro { hcore' with } ⟨⟨hidle.1, hidle.2⟩, hone, ⟨hpos, hlt, hlit.litState⟩⟩ rfl hinit
            (by simpa [bitsLeft, hphase] using hlog)
    · simp only [if_neg hmatched]
      apply onBit_good hcore
      · apply hlit.index_lt hcore
        omega
      · intro rangeDecoder probs b hlen hprobs hb
        obtain ⟨hpos, hlt, hlog⟩ := hlit.child hfull hb
        have hcore' := hcore.withBit rangeDecoder hlen hprobs
        exact .intro { hcore' with } ⟨⟨hidle.1, hidle.2⟩, hone, ⟨hpos, hlt, hlit.litState⟩⟩ rfl hinit
          (by simpa [bitsLeft, hphase] using hlog)

theorem actualLen_fits {d : SymbolState} {len : Nat} (h : Fits d 1) (hlen : 0 < len) :
    0 < d.actualLen len ∧ d.actualLen len ≤ len ∧ Fits d (d.actualLen len) := by
  unfold LzmaDecoder.actualLen
  split
  · rename_i unpack hunpack
    have := h unpack hunpack
    refine ⟨by omega, Nat.min_le_left _ _, ?_⟩
    intro unpack' hunpack'
    obtain rfl : unpack = unpack' := Option.some.inj (hunpack.symm.trans hunpack')
    omega
  · rename_i hnone
    refine ⟨hlen, Nat.le_refl _, fun unpack hunpack => ?_⟩
    rw [hnone] at hunpack
    exact absurd hunpack (by simp)

/-- A match is ready to be copied. -/
theorem startCopyMatch_good {d : SymbolState} {dist : UInt32} {len : Nat} (h : Core d)
    (hidle : Idle d) (hone : Fits d 1) (hlen : 0 < len) (hdist : dist.toNat < d.dictSize.toNat) :
    Core (d.startCopyMatch dist len) ∧
      PhaseGood (d.startCopyMatch dist len) (d.startCopyMatch dist len).phase ∧
      rank (d.startCopyMatch dist len) ≤ len + 2 ∧ bitsLeft (d.startCopyMatch dist len) = 0 := by
  obtain ⟨hpos, hle, hfits⟩ := actualLen_fits hone hlen
  refine ⟨{ h with }, ⟨⟨hidle.1, hidle.2⟩, hfits, hdist⟩, Nat.add_le_add_right hle 2, ?_⟩
  obtain ⟨n, hn⟩ : ∃ n, d.actualLen len = n + 1 := ⟨d.actualLen len - 1, by omega⟩
  simp [bitsLeft, startCopyMatch, hn]

/-- A length decoded leads to a distance or to a copy. -/
theorem afterLength_good {d : SymbolState} (matchType : MatchType) {len : Nat} (h : Core d)
    (hidle : Idle d) (hone : Fits d 1) (hlen : len ≤ 271) :
    Core (d.afterLength matchType len) ∧
      PhaseGood (d.afterLength matchType len) (d.afterLength matchType len).phase ∧
      rank (d.afterLength matchType len) < 300 ∧ bitsLeft (d.afterLength matchType len) ≤ 40 := by
  have hrep : Core (d.startCopyMatch d.reps.r0 (len + kMatchMinLen)) ∧
      PhaseGood (d.startCopyMatch d.reps.r0 (len + kMatchMinLen))
        (d.startCopyMatch d.reps.r0 (len + kMatchMinLen)).phase ∧
      rank (d.startCopyMatch d.reps.r0 (len + kMatchMinLen)) < 300 ∧
      bitsLeft (d.startCopyMatch d.reps.r0 (len + kMatchMinLen)) ≤ 40 := by
    have hpos : 0 < len + kMatchMinLen := Nat.succ_pos _
    obtain ⟨hcore, hphase, hrank, hbits⟩ := startCopyMatch_good h hidle hone hpos h.reps.r0
    have hmin : len + kMatchMinLen = len + 2 := rfl
    exact ⟨hcore, hphase, by omega, by omega⟩
  cases matchType with
  | simple =>
    refine ⟨{ h with }, ⟨hidle.1, hone, Nat.le_add_left _ _, ?_, _, rfl, ?_, TreeNode.root 6⟩, ?_, ?_⟩
    · show len + 2 ≤ 273
      omega
    · show (if 4 ≤ len then 3 else len) < 4
      split <;> omega
    · show len + 2 + 5 < 300
      omega
    · show 32 + 6 ≤ 40
      omega
  | rep0 => exact hrep
  | rep1 => exact hrep
  | rep2 => exact hrep
  | rep3 => exact hrep

/-- Another state of the length decoder. -/
theorem withLen_good {d : SymbolState} {matchType : MatchType} {lds : LenDecodeState}
    {phase : LenPhase} (hphase : d.phase = .matchLength matchType) (hdist : d.distDecodeState = none)
    (hone : Fits d 1) (hlen : LenGood { lds with phase }) :
    PhaseGood (withLen d lds phase) (withLen d lds phase).phase := by
  have hsame : (withLen d lds phase).phase = .matchLength matchType := hphase
  rw [hsame]
  exact ⟨hdist, hone, _, rfl, hlen⟩

theorem withLen_bits {d : SymbolState} {matchType : MatchType} {lds : LenDecodeState}
    {phase : LenPhase} (hphase : d.phase = .matchLength matchType) :
    bitsLeft (withLen d lds phase) = lenBits phase := by
  simp [bitsLeft, withLen, hphase]

theorem LenCoder.treeGood {lds : LenDecodeState} {coder : LenCoder} {m n : Nat}
    (hpos : lds.posState < 16) (h : TreeNode coder.numBits m n) :
    LenGood { lds with phase := coder.phase m n } := by
  refine ⟨hpos, ?_⟩
  cases coder <;> exact h

theorem LenCoder.treeBits (coder : LenCoder) (m n : Nat) : lenBits (coder.phase m n) = 40 + n := by
  cases coder <;> rfl

theorem lenBase_le (isRep : Bool) : lenBase isRep ≤ 946 := by
  cases isRep <;> decide

theorem lenTreeStep_good {d : SymbolState} {matchType : MatchType} {lds : LenDecodeState}
    (coder : LenCoder) {m n : Nat} {input : List Byte} (h : Good d) (hinit : d.rcInitialized = true)
    (hphase : d.phase = .matchLength matchType) (hdist : d.distDecodeState = none)
    (hone : Fits d 1) (hlen : bitsLeft d = 40 + n) (hpos : lds.posState < 16)
    (htree : TreeNode coder.numBits m n) :
    StepGood d input (lenTreeStep d matchType lds coder m n input) := by
  have hcore := h.core
  cases n with
  | zero =>
    obtain ⟨hcore', hphase', hrank, hbits⟩ :=
      afterLength_good (d := { d with lenDecodeState := none }) matchType { hcore with } ⟨rfl, hdist⟩
        hone (LenCoder.value_le htree)
    refine idle_good hcore' hphase' ?_ ?_ ?_ ?_
    · cases matchType <;> rfl
    · simpa [rank, hphase] using hrank
    · cases matchType <;> exact hinit
    · omega
  | succ n =>
    have hoffset := LenCoder.offset_lt hpos htree
    have hbase := lenBase_le lds.isRep
    rw [lenTreeStep]
    apply onBit_good hcore
    · apply hcore.base_lt
      omega
    · intro rangeDecoder probs b hplen hprobs hb
      have hcore' := hcore.withBit rangeDecoder hplen hprobs
      refine .intro { hcore' with } (withLen_good hphase hdist hone
        (LenCoder.treeGood hpos (htree.child hb))) rfl hinit fun _ => ?_
      rw [withLen_bits (d := { d with rangeDecoder, probs }) hphase, LenCoder.treeBits, hlen]
      omega

theorem lengthStep_good {d : SymbolState} {matchType : MatchType} {input : List Byte} (h : Good d)
    (hinit : d.rcInitialized = true) (hphase : d.phase = .matchLength matchType) :
    StepGood d input (lengthStep d matchType input) := by
  have hcore := h.core
  obtain ⟨hdist, hone, lds, hlds, hgood⟩ : d.distDecodeState = none ∧ Fits d 1 ∧
      ∃ lds, d.lenDecodeState = some lds ∧ LenGood lds := by
    have hgood := h.phase
    rwa [hphase] at hgood
  have hbits : bitsLeft d = lenBits lds.phase := by simp [bitsLeft, hphase, hlds]
  have hbase := lenBase_le lds.isRep
  have htree := hgood.tree
  unfold lengthStep
  rw [hlds, Option.getD_some]
  cases hl : lds.phase with
  | choice =>
    rw [hl] at hbits
    simp only [hl]
    apply onBit_good hcore
    · apply hcore.base_lt
      omega
    · intro rangeDecoder probs b hplen hprobs hb
      have hcore' := hcore.withBit rangeDecoder hplen hprobs
      refine .intro { hcore' with } (withLen_good hphase hdist hone ⟨hgood.posState, ?_⟩) rfl hinit
        fun _ => ?_
      · split
        · trivial
        · trivial
        all_goals rename_i hcase; split at hcase <;> cases hcase
        exact TreeNode.root 3
      · rw [withLen_bits (d := { d with rangeDecoder, probs }) hphase, hbits]
        by_cases hzero : b = 0 <;> simp [hzero, lenBits, kLenNumLowBits]
  | choice2 =>
    rw [hl] at hbits
    simp only [hl]
    apply onBit_good hcore
    · apply hcore.base_lt
      omega
    · intro rangeDecoder probs b hplen hprobs hb
      have hcore' := hcore.withBit rangeDecoder hplen hprobs
      refine .intro { hcore' with } (withLen_good hphase hdist hone ⟨hgood.posState, ?_⟩) rfl hinit
        fun _ => ?_
      · split
        · trivial
        · trivial
        all_goals rename_i hcase; split at hcase <;> cases hcase
        · exact TreeNode.root 3
        · exact TreeNode.root 8
      · rw [withLen_bits (d := { d with rangeDecoder, probs }) hphase, hbits]
        by_cases hzero : b = 0 <;> simp [hzero, lenBits, kLenNumMidBits, kLenNumHighBits]
  | low m n =>
    rw [hl] at hbits htree
    simp only [hl]
    exact lenTreeStep_good .low h hinit hphase hdist hone hbits hgood.posState htree
  | mid m n =>
    rw [hl] at hbits htree
    simp only [hl]
    exact lenTreeStep_good .mid h hinit hphase hdist hone hbits hgood.posState htree
  | high m n =>
    rw [hl] at hbits htree
    simp only [hl]
    exact lenTreeStep_good .high h hinit hphase hdist hone hbits hgood.posState htree

theorem afterDistance_good {d : SymbolState} {len : Nat} {dist : UInt32} (h : Core d)
    (hidle : Idle d) (hone : Fits d 1) (hlen : 2 ≤ len) :
    Core (d.afterDistance len dist) ∧
      PhaseGood (d.afterDistance len dist) (d.afterDistance len dist).phase ∧
      rank (d.afterDistance len dist) ≤ len + 2 ∧ bitsLeft (d.afterDistance len dist) = 0 := by
  have hfits := hone.mono (Nat.zero_le 1)
  unfold LzmaDecoder.afterDistance
  by_cases hmark : dist = 0xFFFFFFFF
  · rw [if_pos hmark]
    exact ⟨{ h with }, ⟨hfits, trivial⟩, Nat.zero_le _, rfl⟩
  · rw [if_neg hmark]
    by_cases hfar : d.dictSize ≤ dist ∨ ¬ checkDistance d.window dist.toNat
    · rw [if_pos hfar]
      exact ⟨{ h with }, ⟨hfits, trivial⟩, Nat.zero_le _, rfl⟩
    · rw [if_neg hfar]
      have hnear : dist.toNat < d.dictSize.toNat := by
        have hlt := UInt32.not_le.mp (not_or.mp hfar).1
        exact UInt32.lt_iff_toNat_lt.mp hlt
      exact startCopyMatch_good (d := { d with reps := { d.reps with r0 := dist } })
        { h with reps := ⟨hnear, h.reps.r1, h.reps.r2, h.reps.r3⟩ } ⟨hidle.1, hidle.2⟩ hone
        (by omega) hnear

theorem finishDistance_good {d : SymbolState} {len : Nat} (dist : UInt32) (h : Core d)
    (hlds : d.lenDecodeState = none) (hone : Fits d 1) (hlen : 2 ≤ len) :
    Core (finishDistance d len dist) ∧
      PhaseGood (finishDistance d len dist) (finishDistance d len dist).phase ∧
      rank (finishDistance d len dist) ≤ len + 2 ∧ bitsLeft (finishDistance d len dist) = 0 :=
  afterDistance_good (d := { d with distDecodeState := none }) { h with } ⟨hlds, rfl⟩ hone hlen

theorem afterDistance_same (d : SymbolState) (len : Nat) (dist : UInt32) :
    (d.afterDistance len dist).rangeDecoder = d.rangeDecoder ∧
      (d.afterDistance len dist).rcInitialized = d.rcInitialized := by
  unfold LzmaDecoder.afterDistance
  split
  · exact ⟨rfl, rfl⟩
  · split <;> exact ⟨rfl, rfl⟩

/-- The distance is decoded, without taking more input. -/
theorem finishDistance_step {d : SymbolState} {len lenState : Nat} {dist : UInt32}
    {input : List Byte} (h : Core d) (hinit : d.rcInitialized = true)
    (hphase : d.phase = .matchDistance len lenState) (hlds : d.lenDecodeState = none)
    (hone : Fits d 1) (hlen : 2 ≤ len) :
    StepGood d input (.move (finishDistance d len dist) input []) := by
  obtain ⟨hcore, hgood, hrank, hbits⟩ := finishDistance_good dist h hlds hone hlen
  obtain ⟨hrange, hsame⟩ := afterDistance_same { d with distDecodeState := none } len dist
  refine idle_good hcore hgood hrange ?_ (hsame.trans hinit) (by omega)
  have hfar : len + 3 ≤ rank d := by
    simp only [rank, hphase]
    split <;> omega
  omega

/-- Another state of the distance decoder. -/
theorem withDist_good {d : SymbolState} {len lenState lenState' : Nat} {phase : DistPhase}
    (hphase : d.phase = .matchDistance len lenState) (hlds : d.lenDecodeState = none)
    (hone : Fits d 1) (hmin : 2 ≤ len) (hmax : len ≤ 273)
    (hdist : DistGood { lenState := lenState', phase }) :
    PhaseGood (withDist d lenState' phase) (withDist d lenState' phase).phase := by
  have hsame : (withDist d lenState' phase).phase = .matchDistance len lenState := hphase
  rw [hsame]
  exact ⟨hlds, hone, hmin, hmax, _, rfl, hdist⟩

theorem withDist_bits {d : SymbolState} {len lenState lenState' : Nat} {phase : DistPhase}
    (hphase : d.phase = .matchDistance len lenState) :
    bitsLeft (withDist d lenState' phase) = distBits phase := by
  simp [bitsLeft, withDist, hphase]

theorem withDist_rank {d : SymbolState} {len lenState lenState' : Nat} {phase : DistPhase}
    (hphase : d.phase = .matchDistance len lenState) :
    rank (withDist d lenState' phase) =
      match phase with
      | .posSlot _ _ => len + 5
      | .directBits _ _ => len + 4
      | _ => len + 3 := by
  simp only [rank, withDist, hphase]
  cases phase <;> rfl

/-- A slot that calls for more bits calls for boundedly many, at a place in bounds. -/
theorem specSlot_good {posSlot lenState : Nat} (hmin : ¬ posSlot < kStartPosModelIndex)
    (hmax : posSlot < kEndPosModelIndex) (hlen : lenState < 4) :
    DistGood {
      lenState
      phase := .specPosBits (UInt32.ofNat (2 + posSlot % 2) <<< UInt32.ofNat (posSlot / 2 - 1))
        (offPosDecoders + (UInt32.ofNat (2 + posSlot % 2) <<< UInt32.ofNat (posSlot / 2 - 1)).toNat -
          posSlot) 1 0 0 (posSlot / 2 - 1) } ∧ posSlot / 2 - 1 ≤ 5 := by
  have hmin : 4 ≤ posSlot := Nat.le_of_not_lt hmin
  have hmax : posSlot < 14 := hmax
  have hbase : (UInt32.ofNat (2 + posSlot % 2) <<< UInt32.ofNat (posSlot / 2 - 1)).toNat ≤ 96 := by
    interval_cases posSlot <;> decide
  refine ⟨⟨hlen, ?_, by omega, TreeNode.root _⟩, by omega⟩
  show 1716 + _ - posSlot ≤ 1812
  omega

theorem afterPosSlot_step {d : SymbolState} {len lenState lenState' posSlot : Nat}
    {input : List Byte} (h : Core d) (hinit : d.rcInitialized = true)
    (hphase : d.phase = .matchDistance len lenState) (hlds : d.lenDecodeState = none)
    (hone : Fits d 1) (hmin : 2 ≤ len) (hmax : len ≤ 273) (hlen : lenState' < 4)
    (hslot : posSlot < 64) (hrank : rank d = len + 5) (hbits : bitsLeft d = 32) :
    StepGood d input (.move (afterPosSlot d len lenState' posSlot) input []) := by
  unfold afterPosSlot
  by_cases hstart : posSlot < kStartPosModelIndex
  · rw [if_pos hstart]
    exact finishDistance_step h hinit hphase hlds hone hmin
  · rw [if_neg hstart]
    by_cases hend : posSlot < kEndPosModelIndex
    · obtain ⟨hgood, hfew⟩ := specSlot_good hstart hend hlen
      simp only [if_pos hend]
      refine idle_good { h with } (withDist_good hphase hlds hone hmin hmax hgood) rfl ?_ hinit ?_
      · rw [withDist_rank hphase, hrank]
        show len + 3 < len + 5
        omega
      · rw [withDist_bits hphase, hbits]
        show posSlot / 2 - 1 - 0 ≤ 32
        omega
    · simp only [if_neg hend]
      have hfew : posSlot / 2 - 1 - kNumAlignBits ≤ 26 := by
        show posSlot / 2 - 1 - 4 ≤ 26
        omega
      refine idle_good { h with } (withDist_good hphase hlds hone hmin hmax ⟨hlen, hfew⟩) rfl ?_ hinit ?_
      · rw [withDist_rank hphase, hrank]
        show len + 4 < len + 5
        omega
      · rw [withDist_bits hphase, hbits]
        show 5 + (posSlot / 2 - 1 - kNumAlignBits) ≤ 32
        omega

theorem distanceStep_good {d : SymbolState} {len lenState : Nat} {input : List Byte} (h : Good d)
    (hinit : d.rcInitialized = true) (hphase : d.phase = .matchDistance len lenState) :
    StepGood d input (distanceStep d len input) := by
  have hcore := h.core
  obtain ⟨hlds, hone, hmin, hmax, dds, hdds, hgood⟩ : d.lenDecodeState = none ∧ Fits d 1 ∧
      2 ≤ len ∧ len ≤ 273 ∧ ∃ dds, d.distDecodeState = some dds ∧ DistGood dds := by
    have hgood := h.phase
    rwa [hphase] at hgood
  have hbits : bitsLeft d = distBits dds.phase := by simp [bitsLeft, hphase, hdds]
  obtain ⟨lenState', phase⟩ := dds
  have hlenState : lenState' < 4 := hgood.lenState
  have htree := hgood.tree
  unfold distanceStep
  rw [hdds]
  cases phase with
  | posSlot m n =>
    have htree : TreeNode 6 m n := htree
    cases n with
    | zero =>
      have hleaf : m < 128 := htree.leaf
      refine afterPosSlot_step hcore hinit hphase hlds hone hmin hmax hlenState (by omega) ?_ hbits
      simp [rank, hphase, hdds]
    | succ n =>
      have hm : m < 64 := htree.lt
      apply onBit_good hcore
      · apply hcore.base_lt
        show 1460 + lenState' * 64 + m < 2615
        omega
      · intro rangeDecoder probs b hplen hprobs hb
        have hcore' := hcore.withBit rangeDecoder hplen hprobs
        refine .intro { hcore' with }
          (withDist_good hphase hlds hone hmin hmax ⟨hlenState, htree.child hb⟩) rfl hinit fun _ => ?_
        rw [withDist_bits (d := { d with rangeDecoder, probs }) hphase, hbits]
        show 32 + n + 1 ≤ 32 + (n + 1)
        omega
  | directBits dist n =>
    have hfew : n ≤ 26 := htree
    cases n with
    | zero =>
      refine idle_good { hcore with }
        (withDist_good hphase hlds hone hmin hmax ⟨hlenState, TreeNode.root 4⟩) rfl ?_ hinit ?_
      · rw [withDist_rank hphase]
        simp [rank, hphase, hdds]
      · rw [withDist_bits hphase, hbits]
        show 4 - 0 ≤ 5 + 0
        omega
    | succ n =>
      apply onDirectBit_good
      intro rangeDecoder b
      have hn : n ≤ 26 := by omega
      refine .intro { hcore with } (withDist_good hphase hlds hone hmin hmax ⟨hlenState, hn⟩) rfl
        hinit fun _ => ?_
      rw [withDist_bits (d := { d with rangeDecoder }) hphase, hbits]
      show 5 + n + 1 ≤ 5 + (n + 1)
      omega
  | alignBits dist m symbol i =>
    have htree : TreeNode 4 m (4 - i) := htree
    by_cases hi : i < kNumAlignBits
    · simp only [if_pos hi]
      have hi4 : i < 4 := hi
      obtain ⟨n, hn⟩ : ∃ n, 4 - i = n + 1 := ⟨3 - i, by omega⟩
      rw [hn] at htree
      have hm : m < 16 := htree.lt
      apply onBit_good hcore
      · apply hcore.base_lt
        show 1831 + m < 2615
        omega
      · intro rangeDecoder probs b hplen hprobs hb
        have hcore' := hcore.withBit rangeDecoder hplen hprobs
        have hchild : TreeNode 4 (2 * m + b) (4 - (i + 1)) := by
          have hleft : 4 - (i + 1) = n := by omega
          rw [hleft]
          exact htree.child hb
        refine .intro { hcore' with }
          (withDist_good hphase hlds hone hmin hmax ⟨hlenState, hchild⟩) rfl hinit fun _ => ?_
        rw [withDist_bits (d := { d with rangeDecoder, probs }) hphase, hbits]
        show 4 - (i + 1) + 1 ≤ 4 - i
        omega
    · simp only [if_neg hi]
      exact finishDistance_step hcore hinit hphase hlds hone hmin
  | specPosBits dist probsOffset m symbol i numBits =>
    obtain ⟨hoffset, hnum, htree⟩ : probsOffset ≤ 1812 ∧ numBits ≤ 5 ∧
      TreeNode numBits m (numBits - i) := htree
    by_cases hi : i < numBits
    · simp only [if_pos hi]
      obtain ⟨n, hn⟩ : ∃ n, numBits - i = n + 1 := ⟨numBits - i - 1, by omega⟩
      rw [hn] at htree
      have hm := htree.lt
      have hpow : 2 ^ numBits ≤ 2 ^ 5 := Nat.pow_le_pow_right (by omega) hnum
      apply onBit_good hcore
      · apply hcore.base_lt
        omega
      · intro rangeDecoder probs b hplen hprobs hb
        have hcore' := hcore.withBit rangeDecoder hplen hprobs
        have hchild : TreeNode numBits (2 * m + b) (numBits - (i + 1)) := by
          have hleft : numBits - (i + 1) = n := by omega
          rw [hleft]
          exact htree.child hb
        refine .intro { hcore' with } (withDist_good hphase hlds hone hmin hmax
          ⟨hlenState, hoffset, hnum, hchild⟩) rfl hinit fun _ => ?_
        rw [withDist_bits (d := { d with rangeDecoder, probs }) hphase, hbits]
        show numBits - (i + 1) + 1 ≤ numBits - i
        omega
    · simp only [if_neg hi]
      exact finishDistance_step hcore hinit hphase hlds hone hmin

theorem copyStep_good {d : SymbolState} {dist : UInt32} {remaining : Nat} {input : List Byte}
    (h : Good d) (hinit : d.rcInitialized = true) (hphase : d.phase = .copyMatch dist remaining) :
    StepGood d input (copyStep d dist remaining input) := by
  have hcore := h.core
  obtain ⟨hidle, hfits, hdist⟩ : Idle d ∧ Fits d remaining ∧ dist.toNat < d.dictSize.toNat := by
    have hgood := h.phase
    rwa [hphase] at hgood
  cases remaining with
  | zero =>
    exact idle_good { hcore with } ⟨⟨hidle.1, hidle.2⟩, hfits⟩ rfl (by simp [rank, hphase]) hinit
      (by simp [bitsLeft, hphase])
  | succ n =>
    obtain ⟨b, hb⟩ := hcore.getRep hdist
    simp only [copyStep, hb]
    refine ⟨⟨{ hcore.put b with }, ⟨⟨hidle.1, hidle.2⟩, ?_, hdist⟩, by simp [hinit]⟩,
      List.suffix_refl _, .inr (.inr ⟨rfl, by simp [rank, hphase]⟩), fun _ => ⟨hinit, by simp⟩⟩
    intro unpack hunpack
    have hle := hfits unpack hunpack
    show d.decodedSize + 1 + n ≤ unpack
    omega

theorem initStep_good {d : SymbolState} {input : List Byte} (h : Good d)
    (hinit : d.rcInitialized = false) : StepGood d input (initStep d input) := by
  have hcore := h.core
  cases input with
  | nil => rfl
  | cons b rest =>
    have hlen : rest.length < (b :: rest).length := Nat.lt_succ_self _
    obtain ⟨_, hphase⟩ := h.starting hinit
    obtain ⟨hidle, hfits⟩ : Idle d ∧ Fits d 0 := by
      have hgood := h.phase
      rwa [hphase] at hgood
    refine ⟨⟨{ hcore with }, ?_, fun hmore => ⟨RangeDecoder.init_one_length hmore, hphase⟩⟩,
      List.suffix_cons _ _, .inl hlen, fun htrue => absurd htrue (by simp [hinit])⟩
    simp only [hphase]
    exact ⟨⟨hidle.1, hidle.2⟩, hfits⟩

/-- Every step of a good machine is good. -/
theorem step_good {d : SymbolState} (h : Good d) (input : List Byte) :
    StepGood d input (step d input) := by
  unfold step
  by_cases hinit : d.rcInitialized = true
  · rw [if_pos hinit]
    cases hphase : d.phase with
    | finished status => exact ⟨status, rfl, hphase⟩
    | newSymbol => exact newSymbolStep_good h hinit hphase
    | needIsRep posState => exact isRepStep_good h hinit hphase
    | needRepG0 posState => exact repG0Step_good h hinit hphase
    | needRep0Long posState => exact rep0LongStep_good h hinit hphase
    | needRepG1 posState => exact repG1Step_good h hinit hphase
    | needRepG2 posState => exact repG2Step_good h hinit hphase
    | literal ls => exact literalStep_good h hinit hphase
    | matchLength matchType => exact lengthStep_good h hinit hphase
    | matchDistance len lenState => exact distanceStep_good h hinit hphase
    | copyMatch dist remaining => exact copyStep_good h hinit hphase
  · rw [if_neg hinit]
    exact initStep_good h (by simpa using hinit)

end SymbolState
end Iluvatar
