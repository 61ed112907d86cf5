/-
LZMA2 decoding as a machine that takes one byte of the framing, or one step of the symbol
machine, at a time.

The machine's states are the chunk decoder's own in a normal form: nothing is pending, the
produced counter counts what has been decoded, and a chunk all decoded is finished.
-/
import Iluvatar.Lzma.Distances
import Iluvatar.Lzma.Lzma2

namespace Iluvatar

open Sansio

/-- A chunk decoder over the abstract window. -/
abbrev FrameState := Lzma2Decoder History

/-- A step of the machine: it halts at the end of the stream, at corrupt data, or fails. -/
abbrev FrameNext := Next FrameState (Except Fault Lzma2DecodeStatus) Byte Byte

namespace SymbolState

/-- A decoder that has decoded all it should is finished. -/
def complete (e : SymbolState) : SymbolState :=
  if e.reachedUnpackSize then { e with phase := .finished .finishedWithoutMark } else e

end SymbolState

namespace FrameState

open Lzma2Decoder SymbolState

/-- One byte of the framing. -/
def byteStep (d : FrameState) (f : Byte → FrameState → FrameState) : List Byte → FrameNext
  | [] => .need
  | b :: rest => .move (f b d) rest []

/-- One byte of a chunk that holds its bytes as they are. -/
def putStored (b : Byte) (d : FrameState) : FrameState :=
  let d := { d with
    decoder := { d.decoder with window := d.decoder.window.put b }
    chunkOutProduced := d.chunkOutProduced + 1 }
  if d.unpackSize ≤ d.chunkOutProduced then
    { d with state := .control, stateInitialized := true, chunkOutProduced := 0 }
  else d

def storedStep (d : FrameState) : List Byte → FrameNext
  | [] => .need
  | b :: rest => .move (putStored b d) rest [b]

/-- The chunk is over, and what comes next is `state`. -/
def leave (d : FrameState) (state : Lzma2State) : FrameState :=
  { d with state, decoder := { d.decoder with phase := .newSymbol }, chunkOutProduced := 0 }

/-- One packed byte skipped, or the end of the chunk. -/
def skipStep (d : FrameState) (input : List Byte) : FrameNext :=
  if d.packSize ≤ d.chunkInConsumed then .move (d.leave .control) input []
  else
    match input with
    | [] => .need
    | _ :: rest => .move { d with chunkInConsumed := d.chunkInConsumed + 1 } rest []

/-- The chunk with its LZMA decoder at `e`, `k` packed bytes taken. -/
def inChunk (d : FrameState) (e : SymbolState) (k : Nat) : FrameState :=
  { d with decoder := complete e, chunkInConsumed := k, chunkOutProduced := e.decodedSize }

/-- One step of the symbol machine over what is left of the chunk. -/
def symbolStep (d : FrameState) (input : List Byte) : FrameNext :=
  let left := d.packSize - d.chunkInConsumed
  match SymbolState.step d.decoder (input.take left) with
  | .need => if left = 0 then .move (d.leave .error) input [] else .need
  | .halt (.error f) => .halt (.error f)
  | .halt (.ok _) => .halt (.error .panic)
  | .move e rest out =>
    .move (d.inChunk e (d.chunkInConsumed + ((input.take left).length - rest.length)))
      (rest ++ input.drop left) out

def packedStep (d : FrameState) (input : List Byte) : FrameNext :=
  match d.decoder.phase with
  | .finished _ => skipStep d input
  | _ => symbolStep d input

def step (d : FrameState) (input : List Byte) : FrameNext :=
  match d.state with
  | .finished => .halt (.ok .finished)
  | .error => .halt (.ok .error)
  | .control => byteStep d onControl input
  | .unpack0 => byteStep d onUnpack0 input
  | .unpack1 => byteStep d onUnpack1 input
  | .pack0 => byteStep d onPack0 input
  | .pack1 => byteStep d onPack1 input
  | .prop => byteStep d onProp input
  | .data => if d.stored then storedStep d input else packedStep d input

/-- What holds inside a chunk of LZMA data. -/
structure ChunkGood (d : FrameState) : Prop where
  good : Good d.decoder
  size : d.decoder.unpackSize = some d.unpackSize
  within : d.chunkInConsumed ≤ d.packSize
  counted : d.chunkOutProduced = d.decoder.decodedSize
  fresh : d.decoder.rcInitialized = false → Fits d.decoder 1
  completed : d.decoder.reachedUnpackSize = true → ∃ status, d.decoder.phase = .finished status

/-- A chunk of LZMA data whose sizes are being read. -/
def Sizing (state : Lzma2State) : Prop := state = .pack0 ∨ state = .pack1 ∨ state = .prop

structure FrameGood (d : FrameState) : Prop where
  core : Core d.decoder
  dictSize : 4096 ≤ d.decoder.dictSize.toNat
  sizing : Sizing d.state → d.stored = false ∧ 0 < d.unpackSize
  stored : d.state = .data → d.stored = true → d.chunkOutProduced < d.unpackSize
  packed : d.state = .data → d.stored = false → ChunkGood d

/-- The rank of a state: data may be left without input. -/
def stateRank : Lzma2State → Nat
  | .data => 1
  | _ => 0

/-- The order of steps that take no input. -/
def Less (d' d : FrameState) : Prop :=
  stateRank d'.state < stateRank d.state ∨
    stateRank d'.state = stateRank d.state ∧ SymbolState.Less d'.decoder d.decoder

theorem less_wf : WellFounded Less := by
  have hlex : WellFounded (InvImage (Prod.Lex (· < ·) SymbolState.Less)
      fun d : FrameState => (stateRank d.state, d.decoder)) :=
    InvImage.wf _ (WellFounded.prod_lex Nat.lt_wfRel.wf SymbolState.less_wf)
  refine Subrelation.wf ?_ hlex
  intro d' d h
  rcases h with hrank | ⟨hsame, hless⟩
  · exact Prod.Lex.left _ _ hrank
  · show Prod.Lex _ _ (_, _) (_, _)
    rw [hsame]
    exact Prod.Lex.right _ hless

/-- What a step of a good machine comes to. -/
def StepGood (d : FrameState) (input : List Byte) : FrameNext → Prop
  | .need => input = []
  | .halt t => (t = .ok .finished ∧ d.state = .finished) ∨ (t = .ok .error ∧ d.state = .error)
  | .move d' rest _ => FrameGood d' ∧ rest <:+ input ∧ (rest.length < input.length ∨ Less d' d)

section

variable {ω : Type} [LzmaWindow ω]

/-- The high bits of the unpacked size, from the control byte. -/
def sizeBase (control : Byte) : Nat := if control < 0x80 then 0 else (control &&& 0x1F).toNat <<< 16

/-- What a control byte does. -/
structure Controlled (b : Byte) (d d' : Lzma2Decoder ω) : Prop where
  control : d'.control = b
  decoder : d'.decoder = d.decoder ∨ d'.decoder = d.decoder.resetDict
  produced : d'.chunkOutProduced = d.chunkOutProduced
  state : (b = 0 ∧ d'.state = .finished) ∨ (b ≠ 0 ∧ d'.state = .error) ∨
    (b ≠ 0 ∧ d'.state = .unpack0 ∧ d'.unpackSize = sizeBase b)

theorem onControl_controlled (b : Byte) (d : Lzma2Decoder ω) : Controlled b d (onControl b d) := by
  unfold onControl
  simp only
  by_cases hzero : b = 0
  · rw [if_pos hzero]
    exact ⟨rfl, .inl rfl, rfl, .inl ⟨hzero, rfl⟩⟩
  · rw [if_neg hzero]
    by_cases hstored : b < 0x80
    · have hbase : 0 = sizeBase b := (if_pos hstored).symm
      rw [if_pos hstored]
      by_cases hone : b = 1
      · rw [if_pos hone]
        exact ⟨rfl, .inr rfl, rfl, .inr (.inr ⟨hzero, rfl, hbase⟩)⟩
      · rw [if_neg hone]
        by_cases htwo : b = 2
        · rw [if_pos htwo]
          by_cases hinit : d.stateInitialized = true
          · rw [if_pos hinit]
            exact ⟨rfl, .inl rfl, rfl, .inr (.inr ⟨hzero, rfl, hbase⟩)⟩
          · rw [if_neg hinit]
            exact ⟨rfl, .inl rfl, rfl, .inr (.inl ⟨hzero, rfl⟩)⟩
        · rw [if_neg htwo]
          exact ⟨rfl, .inl rfl, rfl, .inr (.inl ⟨hzero, rfl⟩)⟩
    · have hbase : (b &&& 0x1F).toNat <<< 16 = sizeBase b := (if_neg hstored).symm
      rw [if_neg hstored]
      generalize (if 0xE0 ≤ b then 4 else if 0xC0 ≤ b then 3 else if 0xA0 ≤ b then 2 else 1) = level
      by_cases hreset : 4 ≤ level
      · simp only [if_pos hreset]
        split
        · exact ⟨rfl, .inr rfl, rfl, .inr (.inl ⟨hzero, rfl⟩)⟩
        · exact ⟨rfl, .inr rfl, rfl, .inr (.inr ⟨hzero, rfl, hbase⟩)⟩
      · simp only [if_neg hreset]
        split
        · exact ⟨rfl, .inl rfl, rfl, .inr (.inl ⟨hzero, rfl⟩)⟩
        · exact ⟨rfl, .inl rfl, rfl, .inr (.inr ⟨hzero, rfl, hbase⟩)⟩

end

/-- A new window fits the dictionary. -/
theorem resetDict_core {e : SymbolState} (h : Core e) (hdict : 4096 ≤ e.dictSize.toNat) :
    Core e.resetDict := by
  have hsize : (max e.dictSize kDicMin).toNat = e.dictSize.toNat := by
    have hmax : (max e.dictSize kDicMin).toNat = max e.dictSize.toNat 4096 := SlidingWindow.toNat_max _ _
    omega
  exact { h with size := hsize, pending := rfl }

theorem resetState_core {e : SymbolState} (h : Core e) : Core e.resetState := by
  have hpos := h.dictSize
  refine { h with probsLength := ?_, probs := ?_, state := Nat.zero_lt_succ 11, reps := ?_ }
  · exact List.length_replicate.trans h.probsLength
  · intro p hp
    rw [List.eq_of_mem_replicate hp]
    exact RangeDecoder.prob_init
  · exact ⟨hpos, hpos, hpos, hpos⟩

theorem resetStateAndProps_core {e : SymbolState} (h : Core e) {props : LzmaProperties}
    (hlc : props.lc ≤ 8) (hlp : props.lp ≤ 4) (hpb : props.pb ≤ 4) :
    Core (e.resetStateAndProps props) := by
  have hpos := h.dictSize
  refine ⟨List.length_replicate, ?_, hlc, hlp, hpb, Nat.zero_lt_succ 11, h.size, h.dictSize, h.pending, ?_⟩
  · intro p hp
    rw [List.eq_of_mem_replicate hp]
    exact RangeDecoder.prob_init
  · exact ⟨hpos, hpos, hpos, hpos⟩

/-- The states in which no chunk is under way. -/
theorem good_of_outside {d : FrameState} (hcore : Core d.decoder) (hdict : 4096 ≤ d.decoder.dictSize.toNat)
    (hsizing : Sizing d.state → d.stored = false ∧ 0 < d.unpackSize) (hdata : d.state ≠ .data) :
    FrameGood d :=
  ⟨hcore, hdict, hsizing, fun hstate => absurd hstate hdata, fun hstate => absurd hstate hdata⟩

theorem onControl_good {d : FrameState} (h : FrameGood d) (b : Byte) : FrameGood (onControl b d) := by
  obtain ⟨_, hdecoder, _, hstate⟩ := onControl_controlled b d
  have hcore : Core (onControl b d).decoder ∧ 4096 ≤ (onControl b d).decoder.dictSize.toNat := by
    rcases hdecoder with hdecoder | hdecoder
    · rw [hdecoder]
      exact ⟨h.core, h.dictSize⟩
    · rw [hdecoder]
      exact ⟨resetDict_core h.core h.dictSize, h.dictSize⟩
  have houtside : ¬ Sizing (onControl b d).state ∧ (onControl b d).state ≠ .data := by
    rcases hstate with ⟨_, hstate⟩ | ⟨_, hstate⟩ | ⟨_, hstate, _⟩ <;> rw [hstate] <;> simp [Sizing]
  exact good_of_outside hcore.1 hcore.2 (fun hf => absurd hf houtside.1) houtside.2

theorem onUnpack0_good {d : FrameState} (h : FrameGood d) (b : Byte) : FrameGood (onUnpack0 b d) :=
  good_of_outside h.core h.dictSize (fun hf => by rcases hf with hf | hf | hf <;> cases hf)
    (fun hf => by cases hf)

theorem onUnpack1_good {d : FrameState} (h : FrameGood d) (b : Byte) : FrameGood (onUnpack1 b d) := by
  unfold onUnpack1
  simp only
  split
  · next hstored =>
    have hstored : d.stored = true := hstored
    refine ⟨h.core, h.dictSize, fun hf => ?_, fun _ _ => Nat.succ_pos _, fun _ hf => ?_⟩
    · rcases hf with hf | hf | hf <;> cases hf
    · exact absurd hstored (by rw [show d.stored = false from hf]; exact Bool.false_ne_true)
  · next hpacked =>
    have hpacked : ¬ d.stored = true := hpacked
    refine good_of_outside h.core h.dictSize (fun _ => ⟨?_, Nat.succ_pos _⟩) (fun hf => by cases hf)
    exact Bool.eq_false_iff.mpr hpacked

theorem onPack0_good {d : FrameState} (h : FrameGood d) (hstate : d.state = .pack0) (b : Byte) :
    FrameGood (onPack0 b d) :=
  good_of_outside h.core h.dictSize (fun _ => h.sizing (.inl hstate)) (fun hf => by cases hf)

/-- A chunk of LZMA data begins. -/
theorem prepareLzmaChunk_good {d : FrameState} (hcore : Core d.decoder)
    (hdict : 4096 ≤ d.decoder.dictSize.toNat) (hpacked : d.stored = false) (hsize : 0 < d.unpackSize)
    (propsReset : Bool) : FrameGood { d.prepareLzmaChunk propsReset with state := .data } := by
  have hcore' : ∀ e : SymbolState, Core e → Core { e.setUnpackSize (some d.unpackSize) with
      decodedSize := 0, rcInitialized := false, rangeDecoder := e.rangeDecoder.resetInit
      phase := .newSymbol, lenDecodeState := none, distDecodeState := none } := fun e h => { h with }
  have hfits : ∀ e : SymbolState, Fits { e.setUnpackSize (some d.unpackSize) with
      decodedSize := 0, rcInitialized := false, rangeDecoder := e.rangeDecoder.resetInit
      phase := .newSymbol, lenDecodeState := none, distDecodeState := none } 1 := by
    intro e unpack hunpack
    obtain rfl := Option.some.inj hunpack
    show 0 + 1 ≤ d.unpackSize
    omega
  have hall : ∀ e : SymbolState, Core e → 4096 ≤ e.dictSize.toNat →
      FrameGood { d with
        state := .data
        stateInitialized := true
        decoder :=
          { e.setUnpackSize (some d.unpackSize) with
            decodedSize := 0
            rcInitialized := false
            rangeDecoder := e.rangeDecoder.resetInit
            phase := .newSymbol
            lenDecodeState := none
            distDecodeState := none }
        chunkInConsumed := 0
        chunkOutProduced := 0 } := by
    intro e hcore hdict
    refine ⟨hcore' e hcore, hdict, fun hf => ?_, fun _ hf => ?_, fun _ _ => ?_⟩
    · rcases hf with hf | hf | hf <;> cases hf
    · have hf : d.stored = true := hf
      rw [hpacked] at hf
      cases hf
    · refine ⟨⟨hcore' e hcore, ⟨⟨rfl, rfl⟩, (hfits e).mono (Nat.zero_le 1)⟩, fun _ => ⟨?_, rfl⟩⟩, rfl,
        Nat.zero_le _, rfl, fun _ => hfits e, fun hf => ?_⟩
      · exact Nat.zero_lt_succ 4
      · have hle : d.unpackSize ≤ 0 := of_decide_eq_true hf
        omega
  unfold prepareLzmaChunk
  simp only
  split
  · exact hall _ (resetState_core hcore) hdict
  · exact hall _ hcore hdict

theorem onPack1_good {d : FrameState} (h : FrameGood d) (hstate : d.state = .pack1) (b : Byte) :
    FrameGood (onPack1 b d) := by
  obtain ⟨hpacked, hsize⟩ := h.sizing (.inr (.inl hstate))
  unfold onPack1
  simp only
  split
  · exact good_of_outside h.core h.dictSize (fun _ => ⟨hpacked, hsize⟩) (fun hf => by cases hf)
  · split
    · exact prepareLzmaChunk_good (d := { d with packSize := (d.packSize ||| b.toNat) + 1 })
        h.core h.dictSize hpacked hsize false
    · exact good_of_outside h.core h.dictSize (fun hf => by rcases hf with hf | hf | hf <;> cases hf)
        (fun hf => by cases hf)

theorem onProp_good {d : FrameState} (h : FrameGood d) (hstate : d.state = .prop) (b : Byte) :
    FrameGood (onProp b d) := by
  obtain ⟨hpacked, hsize⟩ := h.sizing (.inr (.inr hstate))
  have herror : FrameGood { d with state := .error } :=
    good_of_outside h.core h.dictSize (fun hf => by rcases hf with hf | hf | hf <;> cases hf)
      (fun hf => by cases hf)
  unfold onProp
  cases hprops : LzmaProperties.fromByte b with
  | none => exact herror
  | some props =>
    obtain ⟨hlc, hlp, hpb⟩ := LzmaDecompressor.fromByte_valid hprops
    simp only
    split
    · exact herror
    · exact prepareLzmaChunk_good
        (d := { d with
          decoder := d.decoder.resetStateAndProps props
          propsSet := true
          stateInitialized := true })
        (resetStateAndProps_core h.core hlc hlp hpb) h.dictSize hpacked hsize true

theorem not_sizing_data {state : Lzma2State} (h : state = .data) : ¬ Sizing state := by
  intro hf
  rw [h] at hf
  rcases hf with hf | hf | hf <;> cases hf

theorem put_core {e : SymbolState} (h : Core e) (b : Byte) : Core { e with window := e.window.put b } :=
  { h with }

theorem putStored_good {d : FrameState} (h : FrameGood d) (hstate : d.state = .data)
    (hstored : d.stored = true) (b : Byte) : FrameGood (putStored b d) := by
  unfold putStored
  simp only
  split
  · exact good_of_outside (put_core h.core b) h.dictSize
      (fun hf => by rcases hf with hf | hf | hf <;> cases hf) (fun hf => by cases hf)
  · next hmore =>
    refine ⟨put_core h.core b, h.dictSize, fun hf => absurd hf (not_sizing_data hstate), ?_, ?_⟩
    · intro _ _
      exact Nat.lt_of_not_le hmore
    · intro _ hf
      have hf : d.stored = false := hf
      rw [hstored] at hf
      cases hf

theorem leave_core {e : SymbolState} (h : Core e) (phase : DecodePhase) : Core { e with phase } :=
  { h with }

theorem leave_good {d : FrameState} (h : FrameGood d) {state : Lzma2State}
    (hstate : state = .control ∨ state = .error) : FrameGood (d.leave state) := by
  refine good_of_outside (leave_core h.core _) h.dictSize (fun hf => ?_) (fun hf => ?_)
  · have hf : Sizing state := hf
    rcases hstate with rfl | rfl <;> rcases hf with hf | hf | hf <;> cases hf
  · have hf : state = .data := hf
    rcases hstate with rfl | rfl <;> cases hf

/-- Leaving a chunk comes nearer to the end without input. -/
theorem leave_less {d : FrameState} (hdata : d.state = .data) {state : Lzma2State}
    (hstate : state = .control ∨ state = .error) : Less (d.leave state) d := by
  left
  show stateRank state < stateRank d.state
  rw [hdata]
  rcases hstate with rfl | rfl <;> decide

theorem skipStep_good {d : FrameState} (h : FrameGood d) (hdata : d.state = .data)
    (hpacked : d.stored = false) (input : List Byte) : StepGood d input (skipStep d input) := by
  unfold skipStep
  split
  · exact ⟨leave_good h (.inl rfl), List.suffix_rfl, .inr (leave_less hdata (.inl rfl))⟩
  · next hmore =>
    cases input with
    | nil => rfl
    | cons b rest =>
      have hchunk := h.packed hdata hpacked
      refine ⟨⟨h.core, h.dictSize, h.sizing, ?_, ?_⟩, List.suffix_cons b rest, .inl (Nat.lt_succ_self _)⟩
      · exact fun hdata hstored => h.stored hdata hstored
      · exact fun _ _ => ⟨hchunk.good, hchunk.size, Nat.lt_of_not_le hmore, hchunk.counted, hchunk.fresh,
          hchunk.completed⟩

/-- Whatever the phase, no more is decoded than expected. -/
theorem good_fits {e : SymbolState} (h : Good e) : Fits e 0 := by
  have hphase := h.phase
  cases hcase : e.phase with
  | newSymbol =>
    rw [hcase] at hphase
    exact hphase.2
  | finished status =>
    rw [hcase] at hphase
    exact hphase.1
  | needIsRep posState =>
    rw [hcase] at hphase
    exact hphase.2.1.mono (Nat.zero_le 1)
  | needRepG0 posState =>
    rw [hcase] at hphase
    exact hphase.2.1.mono (Nat.zero_le 1)
  | needRep0Long posState =>
    rw [hcase] at hphase
    exact hphase.2.1.mono (Nat.zero_le 1)
  | needRepG1 posState =>
    rw [hcase] at hphase
    exact hphase.2.1.mono (Nat.zero_le 1)
  | needRepG2 posState =>
    rw [hcase] at hphase
    exact hphase.2.1.mono (Nat.zero_le 1)
  | literal ls =>
    rw [hcase] at hphase
    exact hphase.2.1.mono (Nat.zero_le 1)
  | matchLength matchType =>
    rw [hcase] at hphase
    exact hphase.2.1.mono (Nat.zero_le 1)
  | matchDistance len lenState =>
    rw [hcase] at hphase
    exact hphase.2.1.mono (Nat.zero_le 1)
  | copyMatch dist remaining =>
    rw [hcase] at hphase
    exact hphase.2.1.mono (Nat.zero_le remaining)

theorem not_reached_of_fits {e : SymbolState} (h : Fits e 1) : ¬ e.reachedUnpackSize = true := by
  intro hf
  unfold LzmaDecoder.reachedUnpackSize at hf
  cases hunpack : e.unpackSize with
  | none =>
    rw [hunpack] at hf
    cases hf
  | some unpack =>
    rw [hunpack] at hf
    have hle : unpack ≤ e.decodedSize := of_decide_eq_true hf
    have hlt := h unpack hunpack
    omega

theorem complete_of_not {e : SymbolState} (h : ¬ e.reachedUnpackSize = true) : complete e = e := if_neg h

theorem complete_of_reached {e : SymbolState} (h : e.reachedUnpackSize = true) :
    complete e = { e with phase := .finished .finishedWithoutMark } := if_pos h

/-- Completion changes the phase only. -/
theorem complete_same (e : SymbolState) : ∃ phase, complete e = { e with phase } ∧
    (e.reachedUnpackSize = true → phase = .finished .finishedWithoutMark) := by
  by_cases hreached : e.reachedUnpackSize = true
  · exact ⟨_, complete_of_reached hreached, fun _ => rfl⟩
  · exact ⟨e.phase, complete_of_not hreached, fun hf => absurd hf hreached⟩

theorem complete_good {e : SymbolState} (h : Good e) (hfresh : e.rcInitialized = false → Fits e 1) :
    Good (complete e) := by
  by_cases hreached : e.reachedUnpackSize = true
  · have hfits : Fits e 0 := good_fits h
    rw [complete_of_reached hreached]
    refine ⟨leave_core h.core _, ⟨hfits, trivial⟩, fun hf => ?_⟩
    exact absurd hreached (not_reached_of_fits (hfresh hf))
  · rw [complete_of_not hreached]
    exact h

theorem complete_less {e e' : SymbolState} (h : SymbolState.Less e e') :
    SymbolState.Less (complete e) e' := by
  by_cases hreached : e.reachedUnpackSize = true
  · rw [complete_of_reached hreached]
    rcases h with h | ⟨hsame, hrank⟩
    · exact .inl h
    · exact .inr ⟨hsame, Nat.lt_of_le_of_lt (Nat.zero_le _) hrank⟩
  · rw [complete_of_not hreached]
    exact h

/-- Before the range coder is initialized nothing is written. -/
theorem fresh_step {e e' : SymbolState} {input rest out : List Byte} (hinit : e.rcInitialized = false)
    (hstep : SymbolState.step e input = .move e' rest out) : out = [] := by
  unfold SymbolState.step at hstep
  rw [hinit] at hstep
  cases input with
  | nil => cases hstep
  | cons b input =>
    injection hstep with _ _ hout
    exact hout.symm

theorem fresh_next {e e' : SymbolState} {input rest out : List Byte} (hgood : Good e)
    (hfresh : e.rcInitialized = false → Fits e 1) (hstep : SymbolState.step e input = .move e' rest out) :
    e'.rcInitialized = false → Fits e' 1 := by
  have hstepGood := step_good hgood input
  have hkeeps := step_keeps hgood input
  rw [hstep] at hstepGood hkeeps
  have hkeeps : Keeps e e' out := hkeeps
  intro hf
  have hbefore : e.rcInitialized = false := by
    cases hcase : e.rcInitialized with
    | false => rfl
    | true =>
      rw [(hstepGood.2.2.2 hcase).1] at hf
      cases hf
  intro unpack hunpack
  rw [hkeeps.decoded, fresh_step hbefore hstep]
  exact hfresh hbefore unpack (hkeeps.unpackSize.symm.trans hunpack)

/-- A step within the chunk keeps what holds there. -/
theorem inChunk_good {d : FrameState} (h : FrameGood d) (hdata : d.state = .data)
    (hpacked : d.stored = false) {input rest out : List Byte} {e : SymbolState}
    (hshort : input.length ≤ d.packSize - d.chunkInConsumed)
    (hstep : SymbolState.step d.decoder input = .move e rest out) :
    FrameGood (d.inChunk e (d.chunkInConsumed + (input.length - rest.length))) := by
  have hchunk := h.packed hdata hpacked
  have hgood := step_good hchunk.good input
  have hkeeps := step_keeps hchunk.good input
  rw [hstep] at hgood hkeeps
  have hkeeps : Keeps d.decoder e out := hkeeps
  obtain ⟨hgood', hsuffix, _, _⟩ := hgood
  have hwithin := hchunk.within
  have hfresh := fresh_next hchunk.good hchunk.fresh hstep
  have hcomplete := complete_good hgood' hfresh
  obtain ⟨phase, hsame, hphase⟩ := complete_same e
  refine ⟨hcomplete.core, ?_, fun hf => absurd hf (not_sizing_data hdata), fun _ hf => ?_, fun _ _ => ?_⟩
  · show 4096 ≤ (complete e).dictSize.toNat
    rw [hsame]
    show 4096 ≤ e.dictSize.toNat
    rw [hkeeps.dictSize]
    exact h.dictSize
  · have hf : d.stored = true := hf
    rw [hpacked] at hf
    cases hf
  · refine ⟨hcomplete, ?_, ?_, ?_, ?_, ?_⟩
    · show (complete e).unpackSize = some d.unpackSize
      rw [hsame]
      exact hkeeps.unpackSize.trans hchunk.size
    · show d.chunkInConsumed + (input.length - rest.length) ≤ d.packSize
      omega
    · show e.decodedSize = (complete e).decodedSize
      rw [hsame]
    · show (complete e).rcInitialized = false → Fits (complete e) 1
      intro hf
      have hf' : e.rcInitialized = false := by
        rw [hsame] at hf
        exact hf
      rw [complete_of_not (not_reached_of_fits (hfresh hf'))]
      exact hfresh hf'
    · show (complete e).reachedUnpackSize = true → ∃ status, (complete e).phase = .finished status
      intro hf
      rw [hsame] at hf ⊢
      exact ⟨_, hphase hf⟩

theorem symbolStep_good {d : FrameState} (h : FrameGood d) (hdata : d.state = .data)
    (hpacked : d.stored = false) (hphase : ∀ status, d.decoder.phase ≠ .finished status)
    (input : List Byte) : StepGood d input (symbolStep d input) := by
  have hchunk := h.packed hdata hpacked
  have hgood := step_good hchunk.good (input.take (d.packSize - d.chunkInConsumed))
  have hshort : (input.take (d.packSize - d.chunkInConsumed)).length ≤ d.packSize - d.chunkInConsumed :=
    List.length_take_le _ _
  have hwhole := List.take_append_drop (d.packSize - d.chunkInConsumed) input
  unfold symbolStep
  simp only
  generalize hnext : SymbolState.step d.decoder (input.take (d.packSize - d.chunkInConsumed)) = next at hgood
  match next with
  | .need =>
    simp only
    split
    · exact ⟨leave_good h (.inr rfl), List.suffix_rfl, .inr (leave_less hdata (.inr rfl))⟩
    · next hleft =>
      have hnil : input.take (d.packSize - d.chunkInConsumed) = [] := hgood
      exact (List.take_eq_nil_iff.mp hnil).resolve_left hleft
  | .halt t =>
    obtain ⟨status, _, hf⟩ := hgood
    exact absurd hf (hphase status)
  | .move e rest out =>
    refine ⟨inChunk_good h hdata hpacked hshort hnext, ?_, ?_⟩
    · obtain ⟨taken, htaken⟩ := hgood.2.1
      refine ⟨taken, ?_⟩
      rw [← List.append_assoc, htaken, hwhole]
    · rcases hgood.2.2.1 with hless | hless
      · left
        have hlen := congrArg List.length hwhole
        rw [List.length_append] at hlen ⊢
        omega
      · exact .inr (.inr ⟨rfl, complete_less hless⟩)

theorem packedStep_good {d : FrameState} (h : FrameGood d) (hdata : d.state = .data)
    (hpacked : d.stored = false) (input : List Byte) : StepGood d input (packedStep d input) := by
  unfold packedStep
  split
  · exact skipStep_good h hdata hpacked input
  · next hphase => exact symbolStep_good h hdata hpacked (fun status hf => hphase status hf) input

theorem byteStep_good {d : FrameState} {f : Byte → FrameState → FrameState}
    (hf : ∀ b, FrameGood (f b d)) (input : List Byte) : StepGood d input (byteStep d f input) := by
  cases input with
  | nil => rfl
  | cons b rest => exact ⟨hf b, List.suffix_cons b rest, .inl (Nat.lt_succ_self _)⟩

theorem storedStep_good {d : FrameState} (h : FrameGood d) (hdata : d.state = .data)
    (hstored : d.stored = true) (input : List Byte) : StepGood d input (storedStep d input) := by
  cases input with
  | nil => rfl
  | cons b rest =>
    exact ⟨putStored_good h hdata hstored b, List.suffix_cons b rest, .inl (Nat.lt_succ_self _)⟩

theorem frameStep_good {d : FrameState} (h : FrameGood d) (input : List Byte) : StepGood d input (step d input) := by
  unfold step
  cases hstate : d.state with
  | finished => exact .inl ⟨rfl, hstate⟩
  | error => exact .inr ⟨rfl, hstate⟩
  | control => exact byteStep_good (onControl_good h) input
  | unpack0 => exact byteStep_good (onUnpack0_good h) input
  | unpack1 => exact byteStep_good (onUnpack1_good h) input
  | pack0 => exact byteStep_good (onPack0_good h hstate) input
  | pack1 => exact byteStep_good (onPack1_good h hstate) input
  | prop => exact byteStep_good (onProp_good h hstate) input
  | data =>
    simp only
    split
    · next hstored => exact storedStep_good h hstate hstored input
    · next hpacked => exact packedStep_good h hstate (Bool.eq_false_iff.mpr hpacked) input

/-- A step whose decision does not change when more input follows. -/
def Extends (f : List Byte → FrameNext) : Prop :=
  ∀ input more, f input ≠ .need → f (input ++ more) = (f input).append more

theorem byteStep_extends (d : FrameState) (f : Byte → FrameState → FrameState) :
    Extends (byteStep d f) := by
  intro input more hgoes
  cases input with
  | nil => exact absurd rfl hgoes
  | cons b rest => rfl

theorem storedStep_extends (d : FrameState) : Extends (storedStep d) := by
  intro input more hgoes
  cases input with
  | nil => exact absurd rfl hgoes
  | cons b rest => rfl

theorem skipStep_extends (d : FrameState) : Extends (skipStep d) := by
  intro input more hgoes
  unfold skipStep at hgoes ⊢
  split
  · rfl
  · next hmore =>
    rw [if_neg hmore] at hgoes
    cases input with
    | nil => exact absurd rfl hgoes
    | cons b rest => rfl

theorem symbolStep_extends (d : FrameState) : Extends (symbolStep d) := by
  intro input more hgoes
  unfold symbolStep at hgoes ⊢
  simp only at hgoes ⊢
  have hsplit : (input ++ more).take (d.packSize - d.chunkInConsumed) =
      input.take (d.packSize - d.chunkInConsumed) ++
        more.take (d.packSize - d.chunkInConsumed - input.length) := List.take_append
  have hdrop : (input ++ more).drop (d.packSize - d.chunkInConsumed) =
      input.drop (d.packSize - d.chunkInConsumed) ++
        more.drop (d.packSize - d.chunkInConsumed - input.length) := List.drop_append
  have hextends := step_extends d.decoder (input.take (d.packSize - d.chunkInConsumed))
    (more.take (d.packSize - d.chunkInConsumed - input.length))
  rw [hsplit, hdrop]
  generalize hnext : SymbolState.step d.decoder (input.take (d.packSize - d.chunkInConsumed)) = next
    at hgoes hextends
  match next with
  | .need =>
    simp only at hgoes
    split at hgoes
    · next hleft =>
      rw [hleft] at hnext ⊢
      rw [Nat.zero_sub, List.take_zero, List.take_zero, List.append_nil]
      rw [List.take_zero] at hnext
      rw [hnext]
      rfl
    · exact absurd rfl hgoes
  | .halt t =>
    rw [hextends (by simp)]
    cases t with
    | error f => rfl
    | ok status => rfl
  | .move e rest out =>
    rw [hextends (by simp)]
    have hcount : (input.take (d.packSize - d.chunkInConsumed) ++
        more.take (d.packSize - d.chunkInConsumed - input.length)).length -
          (rest ++ more.take (d.packSize - d.chunkInConsumed - input.length)).length =
        (input.take (d.packSize - d.chunkInConsumed)).length - rest.length := by
      rw [List.length_append, List.length_append, Nat.add_sub_add_right]
    have hrest : rest ++ more.take (d.packSize - d.chunkInConsumed - input.length) ++
        (input.drop (d.packSize - d.chunkInConsumed) ++
          more.drop (d.packSize - d.chunkInConsumed - input.length)) =
        rest ++ input.drop (d.packSize - d.chunkInConsumed) ++ more := by
      by_cases hlong : d.packSize - d.chunkInConsumed ≤ input.length
      · rw [Nat.sub_eq_zero_of_le hlong, List.take_zero, List.drop_zero, List.append_nil,
          ← List.append_assoc]
      · have hnil : input.drop (d.packSize - d.chunkInConsumed) = [] :=
          List.drop_eq_nil_of_le (by omega)
        rw [hnil, List.nil_append, List.append_assoc, List.take_append_drop, List.append_nil]
    simp only [Next.append, hcount, hrest]

theorem packedStep_extends (d : FrameState) : Extends (packedStep d) := by
  intro input more hgoes
  unfold packedStep at hgoes ⊢
  split
  · next status hphase =>
    rw [hphase] at hgoes
    exact skipStep_extends d input more hgoes
  · next hphase =>
    split at hgoes
    · next status hf => exact absurd hf (hphase status)
    · exact symbolStep_extends d input more hgoes

theorem frameStep_extends (d : FrameState) : Extends (step d) := by
  unfold step
  cases d.state with
  | finished => exact fun _ _ _ => rfl
  | error => exact fun _ _ _ => rfl
  | control => exact byteStep_extends d _
  | unpack0 => exact byteStep_extends d _
  | unpack1 => exact byteStep_extends d _
  | pack0 => exact byteStep_extends d _
  | pack1 => exact byteStep_extends d _
  | prop => exact byteStep_extends d _
  | data =>
    by_cases hstored : d.stored = true
    · simp only [if_pos hstored]
      exact storedStep_extends d
    · simp only [if_neg hstored]
      exact packedStep_extends d

end FrameState

open FrameState

/-- LZMA2 decoding one byte or one symbol step at a time. -/
def frameMachine : Machine FrameState (Except Fault Lzma2DecodeStatus) Byte Byte where
  step := FrameState.step
  Good := FrameGood
  Less := FrameState.Less
  wf := FrameState.less_wf
  append := fun d => FrameState.frameStep_extends d
  suffix := by
    intro d input d' rest out hgood hstep
    have hstepGood := frameStep_good hgood input
    rw [hstep] at hstepGood
    exact hstepGood.2.1
  good := by
    intro d input d' rest out hgood hstep
    have hstepGood := frameStep_good hgood input
    rw [hstep] at hstepGood
    exact hstepGood.1
  descends := by
    intro d input d' rest out hgood hstep
    have hstepGood := frameStep_good hgood input
    rw [hstep] at hstepGood
    exact hstepGood.2.2

end Iluvatar

