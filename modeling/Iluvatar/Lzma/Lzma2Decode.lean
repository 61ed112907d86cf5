/-
A decode call of the chunk decoder does some of the frame machine's steps.

The normal form of a state takes its pending output, counts what is decoded instead of what
the counter has seen, and completes a chunk that is all decoded.
-/
import Iluvatar.Lzma.Lzma2Machine

namespace Iluvatar

open Sansio

namespace LzmaDecoder

open SymbolState

/-- A call on a good decoder does not fail, and goes along the symbol machine. -/
theorem decode_windowed {d : LzmaDecoder SlidingWindow} (hwf : d.window.Wf)
    (hgood : Good (settled d.view)) (input : List Byte) (room : Nat) :
    ∃ r d', d.decode input room = .ok (r, d') ∧ d'.window.Wf ∧ Decoded d.view input room r d'.view := by
  obtain ⟨r, v, hdecode, hdecoded⟩ := decode_spec hgood input room
  obtain ⟨⟨r', d'⟩, hdecode', rfl, hwf', rfl⟩ := decode_shows ⟨hwf, rfl⟩ input room _ hdecode
  exact ⟨r', d', hdecode', hwf', hdecoded⟩

end LzmaDecoder

namespace Lzma2Decoder

open SymbolState FrameState LzmaDecoder

/-- The normal form of a state. -/
def framed (d : Lzma2Decoder SlidingWindow) : FrameState :=
  { state := d.state
    control := d.control
    unpackSize := d.unpackSize
    packSize := d.packSize
    decoder :=
      if d.state = .data ∧ d.stored = false then complete (settled d.decoder.view)
      else { settled d.decoder.view with phase := .newSymbol }
    dictSize := d.dictSize
    stateInitialized := d.stateInitialized
    propsSet := d.propsSet
    chunkInConsumed := d.chunkInConsumed
    chunkOutProduced :=
      if d.state = .data then if d.stored then d.chunkOutProduced else d.decoder.decodedSize else 0 }

variable {d : Lzma2Decoder SlidingWindow}

theorem framed_outside (h : d.state ≠ .data) : framed d =
    { state := d.state, control := d.control, unpackSize := d.unpackSize, packSize := d.packSize
      decoder := { settled d.decoder.view with phase := .newSymbol }
      dictSize := d.dictSize, stateInitialized := d.stateInitialized, propsSet := d.propsSet
      chunkInConsumed := d.chunkInConsumed, chunkOutProduced := 0 } := by
  unfold framed
  rw [if_neg fun hf => h hf.1, if_neg h]

theorem framed_stored (h : d.state = .data) (hstored : d.stored = true) : framed d =
    { state := .data, control := d.control, unpackSize := d.unpackSize, packSize := d.packSize
      decoder := { settled d.decoder.view with phase := .newSymbol }
      dictSize := d.dictSize, stateInitialized := d.stateInitialized, propsSet := d.propsSet
      chunkInConsumed := d.chunkInConsumed, chunkOutProduced := d.chunkOutProduced } := by
  have hnot : ¬ (d.state = .data ∧ d.stored = false) := by
    intro hf
    rw [hstored] at hf
    exact Bool.noConfusion hf.2
  unfold framed
  rw [if_neg hnot, if_pos h, if_pos hstored, h]

theorem framed_packed (h : d.state = .data) (hpacked : d.stored = false) : framed d =
    { state := .data, control := d.control, unpackSize := d.unpackSize, packSize := d.packSize
      decoder := complete (settled d.decoder.view)
      dictSize := d.dictSize, stateInitialized := d.stateInitialized, propsSet := d.propsSet
      chunkInConsumed := d.chunkInConsumed, chunkOutProduced := d.decoder.decodedSize } := by
  have hnot : ¬ d.stored = true := by
    rw [hpacked]
    exact Bool.false_ne_true
  unfold framed
  rw [if_pos ⟨h, hpacked⟩, if_pos h, if_neg hnot, h]

/-- What holds inside a chunk of LZMA data, where the counter may not have seen bytes that were
pending when a call began. -/
structure ChunkSound (d : Lzma2Decoder SlidingWindow) : Prop where
  good : Good (settled d.decoder.view)
  fresh : d.decoder.rcInitialized = false → Fits (settled d.decoder.view) 1
  counted : d.chunkOutProduced + d.decoder.window.pendingOut.length ≤ d.decoder.decodedSize

structure Sound (d : Lzma2Decoder SlidingWindow) : Prop where
  wf : d.decoder.window.Wf
  good : FrameGood (framed d)
  idle : d.state ≠ .data ∨ d.stored = true → d.decoder.window.pendingOut = []
  packed : d.state = .data → d.stored = false → ChunkSound d

/-- Outside of a chunk the normal form is that of what the byte does. -/
structure Framing (f : {ω : Type} → [LzmaWindow ω] → Byte → Lzma2Decoder ω → Lzma2Decoder ω)
    (d : Lzma2Decoder SlidingWindow) (b : Byte) : Prop where
  wf : (f b d).decoder.window.Wf
  framed : framed (f b d) = f b (framed d)
  pending : (f b d).decoder.window.pendingOut = []
  packed : (f b d).state = .data → (f b d).stored = false →
    ¬ (settled (f b d).decoder.view).reachedUnpackSize = true ∧ (f b d).chunkOutProduced = 0

theorem onControl_framing (hwf : d.decoder.window.Wf) (hpending : d.decoder.window.pendingOut = [])
    (hstate : d.state = .control) (b : Byte) : Framing onControl d b := by
  have hnew : (SlidingWindow.new d.decoder.dictSize).Wf := SlidingWindow.new_wf _
  have houtside : d.state ≠ .data := by
    rw [hstate]
    simp
  obtain ⟨_, hdecoder, _, hstate'⟩ := onControl_controlled b d
  have hoff : (onControl b d).state ≠ .data := by
    rcases hstate' with ⟨_, hf⟩ | ⟨_, hf⟩ | ⟨_, hf, _⟩ <;> rw [hf] <;> simp
  refine ⟨?_, ?_, ?_, fun hf => absurd hf hoff⟩
  · rcases hdecoder with hdecoder | hdecoder <;> rw [hdecoder]
    · exact hwf
    · exact hnew
  · rw [framed_outside hoff, framed_outside houtside]
    unfold onControl
    simp only
    by_cases hzero : b = 0
    · simp only [if_pos hzero]
    · simp only [if_neg hzero]
      by_cases hstored : b < 0x80
      · simp only [if_pos hstored]
        by_cases hone : b = 1
        · simp only [if_pos hone]
          rfl
        · simp only [if_neg hone]
          by_cases htwo : b = 2
          · simp only [if_pos htwo]
            by_cases hinit : d.stateInitialized = true
            · simp only [if_pos hinit]
            · simp only [if_neg hinit]
          · simp only [if_neg htwo]
      · simp only [if_neg hstored]
        generalize (if 0xE0 ≤ b then 4 else if 0xC0 ≤ b then 3 else if 0xA0 ≤ b then 2 else 1) = level
        by_cases hreset : 4 ≤ level
        · simp only [if_pos hreset]
          split <;> rfl
        · simp only [if_neg hreset]
          split <;> rfl
  · rcases hdecoder with hdecoder | hdecoder <;> rw [hdecoder]
    · exact hpending
    · rfl

theorem onUnpack0_framing (hwf : d.decoder.window.Wf) (hpending : d.decoder.window.pendingOut = [])
    (hstate : d.state = .unpack0) (b : Byte) : Framing onUnpack0 d b := by
  have houtside : d.state ≠ .data := by
    rw [hstate]
    simp
  have hoff : (onUnpack0 b d).state ≠ .data := fun hf => by cases hf
  refine ⟨hwf, ?_, hpending, fun hf => absurd hf hoff⟩
  rw [framed_outside hoff, framed_outside houtside]
  rfl

theorem onUnpack1_framing (hwf : d.decoder.window.Wf) (hpending : d.decoder.window.pendingOut = [])
    (hstate : d.state = .unpack1) (b : Byte) : Framing onUnpack1 d b := by
  have houtside : d.state ≠ .data := by
    rw [hstate]
    simp
  by_cases hstored : d.stored = true
  · have hall : onUnpack1 b d = { d with
        unpackSize := (d.unpackSize ||| b.toNat) + 1, chunkOutProduced := 0, state := .data } := if_pos hstored
    have hall' : onUnpack1 b (framed d) = { framed d with
        unpackSize := (d.unpackSize ||| b.toNat) + 1, chunkOutProduced := 0, state := .data } := if_pos hstored
    refine ⟨?_, ?_, ?_, fun _ hf => ?_⟩
    · rw [hall]
      exact hwf
    · rw [hall', hall, framed_stored (d := { d with
        unpackSize := (d.unpackSize ||| b.toNat) + 1, chunkOutProduced := 0, state := .data }) rfl hstored,
        framed_outside houtside]
    · rw [hall]
      exact hpending
    · rw [hall] at hf
      have hf : d.stored = false := hf
      rw [hstored] at hf
      cases hf
  · have hall : onUnpack1 b d = { d with
        unpackSize := (d.unpackSize ||| b.toNat) + 1, state := .pack0 } := if_neg hstored
    have hall' : onUnpack1 b (framed d) = { framed d with
        unpackSize := (d.unpackSize ||| b.toNat) + 1, state := .pack0 } := if_neg hstored
    refine ⟨?_, ?_, ?_, fun hf => ?_⟩
    · rw [hall]
      exact hwf
    · rw [hall', hall, framed_outside (d := { d with
        unpackSize := (d.unpackSize ||| b.toNat) + 1, state := .pack0 }) (fun hf => by cases hf),
        framed_outside houtside]
    · rw [hall]
      exact hpending
    · rw [hall] at hf
      cases hf

theorem onPack0_framing (hwf : d.decoder.window.Wf) (hpending : d.decoder.window.pendingOut = [])
    (hstate : d.state = .pack0) (b : Byte) : Framing onPack0 d b := by
  have houtside : d.state ≠ .data := by
    rw [hstate]
    simp
  have hoff : (onPack0 b d).state ≠ .data := fun hf => by cases hf
  refine ⟨hwf, ?_, hpending, fun hf => absurd hf hoff⟩
  rw [framed_outside hoff, framed_outside houtside]
  rfl

/-- The decoder of a chunk of LZMA data that begins. -/
theorem prepareLzmaChunk_framing (houtside : d.state ≠ .data) (hpacked : d.stored = false)
    (hsize : 0 < d.unpackSize) (propsReset : Bool) :
    framed { d.prepareLzmaChunk propsReset with state := .data } =
        { (framed d).prepareLzmaChunk propsReset with state := .data } ∧
      (d.prepareLzmaChunk propsReset).decoder.window = d.decoder.window ∧
      (d.prepareLzmaChunk propsReset).stored = false ∧
      ¬ (settled (d.prepareLzmaChunk propsReset).decoder.view).reachedUnpackSize = true ∧
      (d.prepareLzmaChunk propsReset).chunkOutProduced = 0 := by
  have hfresh : ∀ e : LzmaDecoder SlidingWindow,
      ¬ (settled (view { e.setUnpackSize (some d.unpackSize) with
        decodedSize := 0, rcInitialized := false, rangeDecoder := e.rangeDecoder.resetInit
        phase := .newSymbol, lenDecodeState := none, distDecodeState := none })).reachedUnpackSize = true := by
    intro e hf
    have hle : d.unpackSize ≤ 0 := of_decide_eq_true hf
    omega
  by_cases hreset : (decide (0xA0 ≤ d.control) = true) ∧ ¬ propsReset = true
  · have hall : d.prepareLzmaChunk propsReset = { d with
        stateInitialized := true
        decoder := { d.decoder.resetState.setUnpackSize (some d.unpackSize) with
          decodedSize := 0, rcInitialized := false, rangeDecoder := d.decoder.resetState.rangeDecoder.resetInit
          phase := .newSymbol, lenDecodeState := none, distDecodeState := none }
        chunkInConsumed := 0
        chunkOutProduced := 0 } := by
      unfold prepareLzmaChunk
      simp only [if_pos hreset]
    have hall' : (framed d).prepareLzmaChunk propsReset = { framed d with
        stateInitialized := true
        decoder := { (framed d).decoder.resetState.setUnpackSize (some d.unpackSize) with
          decodedSize := 0, rcInitialized := false
          rangeDecoder := (framed d).decoder.resetState.rangeDecoder.resetInit
          phase := .newSymbol, lenDecodeState := none, distDecodeState := none }
        chunkInConsumed := 0
        chunkOutProduced := 0 } := by
      unfold prepareLzmaChunk
      simp only [if_pos (show (decide (0xA0 ≤ (framed d).control) = true) ∧ ¬ propsReset = true from hreset)]
      rfl
    rw [hall, hall', framed_packed, complete_of_not (hfresh _), framed_outside houtside]
    · exact ⟨rfl, rfl, hpacked, hfresh _, rfl⟩
    · rfl
    · exact hpacked
  · have hall : d.prepareLzmaChunk propsReset = { d with
        stateInitialized := true
        decoder := { d.decoder.setUnpackSize (some d.unpackSize) with
          decodedSize := 0, rcInitialized := false, rangeDecoder := d.decoder.rangeDecoder.resetInit
          phase := .newSymbol, lenDecodeState := none, distDecodeState := none }
        chunkInConsumed := 0
        chunkOutProduced := 0 } := by
      unfold prepareLzmaChunk
      simp only [if_neg hreset]
    have hall' : (framed d).prepareLzmaChunk propsReset = { framed d with
        stateInitialized := true
        decoder := { (framed d).decoder.setUnpackSize (some d.unpackSize) with
          decodedSize := 0, rcInitialized := false
          rangeDecoder := (framed d).decoder.rangeDecoder.resetInit
          phase := .newSymbol, lenDecodeState := none, distDecodeState := none }
        chunkInConsumed := 0
        chunkOutProduced := 0 } := by
      unfold prepareLzmaChunk
      simp only [if_neg (show ¬ ((decide (0xA0 ≤ (framed d).control) = true) ∧ ¬ propsReset = true) from hreset)]
      rfl
    rw [hall, hall', framed_packed, complete_of_not (hfresh _), framed_outside houtside]
    · exact ⟨rfl, rfl, hpacked, hfresh _, rfl⟩
    · rfl
    · exact hpacked

/-- A chunk of LZMA data begins, with its decoder as `d` has it. -/
theorem prepared_framing {e : Lzma2Decoder SlidingWindow} (hwf : e.decoder.window.Wf)
    (hpending : e.decoder.window.pendingOut = []) (houtside : e.state ≠ .data)
    (hpacked : e.stored = false) (hsize : 0 < e.unpackSize) (propsReset : Bool)
    (f : {ω : Type} → [LzmaWindow ω] → Byte → Lzma2Decoder ω → Lzma2Decoder ω) {b : Byte}
    (hcode : f b d = { e.prepareLzmaChunk propsReset with state := .data })
    (hframe : f b (framed d) = { (framed e).prepareLzmaChunk propsReset with state := .data }) :
    Framing f d b := by
  obtain ⟨hframed, hwindow, _, hfresh, hproduced⟩ :=
    prepareLzmaChunk_framing houtside hpacked hsize propsReset
  refine ⟨?_, ?_, ?_, fun _ _ => ?_⟩
  · rw [hcode]
    show (e.prepareLzmaChunk propsReset).decoder.window.Wf
    rw [hwindow]
    exact hwf
  · rw [hcode, hframe, hframed]
  · rw [hcode]
    show (e.prepareLzmaChunk propsReset).decoder.window.pendingOut = []
    rw [hwindow]
    exact hpending
  · rw [hcode]
    exact ⟨hfresh, hproduced⟩

/-- The byte leads to a state outside of a chunk, the decoder staying as it is. -/
theorem outside_framing {e : Lzma2Decoder SlidingWindow} (hwf : e.decoder.window.Wf)
    (hpending : e.decoder.window.pendingOut = []) (houtside : e.state ≠ .data)
    (f : {ω : Type} → [LzmaWindow ω] → Byte → Lzma2Decoder ω → Lzma2Decoder ω) {b : Byte}
    (hcode : f b d = e) (hframe : f b (framed d) = framed e) : Framing f d b := by
  refine ⟨?_, ?_, ?_, fun hf => ?_⟩
  · rw [hcode]
    exact hwf
  · rw [hcode, hframe]
  · rw [hcode]
    exact hpending
  · rw [hcode] at hf
    exact absurd hf houtside

theorem onPack1_framing (hwf : d.decoder.window.Wf) (hpending : d.decoder.window.pendingOut = [])
    (hstate : d.state = .pack1) (hpacked : d.stored = false) (hsize : 0 < d.unpackSize) (b : Byte) :
    Framing onPack1 d b := by
  have houtside : d.state ≠ .data := by
    rw [hstate]
    simp
  have hsized : framed { d with packSize := (d.packSize ||| b.toNat) + 1 } =
      { framed d with packSize := (d.packSize ||| b.toNat) + 1 } := by
    rw [framed_outside houtside,
      framed_outside (d := { d with packSize := (d.packSize ||| b.toNat) + 1 }) houtside]
  by_cases hprop : d.control &&& 0x40 ≠ 0
  · refine outside_framing (e := { d with packSize := (d.packSize ||| b.toNat) + 1, state := .prop })
      hwf hpending (fun hf => by cases hf) onPack1 (if_pos hprop) ?_
    have hframe : onPack1 b (framed d) =
        { framed d with packSize := (d.packSize ||| b.toNat) + 1, state := .prop } := if_pos hprop
    rw [hframe, framed_outside houtside, framed_outside (fun hf => by cases hf)]
  · by_cases hset : d.propsSet = true
    · refine prepared_framing (e := { d with packSize := (d.packSize ||| b.toNat) + 1 }) hwf hpending
        houtside hpacked hsize false onPack1 ?_ ?_
      · unfold onPack1
        simp only [if_neg hprop, if_pos hset]
      · have hprop' : ¬ (framed d).control &&& 0x40 ≠ 0 := hprop
        have hset' : (framed d).propsSet = true := hset
        unfold onPack1
        simp only [if_neg hprop', if_pos hset']
        rw [hsized]
        rfl
    · refine outside_framing (e := { d with packSize := (d.packSize ||| b.toNat) + 1, state := .error })
        hwf hpending (fun hf => by cases hf) onPack1 ?_ ?_
      · unfold onPack1
        simp only [if_neg hprop, if_neg hset]
      · have hprop' : ¬ (framed d).control &&& 0x40 ≠ 0 := hprop
        have hset' : ¬ (framed d).propsSet = true := hset
        unfold onPack1
        simp only [if_neg hprop', if_neg hset']
        rw [framed_outside houtside, framed_outside (fun hf => by cases hf)]

theorem onProp_framing (hwf : d.decoder.window.Wf) (hpending : d.decoder.window.pendingOut = [])
    (hstate : d.state = .prop) (hpacked : d.stored = false) (hsize : 0 < d.unpackSize) (b : Byte) :
    Framing onProp d b := by
  have houtside : d.state ≠ .data := by
    rw [hstate]
    simp
  have herror : ∀ {e : FrameState}, e = { framed d with state := .error } →
      e = framed { d with state := .error } := by
    intro e he
    rw [he, framed_outside houtside, framed_outside (fun hf => by cases hf)]
  cases hprops : LzmaProperties.fromByte b with
  | none =>
    refine outside_framing (e := { d with state := .error }) hwf hpending (fun hf => by cases hf) onProp
      ?_ (herror ?_)
    · unfold onProp
      rw [hprops]
    · unfold onProp
      rw [hprops]
  | some props =>
    by_cases hlarge : 4 < props.lc + props.lp
    · refine outside_framing (e := { d with state := .error }) hwf hpending (fun hf => by cases hf) onProp
        ?_ (herror ?_)
      · unfold onProp
        rw [hprops]
        exact if_pos hlarge
      · unfold onProp
        rw [hprops]
        exact if_pos hlarge
    · refine prepared_framing (e := { d with
          decoder := d.decoder.resetStateAndProps props, propsSet := true, stateInitialized := true })
        hwf hpending houtside hpacked hsize true onProp ?_ ?_
      · unfold onProp
        rw [hprops]
        exact if_neg hlarge
      · unfold onProp
        rw [hprops]
        simp only [if_neg hlarge]
        rw [framed_outside houtside, framed_outside (d := { d with
          decoder := d.decoder.resetStateAndProps props, propsSet := true, stateInitialized := true })
          houtside]
        rfl

end Lzma2Decoder
end Iluvatar
