/-
The rounds of a chunk decoder's call, and the call.

The cursor of a call runs along the frame machine: what it has written, and what the window
still owes, is what the machine has written.  Each round keeps that and makes the weight of
the cursor less, so the loop stops within its fuel.
-/
import Iluvatar.Lzma.Lzma2Decode

namespace Iluvatar

open Sansio

namespace Lzma2Cursor

open SymbolState FrameState Lzma2Decoder

/-- The cursor of a call has come along the machine's run from `start`. -/
structure Along (start : FrameState) (input owed : List Byte) (room : Nat)
    (c : Lzma2Cursor SlidingWindow) : Prop where
  sound : Sound c.decoder
  sameRoom : c.room = room
  fits : c.out.length ≤ room
  run : ∃ out, frameMachine.Runs start input out (framed c.decoder) c.input ∧
    owed ++ out = c.out ++ c.decoder.decoder.window.pendingOut

/-- Where a call may return, and with what status. -/
inductive Stopped (room : Nat) (c : Lzma2Cursor SlidingWindow) : Lzma2DecodeStatus → Prop where
  | ended : c.decoder.state = .finished → Stopped room c .finished
  | failed : c.decoder.state = .error → Stopped room c .error
  | needInput : c.input = [] → c.decoder.decoder.window.pendingOut = [] →
      frameMachine.step (framed c.decoder) [] = .need → Stopped room c .needInput
  | full : c.out.length = room → Stopped room c .continue

/-- A round makes this less. -/
def weight (c : Lzma2Cursor SlidingWindow) : Nat :=
  2 * (c.input.length + (c.room - c.out.length)) + stateRank c.decoder.state

/-- What a round of the decode loop comes to. -/
inductive Rounded (start : FrameState) (input owed : List Byte) (room : Nat)
    (c : Lzma2Cursor SlidingWindow) :
    Except Fault (Option Lzma2DecodeStatus × Lzma2Cursor SlidingWindow) → Prop where
  | goes {c' : Lzma2Cursor SlidingWindow} : Along start input owed room c' → weight c' < weight c →
      Rounded start input owed room c (.ok (none, c'))
  | stops {c' : Lzma2Cursor SlidingWindow} {status : Lzma2DecodeStatus} :
      Along start input owed room c' → Stopped room c' status →
      Rounded start input owed room c (.ok (some status, c'))

variable {start : FrameState} {input owed : List Byte} {room : Nat} {c : Lzma2Cursor SlidingWindow}

/-- The machine's next steps bring the cursor on. -/
theorem Along.advance {e : Lzma2Cursor SlidingWindow} (h : Along start input owed room c)
    (out : List Byte)
    (hrun : frameMachine.Runs (framed c.decoder) c.input out (framed e.decoder) e.input)
    (hsound : Sound e.decoder) (hroom : e.room = c.room) (hfits : e.out.length ≤ room)
    (hout : c.out ++ c.decoder.decoder.window.pendingOut ++ out =
      e.out ++ e.decoder.decoder.window.pendingOut) :
    Along start input owed room e := by
  obtain ⟨out₀, hrun₀, hout₀⟩ := h.run
  refine ⟨hsound, hroom.trans h.sameRoom, hfits, out₀ ++ out, hrun₀.trans hrun, ?_⟩
  rw [← List.append_assoc, hout₀, hout]

theorem stateRank_le (state : Lzma2State) : stateRank state ≤ 1 := by
  cases state <;> decide

/-- A byte of the framing. -/
theorem onByte_rounded (h : Along start input owed room c) (houtside : c.decoder.state ≠ .data)
    (f : {ω : Type} → [LzmaWindow ω] → Byte → Lzma2Decoder ω → Lzma2Decoder ω)
    (hstep : ∀ input, frameMachine.step (framed c.decoder) input = byteStep (framed c.decoder) f input)
    (hframing : ∀ b, Framing f c.decoder b) : Rounded start input owed room c (c.onByte f) := by
  have hpending := h.sound.idle (.inl houtside)
  unfold onByte
  cases hinput : c.input with
  | nil => exact .stops h (.needInput hinput hpending (hstep []))
  | cons b rest =>
    have hf := hframing b
    have hmove : frameMachine.step (framed c.decoder) (b :: rest) =
        .move (framed (f b c.decoder)) rest [] := by
      rw [hstep, hf.framed]
      rfl
    have hrun := Machine.Runs.single hmove
    have hgood : FrameGood (framed (f b c.decoder)) := hrun.good h.sound.good
    have hsound : Sound (f b c.decoder) := by
      refine ⟨hf.wf, hgood, fun _ => hf.pending, fun hdata hpacked => ?_⟩
      obtain ⟨hfresh, hproduced⟩ := hf.packed hdata hpacked
      have hchunk := hgood.packed hdata hpacked
      rw [framed_packed hdata hpacked] at hchunk
      have hsame := complete_of_not hfresh
      refine ⟨?_, ?_, ?_⟩
      · have hgood := hchunk.good
        simp only [hsame] at hgood
        exact hgood
      · have hfresh := hchunk.fresh
        simp only [hsame] at hfresh
        exact hfresh
      · rw [hproduced, hf.pending]
        exact Nat.zero_le _
    refine .goes (h.advance [] ?_ hsound rfl h.fits ?_) ?_
    · rw [hinput]
      exact hrun
    · show c.out ++ c.decoder.decoder.window.pendingOut ++ [] = c.out ++ (f b c.decoder).decoder.window.pendingOut
      rw [hpending, hf.pending, List.append_nil]
    · have hrank := stateRank_le (f b c.decoder).state
      show 2 * (rest.length + (c.room - c.out.length)) + stateRank (f b c.decoder).state <
        2 * (c.input.length + (c.room - c.out.length)) + stateRank c.decoder.state
      rw [hinput, List.length_cons]
      omega

/-- A chunk of bytes as they are, with some of them copied. -/
def copied (src : List Byte) (m : FrameState) : FrameState :=
  let m := { m with
    decoder := { m.decoder with window := src.foldl History.put m.decoder.window }
    chunkOutProduced := m.chunkOutProduced + src.length }
  if m.unpackSize ≤ m.chunkOutProduced then
    { m with state := .control, stateInitialized := true, chunkOutProduced := 0 }
  else m

theorem stored_runs (rest : List Byte) (b : Byte) (src : List Byte) : ∀ {m : FrameState},
    m.state = .data → m.stored = true → m.chunkOutProduced + (b :: src).length ≤ m.unpackSize →
    frameMachine.Runs m ((b :: src) ++ rest) (b :: src) (copied (b :: src) m) rest := by
  induction src generalizing b with
  | nil =>
    intro m hdata hstored hfits
    have hstep : frameMachine.step m (b :: rest) = .move (putStored b m) rest [b] := by
      show FrameState.step m (b :: rest) = _
      unfold FrameState.step
      rw [hdata]
      exact if_pos hstored
    exact .single hstep
  | cons b' src ih =>
    intro m hdata hstored hfits
    have hstep : frameMachine.step m (b :: (b' :: src ++ rest)) =
        .move (putStored b m) (b' :: src ++ rest) [b] := by
      show FrameState.step m (b :: (b' :: src ++ rest)) = _
      unfold FrameState.step
      rw [hdata]
      exact if_pos hstored
    rw [List.length_cons, List.length_cons] at hfits
    have hmore : putStored b m = { m with
        decoder := { m.decoder with window := m.decoder.window.put b }
        chunkOutProduced := m.chunkOutProduced + 1 } := by
      unfold putStored
      simp only
      exact if_neg (by omega)
    have hrest : frameMachine.Runs (putStored b m) (b' :: src ++ rest) (b' :: src)
        (copied (b' :: src) (putStored b m)) rest := by
      refine ih b' ?_ ?_ ?_
      · rw [hmore]
        exact hdata
      · rw [hmore]
        exact hstored
      · rw [hmore, List.length_cons]
        show m.chunkOutProduced + 1 + (src.length + 1) ≤ m.unpackSize
        omega
    have hcopied : copied (b' :: src) (putStored b m) = copied (b :: b' :: src) m := by
      have hcount : m.chunkOutProduced + 1 + (src.length + 1) =
          m.chunkOutProduced + (src.length + 1 + 1) := by omega
      rw [hmore]
      unfold copied
      simp only [List.length_cons, List.foldl_cons, hcount]
    rw [hcopied] at hrest
    exact .step hstep hrest

theorem subCounter_ok {a b : Nat} (h : b ≤ a) : subCounter a b = .ok (a - b) := if_pos h

theorem storedData_rounded (h : Along start input owed room c) (hdata : c.decoder.state = .data)
    (hstored : c.decoder.stored = true) : Rounded start input owed room c c.storedData := by
  have hpending := h.sound.idle (.inr hstored)
  have hlt : c.decoder.chunkOutProduced < c.decoder.unpackSize := by
    have hgood := h.sound.good.stored hdata hstored
    rw [framed_stored hdata hstored] at hgood
    exact hgood
  have hroom := h.sameRoom
  have hfits := h.fits
  unfold storedData
  simp only [subCounter_ok (Nat.le_of_lt hlt), bind, Except.bind]
  rw [if_neg (by omega)]
  by_cases hnone : c.input.length = 0
  · rw [if_pos hnone]
    have hnil := List.length_eq_zero_iff.mp hnone
    refine .stops h (.needInput hnil hpending ?_)
    show FrameState.step (framed c.decoder) [] = _
    unfold FrameState.step
    rw [framed_stored hdata hstored]
    exact if_pos hstored
  · rw [if_neg hnone]
    by_cases hfull : min (min (c.decoder.unpackSize - c.decoder.chunkOutProduced) c.input.length)
        (c.room - c.out.length) = 0
    · rw [if_pos hfull]
      exact .stops h (.full (by omega))
    · rw [if_neg hfull]
      generalize hcopy : min (min (c.decoder.unpackSize - c.decoder.chunkOutProduced) c.input.length)
        (c.room - c.out.length) = toCopy at hfull
      have hlength : (c.input.take toCopy).length = toCopy := List.length_take_of_le (by omega)
      obtain ⟨window, hput, hwf, hview⟩ :=
        SlidingWindow.Shows.putSliceDirect ⟨h.sound.wf, rfl⟩ (c.input.take toCopy) _ rfl
      have hput : LzmaWindow.putSliceDirect c.decoder.decoder.window (c.input.take toCopy) = .ok window := hput
      have hflushed : ∀ (src : List Byte) (w : History), (src.foldl History.put w).flushed =
          src.foldl History.put w.flushed ∧ (src.foldl History.put w).pending = w.pending := by
        intro src
        induction src with
        | nil => exact fun w => ⟨rfl, rfl⟩
        | cons b src ih => exact fun w => ih (w.put b)
      have hpending' : window.pendingOut = [] := by
        have hsame := (hflushed (c.input.take toCopy) c.decoder.decoder.window.view).2
        rw [← hview] at hsame
        exact hsame.trans hpending
      simp only [hput]
      obtain ⟨b, src, hsrc⟩ : ∃ b src, c.input.take toCopy = b :: src := by
        cases hcase : c.input.take toCopy with
        | nil =>
          rw [hcase, List.length_nil] at hlength
          exact absurd hlength.symm hfull
        | cons b src => exact ⟨b, src, rfl⟩
      have hruns : frameMachine.Runs (framed c.decoder) c.input (c.input.take toCopy)
          (copied (c.input.take toCopy) (framed c.decoder)) (c.input.drop toCopy) := by
        have hall := stored_runs (c.input.drop toCopy) b src (m := framed c.decoder) hdata hstored
          (by
            rw [← hsrc, hlength, framed_stored hdata hstored]
            show c.decoder.chunkOutProduced + toCopy ≤ c.decoder.unpackSize
            omega)
        rw [← hsrc, List.take_append_drop] at hall
        exact hall
      have hdecoder : { (framed c.decoder).decoder with
            window := (c.input.take toCopy).foldl History.put (framed c.decoder).decoder.window } =
          { settled (LzmaDecoder.view { c.decoder.decoder with window }) with phase := .newSymbol } := by
        rw [framed_stored hdata hstored]
        show { settled c.decoder.decoder.view with
            phase := DecodePhase.newSymbol
            window := (c.input.take toCopy).foldl History.put c.decoder.decoder.window.view.flushed } =
          { settled c.decoder.decoder.view with
            phase := DecodePhase.newSymbol
            window := window.view.flushed }
        rw [hview, (hflushed _ _).1]
      have hout : c.out ++ c.decoder.decoder.window.pendingOut ++ c.input.take toCopy =
          c.out ++ c.input.take toCopy ++ window.pendingOut := by
        rw [hpending, hpending', List.append_nil, List.append_nil]
      by_cases hdone : c.decoder.unpackSize ≤ c.decoder.chunkOutProduced + toCopy
      · simp only [if_pos hdone]
        have hframed : copied (c.input.take toCopy) (framed c.decoder) = framed { c.decoder with
            decoder := { c.decoder.decoder with window }
            chunkOutProduced := c.decoder.chunkOutProduced + toCopy
            state := .control, stateInitialized := true } := by
          rw [framed_outside (d := { c.decoder with
            decoder := { c.decoder.decoder with window }
            chunkOutProduced := c.decoder.chunkOutProduced + toCopy
            state := .control, stateInitialized := true }) (fun hf => by cases hf)]
          unfold copied
          simp only [hdecoder, hlength]
          rw [framed_stored hdata hstored]
          exact if_pos hdone
        have hgood := hruns.good h.sound.good
        rw [hframed] at hruns hgood
        refine .goes (h.advance (e := Lzma2Cursor.mk _ _ _ _) _ hruns
          ⟨hwf, hgood, fun _ => hpending', fun hf => by cases hf⟩ rfl ?_ hout) ?_
        · show (c.out ++ c.input.take toCopy).length ≤ room
          rw [List.length_append, hlength]
          omega
        · show 2 * ((c.input.drop toCopy).length + (c.room - (c.out ++ c.input.take toCopy).length)) + 0 < weight c
          unfold weight
          rw [List.length_drop, List.length_append, hlength]
          omega
      · simp only [if_neg hdone]
        have hframed : copied (c.input.take toCopy) (framed c.decoder) = framed { c.decoder with
            decoder := { c.decoder.decoder with window }
            chunkOutProduced := c.decoder.chunkOutProduced + toCopy } := by
          rw [framed_stored (d := { c.decoder with
            decoder := { c.decoder.decoder with window }
            chunkOutProduced := c.decoder.chunkOutProduced + toCopy }) hdata hstored]
          unfold copied
          simp only [hdecoder, hlength]
          rw [framed_stored hdata hstored]
          exact if_neg hdone
        have hgood := hruns.good h.sound.good
        rw [hframed] at hruns hgood
        refine .goes (h.advance (e := Lzma2Cursor.mk _ _ _ _) _ hruns
          ⟨hwf, hgood, fun _ => hpending', fun _ hf => ?_⟩ rfl ?_ hout) ?_
        · have hf : c.decoder.stored = false := hf
          rw [hstored] at hf
          cases hf
        · show (c.out ++ c.input.take toCopy).length ≤ room
          rw [List.length_append, hlength]
          omega
        · show 2 * ((c.input.drop toCopy).length + (c.room - (c.out ++ c.input.take toCopy).length)) +
            stateRank c.decoder.state < weight c
          unfold weight
          rw [List.length_drop, List.length_append, hlength]
          omega

theorem step_packed {m : FrameState} (hdata : m.state = .data) (hpacked : m.stored = false)
    (input : List Byte) : frameMachine.step m input = packedStep m input := by
  have hnot : ¬ m.stored = true := by
    rw [hpacked]
    exact Bool.false_ne_true
  show FrameState.step m input = _
  unfold FrameState.step
  rw [hdata]
  exact if_neg hnot

theorem step_skip {m : FrameState} (hdata : m.state = .data) (hpacked : m.stored = false)
    {status : LzmaDecodeStatus} (hphase : m.decoder.phase = .finished status) (input : List Byte) :
    frameMachine.step m input = skipStep m input := by
  rw [step_packed hdata hpacked, packedStep, hphase]

/-- Packed bytes are skipped one by one. -/
theorem skip_runs (rest : List Byte) {status : LzmaDecodeStatus} (skipped : List Byte) :
    ∀ {m : FrameState}, m.state = .data → m.stored = false → m.decoder.phase = .finished status →
      m.chunkInConsumed + skipped.length ≤ m.packSize →
      frameMachine.Runs m (skipped ++ rest) []
        { m with chunkInConsumed := m.chunkInConsumed + skipped.length } rest := by
  induction skipped with
  | nil => exact fun _ _ _ _ => .refl _ _
  | cons b skipped ih =>
    intro m hdata hpacked hphase hfits
    rw [List.length_cons] at hfits
    have hstep : frameMachine.step m (b :: (skipped ++ rest)) =
        .move { m with chunkInConsumed := m.chunkInConsumed + 1 } (skipped ++ rest) [] := by
      rw [step_skip hdata hpacked hphase]
      exact if_neg (by omega)
    have hrest := ih (m := { m with chunkInConsumed := m.chunkInConsumed + 1 }) hdata hpacked hphase
      (by
        show m.chunkInConsumed + 1 + skipped.length ≤ m.packSize
        omega)
    have hcount : m.chunkInConsumed + 1 + skipped.length = m.chunkInConsumed + (b :: skipped).length := by
      rw [List.length_cons]
      omega
    simp only [hcount] at hrest
    exact .step hstep hrest

/-- The chunk's decoder may skip what is left of its packed bytes. -/
theorem skipPacked_rounded {c₀ : Lzma2Cursor SlidingWindow} (h : Along start input owed room c)
    (hdata : c.decoder.state = .data) (hpacked : c.decoder.stored = false)
    {status : LzmaDecodeStatus} (hphase : (framed c.decoder).decoder.phase = .finished status)
    (hpending : c.decoder.decoder.window.pendingOut = []) (hweight : weight c ≤ weight c₀) :
    Rounded start input owed room c₀ c.skipPacked := by
  have hwithin : c.decoder.chunkInConsumed ≤ c.decoder.packSize :=
    (h.sound.good.packed hdata hpacked).within
  unfold skipPacked
  simp only [subCounter_ok hwithin, bind, Except.bind]
  generalize hskip : min c.input.length (c.decoder.packSize - c.decoder.chunkInConsumed) = canSkip
  have hlength : (c.input.take canSkip).length = canSkip := List.length_take_of_le (by omega)
  have hskipped : frameMachine.Runs (framed c.decoder) c.input []
      { framed c.decoder with chunkInConsumed := c.decoder.chunkInConsumed + canSkip }
      (c.input.drop canSkip) := by
    have hall := skip_runs (c.input.drop canSkip) (c.input.take canSkip) (m := framed c.decoder)
      hdata hpacked hphase (by
        rw [hlength]
        show c.decoder.chunkInConsumed + canSkip ≤ c.decoder.packSize
        omega)
    rw [List.take_append_drop, hlength] at hall
    exact hall
  have hframed : ({ framed c.decoder with chunkInConsumed := c.decoder.chunkInConsumed + canSkip } : FrameState) =
      framed { c.decoder with chunkInConsumed := c.decoder.chunkInConsumed + canSkip } := rfl
  have hchunk := h.sound.packed hdata hpacked
  have hskippedGood := hskipped.good h.sound.good
  split
  · next hleft =>
    have hnil : c.input.drop canSkip = [] := List.drop_eq_nil_of_le (by omega)
    rw [hframed] at hskipped hskippedGood
    refine .stops (h.advance (e := Lzma2Cursor.mk _ _ _ _) _ hskipped
      ⟨h.sound.wf, hskippedGood, fun _ => hpending, fun _ _ => ⟨hchunk.good, hchunk.fresh, hchunk.counted⟩⟩
      rfl h.fits (List.append_nil _)) (.needInput hnil hpending ?_)
    refine (step_skip (m := framed { c.decoder with
      chunkInConsumed := c.decoder.chunkInConsumed + canSkip }) hdata hpacked hphase []).trans ?_
    exact if_neg (Nat.not_le.mpr hleft.2)
  · next hleft =>
    have hall : c.decoder.packSize ≤ c.decoder.chunkInConsumed + canSkip := by
      by_cases hzero : 0 < c.decoder.packSize - c.decoder.chunkInConsumed
      · exact Nat.le_of_not_lt fun hf => hleft ⟨hzero, hf⟩
      · omega
    have hleave : frameMachine.step
        { framed c.decoder with chunkInConsumed := c.decoder.chunkInConsumed + canSkip }
        (c.input.drop canSkip) =
        .move (FrameState.leave
          { framed c.decoder with chunkInConsumed := c.decoder.chunkInConsumed + canSkip } .control)
          (c.input.drop canSkip) [] :=
      (step_skip (m := { framed c.decoder with
        chunkInConsumed := c.decoder.chunkInConsumed + canSkip }) hdata hpacked hphase _).trans (if_pos hall)
    have hleft : FrameState.leave
        { framed c.decoder with chunkInConsumed := c.decoder.chunkInConsumed + canSkip } .control =
        framed { c.decoder with
          chunkInConsumed := c.decoder.chunkInConsumed + canSkip, state := .control } := by
      obtain ⟨phase, hsame, _⟩ := complete_same (settled c.decoder.decoder.view)
      rw [framed_packed hdata hpacked, framed_outside (d := { c.decoder with
        chunkInConsumed := c.decoder.chunkInConsumed + canSkip, state := .control })
        (fun hf => by cases hf), hsame]
      rfl
    have hruns := hskipped.trans (.single hleave)
    have hgood := hruns.good h.sound.good
    rw [hleft] at hruns hgood
    refine .goes (h.advance (e := Lzma2Cursor.mk _ _ _ _) _ hruns
      ⟨h.sound.wf, hgood, fun _ => hpending, fun hf => by cases hf⟩ rfl h.fits (List.append_nil _)) ?_
    refine Nat.lt_of_lt_of_le ?_ hweight
    show 2 * ((c.input.drop canSkip).length + (c.room - c.out.length)) + 0 < weight c
    unfold weight
    rw [hdata, List.length_drop]
    show _ < _ + 1
    omega

/-- A decoder that has decoded all it should only changes its phase. -/
theorem reached_step {e e' : SymbolState} {input rest out : List Byte} (hgood : Good e)
    (hfresh : e.rcInitialized = false → Fits e 1) (hreached : e.reachedUnpackSize = true)
    (hstep : SymbolState.step e input = .move e' rest out) :
    rest = input ∧ out = [] ∧ e' = { e with phase := e'.phase } := by
  have hinit : e.rcInitialized = true := by
    cases hcase : e.rcInitialized with
    | true => rfl
    | false => exact absurd hreached (not_reached_of_fits (hfresh hcase))
  have hnever : ¬ Fits e 1 := fun hf => not_reached_of_fits hf hreached
  have hphase := hgood.phase
  unfold SymbolState.step at hstep
  rw [if_pos hinit] at hstep
  cases hcase : e.phase with
  | newSymbol =>
    rw [hcase] at hstep
    have hstep : newSymbolStep e input = .move e' rest out := hstep
    unfold newSymbolStep at hstep
    rw [if_pos hreached] at hstep
    injection hstep with hsame hrest hout
    subst hsame hrest hout
    exact ⟨rfl, rfl, rfl⟩
  | copyMatch dist remaining =>
    rw [hcase] at hstep hphase
    cases remaining with
    | zero =>
      injection hstep with hsame hrest hout
      subst hsame hrest hout
      exact ⟨rfl, rfl, rfl⟩
    | succ n => exact absurd (hphase.2.1.mono (Nat.le_add_left 1 n)) hnever
  | finished status =>
    rw [hcase] at hstep
    cases hstep
  | needIsRep posState =>
    rw [hcase] at hphase
    exact absurd hphase.2.1 hnever
  | needRepG0 posState =>
    rw [hcase] at hphase
    exact absurd hphase.2.1 hnever
  | needRep0Long posState =>
    rw [hcase] at hphase
    exact absurd hphase.2.1 hnever
  | needRepG1 posState =>
    rw [hcase] at hphase
    exact absurd hphase.2.1 hnever
  | needRepG2 posState =>
    rw [hcase] at hphase
    exact absurd hphase.2.1 hnever
  | literal ls =>
    rw [hcase] at hphase
    exact absurd hphase.2.1 hnever
  | matchLength matchType =>
    rw [hcase] at hphase
    exact absurd hphase.2.1 hnever
  | matchDistance len lenState =>
    rw [hcase] at hphase
    exact absurd hphase.2.1 hnever

/-- A decoder that needs input has a byte to decode yet. -/
theorem need_fits {e : SymbolState} (hgood : Good e) (hfresh : e.rcInitialized = false → Fits e 1)
    (hneed : SymbolState.step e [] = .need) : Fits e 1 := by
  cases hinit : e.rcInitialized with
  | false => exact hfresh hinit
  | true =>
    have hphase := hgood.phase
    unfold SymbolState.step at hneed
    rw [if_pos hinit] at hneed
    cases hcase : e.phase with
    | newSymbol =>
      rw [hcase] at hneed
      refine fits_of_not_reached fun hreached => ?_
      have hneed : newSymbolStep e [] = .need := hneed
      unfold newSymbolStep at hneed
      rw [if_pos hreached] at hneed
      cases hneed
    | copyMatch dist remaining =>
      rw [hcase] at hneed
      cases remaining with
      | zero => cases hneed
      | succ n =>
        have hneed : copyStep e dist (n + 1) [] = .need := hneed
        unfold copyStep at hneed
        cases hbyte : LzmaWindow.getByte e.window (dist.toNat + 1) with
        | error f =>
          simp only [hbyte] at hneed
          cases hneed
        | ok b =>
          simp only [hbyte] at hneed
          cases hneed
    | finished status =>
      rw [hcase] at hneed
      cases hneed
    | needIsRep posState =>
      rw [hcase] at hphase
      exact hphase.2.1
    | needRepG0 posState =>
      rw [hcase] at hphase
      exact hphase.2.1
    | needRep0Long posState =>
      rw [hcase] at hphase
      exact hphase.2.1
    | needRepG1 posState =>
      rw [hcase] at hphase
      exact hphase.2.1
    | needRepG2 posState =>
      rw [hcase] at hphase
      exact hphase.2.1
    | literal ls =>
      rw [hcase] at hphase
      exact hphase.2.1
    | matchLength matchType =>
      rw [hcase] at hphase
      exact hphase.2.1
    | matchDistance len lenState =>
      rw [hcase] at hphase
      exact hphase.2.1

/-- The symbol machine's run over a slice of the chunk is a run of the frame machine. -/
theorem inChunk_runs {e e' : SymbolState} {slice rest out : List Byte}
    (hrun : symbolMachine.Runs e slice out e' rest) (m : FrameState) (hdata : m.state = .data)
    (hpacked : m.stored = false) (more : List Byte) :
    ∀ k, Good e → (e.rcInitialized = false → Fits e 1) → slice.length ≤ m.packSize - k →
      frameMachine.Runs (m.inChunk e k) (slice ++ more) out
        (m.inChunk e' (k + (slice.length - rest.length))) (rest ++ more) := by
  induction hrun with
  | refl e slice =>
    intro k _ _ _
    rw [Nat.sub_self]
    exact .refl _ _
  | @step e e₁ e' slice slice₁ rest out out' hstep hrun ih =>
    intro k hgood hfresh hshort
    have hstep : SymbolState.step e slice = .move e₁ slice₁ out := hstep
    have hstepGood := step_good hgood slice
    rw [hstep] at hstepGood
    have hfresh₁ := fresh_next hgood hfresh hstep
    have hle₁ := hstepGood.2.1.length_le
    have hle := (hrun.suffix hstepGood.1).length_le
    by_cases hreached : e.reachedUnpackSize = true
    · obtain ⟨rfl, rfl, hsame⟩ := reached_step hgood hfresh hreached hstep
      have hreached₁ : e₁.reachedUnpackSize = true := by
        rw [hsame]
        exact hreached
      have hcomplete : m.inChunk e₁ k = m.inChunk e k := by
        unfold inChunk
        rw [complete_of_reached hreached₁, complete_of_reached hreached, hsame]
      have hrest := ih k hstepGood.1 hfresh₁ hshort
      rw [hcomplete] at hrest
      rw [List.nil_append]
      exact hrest
    · have hcomplete := complete_of_not hreached
      have hphase : ∀ status, (m.inChunk e k).decoder.phase ≠ .finished status := by
        intro status hf
        have hf : (complete e).phase = .finished status := hf
        rw [hcomplete] at hf
        unfold SymbolState.step at hstep
        split at hstep
        · rw [hf] at hstep
          cases hstep
        · next hinit =>
          have hnew := (hgood.starting (Bool.eq_false_iff.mpr hinit)).2
          rw [hnew] at hf
          cases hf
      have htake : (slice ++ more).take (m.packSize - k) =
          slice ++ more.take (m.packSize - k - slice.length) := by
        rw [List.take_append, List.take_of_length_le hshort]
      have hdrop : (slice ++ more).drop (m.packSize - k) = more.drop (m.packSize - k - slice.length) := by
        rw [List.drop_append, List.drop_eq_nil_of_le hshort, List.nil_append]
      have hlong : SymbolState.step e (slice ++ more.take (m.packSize - k - slice.length)) =
          .move e₁ (slice₁ ++ more.take (m.packSize - k - slice.length)) out := by
        rw [step_extends e slice _ (by rw [hstep]; exact fun hf => by cases hf), hstep]
        rfl
      have hcount : (slice ++ more.take (m.packSize - k - slice.length)).length -
          (slice₁ ++ more.take (m.packSize - k - slice.length)).length = slice.length - slice₁.length := by
        rw [List.length_append, List.length_append, Nat.add_sub_add_right]
      have hmove : frameMachine.step (m.inChunk e k) (slice ++ more) =
          .move (m.inChunk e₁ (k + (slice.length - slice₁.length))) (slice₁ ++ more) out := by
        rw [step_packed (m := m.inChunk e k) hdata hpacked]
        unfold packedStep
        split
        · next status hf => exact absurd hf (hphase status)
        · unfold symbolStep
          have hpack : (m.inChunk e k).packSize - (m.inChunk e k).chunkInConsumed = m.packSize - k := rfl
          have hdecoder : (m.inChunk e k).decoder = e := hcomplete
          simp only [hpack, hdecoder, htake, hdrop, hlong, hcount, List.append_assoc, List.take_append_drop]
          rfl
      have hrest := ih (k + (slice.length - slice₁.length)) hstepGood.1 hfresh₁ (by omega)
      have hsum : k + (slice.length - slice₁.length) + (slice₁.length - rest.length) =
          k + (slice.length - rest.length) := by omega
      rw [hsum] at hrest
      exact .step hmove hrest

theorem complete_fits {e : SymbolState} {n : Nat} (h : Fits (complete e) n) : Fits e n := by
  obtain ⟨phase, hsame, _⟩ := complete_same e
  rw [hsame] at h
  exact h

/-- What a call of the LZMA decoder makes of the chunk. -/
theorem lzma_along (h : Along start input owed room c) (hdata : c.decoder.state = .data)
    (hpacked : c.decoder.stored = false) {slice more : List Byte} (hinput : c.input = slice ++ more)
    (hshort : slice.length ≤ c.decoder.packSize - c.decoder.chunkInConsumed) {availableOut : Nat}
    (hroom : availableOut ≤ room - c.out.length) {r : LzmaDecodeResult} {e : LzmaDecoder SlidingWindow}
    (hwf : e.window.Wf) (hdecoded : Decoded c.decoder.decoder.view slice availableOut r e.view) :
    Along start input owed room
      { decoder := { c.decoder with
          decoder := e
          chunkInConsumed := c.decoder.chunkInConsumed + r.bytesConsumed
          chunkOutProduced := c.decoder.chunkOutProduced + r.produced.length }
        input := c.input.drop r.bytesConsumed
        out := c.out ++ r.produced
        room := c.room } := by
  have hchunk := h.sound.packed hdata hpacked
  obtain ⟨o, hrun, hout⟩ := hdecoded.along.run
  have hfits : r.produced.length ≤ availableOut := hdecoded.along.fits
  have hkeep := runs_keep hchunk.good hrun
  have hframes := inChunk_runs hrun (framed c.decoder) hdata hpacked more
    c.decoder.chunkInConsumed hchunk.good hchunk.fresh hshort
  have hbefore : (framed c.decoder).inChunk (settled c.decoder.decoder.view) c.decoder.chunkInConsumed =
      framed c.decoder := by
    rw [framed_packed hdata hpacked]
    rfl
  have hconsumed := hdecoded.consumed
  have hcount : slice.length - (slice.drop r.bytesConsumed).length = r.bytesConsumed := by
    rw [List.length_drop]
    omega
  have hafter : (framed c.decoder).inChunk (settled e.view)
      (c.decoder.chunkInConsumed + r.bytesConsumed) = framed { c.decoder with
        decoder := e
        chunkInConsumed := c.decoder.chunkInConsumed + r.bytesConsumed
        chunkOutProduced := c.decoder.chunkOutProduced + r.produced.length } := by
    rw [framed_packed hdata hpacked, framed_packed (d := { c.decoder with
        decoder := e
        chunkInConsumed := c.decoder.chunkInConsumed + r.bytesConsumed
        chunkOutProduced := c.decoder.chunkOutProduced + r.produced.length }) hdata hpacked]
    rfl
  have hdrop : slice.drop r.bytesConsumed ++ more = c.input.drop r.bytesConsumed := by
    rw [hinput, List.drop_append_of_le_length hconsumed]
  simp only at hframes
  rw [hbefore, hcount, hafter, hdrop, ← hinput] at hframes
  have hgood := hframes.good h.sound.good
  have hpending : c.decoder.decoder.window.pendingOut ++ o = r.produced ++ e.window.pendingOut := hout
  have hlength := congrArg List.length hpending
  rw [List.length_append, List.length_append] at hlength
  refine h.advance o hframes ⟨hwf, hgood, fun hf => ?_, fun _ _ => ⟨hkeep.good, ?_, ?_⟩⟩ rfl ?_ ?_
  · rcases hf with hf | hf
    · exact absurd hdata hf
    · have hf : c.decoder.stored = true := hf
      rw [hpacked] at hf
      cases hf
  · intro hinit
    have hfresh := (hgood.packed hdata hpacked).fresh
    rw [← hafter] at hfresh
    have hfresh : (complete (settled e.view)).rcInitialized = false → Fits (complete (settled e.view)) 1 :=
      hfresh
    refine complete_fits (hfresh ?_)
    obtain ⟨phase, hsame, _⟩ := complete_same (settled e.view)
    rw [hsame]
    exact hinit
  · have hdecodedSize : e.decodedSize = c.decoder.decoder.decodedSize + o.length := hkeep.decoded
    have hcounted := hchunk.counted
    show c.decoder.chunkOutProduced + r.produced.length + e.window.pendingOut.length ≤ e.decodedSize
    omega
  · show (c.out ++ r.produced).length ≤ room
    have hbound := h.fits
    rw [List.length_append]
    omega
  · show c.out ++ c.decoder.decoder.window.pendingOut ++ o = c.out ++ r.produced ++ e.window.pendingOut
    rw [List.append_assoc, hpending, List.append_assoc]

/-- The packed data has run out before the chunk was decoded. -/
theorem lzma_fails {c₀ : Lzma2Cursor SlidingWindow} (h : Along start input owed room c)
    (hdata : c.decoder.state = .data) (hpacked : c.decoder.stored = false)
    (hneed : SymbolState.step (settled c.decoder.decoder.view) [] = .need)
    (hpending : c.decoder.decoder.window.pendingOut = [])
    (hall : c.decoder.packSize ≤ c.decoder.chunkInConsumed) (hweight : weight c ≤ weight c₀) :
    Rounded start input owed room c₀ (.ok (none, { c with decoder := { c.decoder with state := .error } })) := by
  have hchunk := h.sound.packed hdata hpacked
  have hnot := not_reached_of_fits (need_fits hchunk.good hchunk.fresh hneed)
  have hphase : ∀ status, (framed c.decoder).decoder.phase ≠ .finished status := by
    intro status hf
    rw [framed_packed hdata hpacked] at hf
    have hf : (complete (settled c.decoder.decoder.view)).phase = .finished status := hf
    rw [complete_of_not hnot] at hf
    have hinit : (settled c.decoder.decoder.view).rcInitialized = true :=
      hchunk.good.initialized (fun hnew => by rw [hnew] at hf; cases hf)
    unfold SymbolState.step at hneed
    rw [if_pos hinit, hf] at hneed
    cases hneed
  have hdecoder : (framed c.decoder).decoder = settled c.decoder.decoder.view := by
    rw [framed_packed hdata hpacked]
    exact complete_of_not hnot
  have hleft : (framed c.decoder).packSize - (framed c.decoder).chunkInConsumed = 0 :=
    Nat.sub_eq_zero_of_le hall
  have hmove : frameMachine.step (framed c.decoder) c.input =
      .move ((framed c.decoder).leave .error) c.input [] := by
    rw [step_packed (m := framed c.decoder) hdata hpacked]
    unfold packedStep
    split
    · next status hf => exact absurd hf (hphase status)
    · unfold symbolStep
      simp only [hleft, hdecoder, List.take_zero, hneed, if_pos]
  have hframed : (framed c.decoder).leave .error = framed { c.decoder with state := .error } := by
    rw [framed_outside (d := { c.decoder with state := .error }) (fun hf => by cases hf)]
    unfold leave
    rw [hdecoder]
    rw [framed_packed hdata hpacked]
  have hruns := Machine.Runs.single hmove
  have hgood := hruns.good h.sound.good
  rw [hframed] at hruns hgood
  refine .goes (h.advance (e := Lzma2Cursor.mk _ _ _ _) _ hruns
    ⟨h.sound.wf, hgood, fun _ => hpending, fun hf => by cases hf⟩ rfl h.fits (List.append_nil _)) ?_
  refine Nat.lt_of_lt_of_le ?_ hweight
  show 2 * (c.input.length + (c.room - c.out.length)) + 0 < weight c
  unfold weight
  rw [hdata]
  exact Nat.lt_succ_self _

/-- The machine needs input where its decoder does, and the chunk has packed bytes yet. -/
theorem lzma_needs (h : Along start input owed room c) (hdata : c.decoder.state = .data)
    (hpacked : c.decoder.stored = false)
    (hneed : SymbolState.step (settled c.decoder.decoder.view) [] = .need)
    (hmore : c.decoder.chunkInConsumed < c.decoder.packSize) :
    frameMachine.step (framed c.decoder) [] = .need := by
  have hchunk := h.sound.packed hdata hpacked
  have hnot := not_reached_of_fits (need_fits hchunk.good hchunk.fresh hneed)
  have hdecoder : (framed c.decoder).decoder = settled c.decoder.decoder.view := by
    rw [framed_packed hdata hpacked]
    exact complete_of_not hnot
  rw [step_packed (m := framed c.decoder) hdata hpacked]
  unfold packedStep
  split
  · next status hf =>
    have hinit : (settled c.decoder.decoder.view).rcInitialized = true := by
      rw [hdecoder] at hf
      exact hchunk.good.initialized (fun hnew => by rw [hnew] at hf; cases hf)
    rw [hdecoder] at hf
    unfold SymbolState.step at hneed
    rw [if_pos hinit, hf] at hneed
    cases hneed
  · unfold symbolStep
    simp only [hdecoder, List.take_nil, hneed]
    refine if_neg ?_
    show ¬ c.decoder.packSize - c.decoder.chunkInConsumed = 0
    omega

/-- The LZMA decoder expects what the chunk declares. -/
theorem packed_size {d : Lzma2Decoder SlidingWindow} (h : Sound d) (hdata : d.state = .data)
    (hpacked : d.stored = false) : (settled d.decoder.view).unpackSize = some d.unpackSize := by
  have hsize := (h.good.packed hdata hpacked).size
  rw [framed_packed hdata hpacked] at hsize
  obtain ⟨phase, hsame, _⟩ := complete_same (settled d.decoder.view)
  rw [hsame] at hsize
  exact hsize

theorem lzmaData_rounded (h : Along start input owed room c) (hdata : c.decoder.state = .data)
    (hpacked : c.decoder.stored = false) : Rounded start input owed room c c.lzmaData := by
  have hchunk := h.sound.packed hdata hpacked
  have hframe := h.sound.good.packed hdata hpacked
  have hwithin : c.decoder.chunkInConsumed ≤ c.decoder.packSize := hframe.within
  have hroom := h.sameRoom
  have hfits := h.fits
  have hsize := packed_size h.sound hdata hpacked
  have hbound : c.decoder.decoder.decodedSize + 0 ≤ c.decoder.unpackSize := good_fits hchunk.good _ hsize
  have hcounted := hchunk.counted
  unfold lzmaData
  simp only [subCounter_ok hwithin, subCounter_ok (show c.decoder.chunkOutProduced ≤ c.decoder.unpackSize by omega),
    bind, Except.bind]
  by_cases hdone : c.decoder.unpackSize - c.decoder.chunkOutProduced = 0
  · -- all is decoded, and nothing pending: the rest of the packed bytes is skipped
    rw [if_pos hdone]
    have hpending : c.decoder.decoder.window.pendingOut = [] := List.length_eq_zero_iff.mp (by omega)
    have hreached : (settled c.decoder.decoder.view).reachedUnpackSize = true := by
      unfold LzmaDecoder.reachedUnpackSize
      rw [hsize]
      show decide (c.decoder.unpackSize ≤ c.decoder.decoder.decodedSize) = true
      exact decide_eq_true (by omega)
    have hphase : (framed c.decoder).decoder.phase = .finished .finishedWithoutMark := by
      rw [framed_packed hdata hpacked, complete_of_reached hreached]
    exact skipPacked_rounded h hdata hpacked hphase hpending (Nat.le_refl _)
  · rw [if_neg hdone]
    by_cases hfull : min (c.room - c.out.length) (c.decoder.unpackSize - c.decoder.chunkOutProduced) = 0
    · rw [if_pos hfull]
      exact .stops h (.full (by omega))
    · rw [if_neg hfull]
      generalize havailable : min (c.room - c.out.length)
        (c.decoder.unpackSize - c.decoder.chunkOutProduced) = availableOut at hfull
      generalize hin : min c.input.length (c.decoder.packSize - c.decoder.chunkInConsumed) = availableIn
      have hslice : (c.input.take availableIn).length = availableIn := List.length_take_of_le (by omega)
      obtain ⟨r, e, hdecode, hwf, hdecoded⟩ := LzmaDecoder.decode_windowed h.sound.wf hchunk.good
        (c.input.take availableIn) availableOut
      have halong := lzma_along h hdata hpacked (List.take_append_drop availableIn c.input).symm
        (by omega) (by omega) hwf hdecoded
      have hconsumed := hdecoded.consumed
      have hproduced : r.produced.length ≤ availableOut := hdecoded.along.fits
      have hless : 0 < r.bytesConsumed ∨ 0 < r.produced.length →
          weight (Lzma2Cursor.mk { c.decoder with
              decoder := e
              chunkInConsumed := c.decoder.chunkInConsumed + r.bytesConsumed
              chunkOutProduced := c.decoder.chunkOutProduced + r.produced.length }
            (c.input.drop r.bytesConsumed) (c.out ++ r.produced) c.room) < weight c := by
        intro hprogress
        unfold weight
        simp only [List.length_drop, List.length_append]
        omega
      have hweight : weight (Lzma2Cursor.mk { c.decoder with
              decoder := e
              chunkInConsumed := c.decoder.chunkInConsumed + r.bytesConsumed
              chunkOutProduced := c.decoder.chunkOutProduced + r.produced.length }
            (c.input.drop r.bytesConsumed) (c.out ++ r.produced) c.room) ≤ weight c := by
        unfold weight
        simp only [List.length_drop, List.length_append]
        omega
      have hstopped := hdecoded.stopped
      simp only [hdecode]
      generalize hstatus : r.status = status at hstopped
      cases hstopped with
      | needInput hnil hpending hneed =>
        have hall : (c.input.take availableIn).length ≤ r.bytesConsumed := List.drop_eq_nil_iff.mp hnil
        simp only
        split
        · next hexhausted =>
          have hnot := need_fits (halong.sound.packed hdata hpacked).good
            (halong.sound.packed hdata hpacked).fresh hneed
          have hsize' : (settled e.view).unpackSize = some c.decoder.unpackSize :=
            packed_size halong.sound hdata hpacked
          have hlt : e.decodedSize + 1 ≤ c.decoder.unpackSize := hnot _ hsize'
          have hcounted' : c.decoder.chunkOutProduced + r.produced.length + e.window.pendingOut.length ≤
              e.decodedSize := (halong.sound.packed hdata hpacked).counted
          rw [if_neg (by omega)]
          exact lzma_fails halong hdata hpacked hneed hpending hexhausted hweight
        · next hmore =>
          have hmore : c.decoder.chunkInConsumed + r.bytesConsumed < c.decoder.packSize := Nat.lt_of_not_le hmore
          split
          · next hzero =>
            have hempty : c.input = [] := List.length_eq_zero_iff.mp (by omega)
            refine .stops halong (.needInput ?_ hpending (lzma_needs halong hdata hpacked hneed hmore))
            show c.input.drop r.bytesConsumed = []
            rw [hempty, List.drop_nil]
          · next hsome => exact .goes halong (hless (.inl (Nat.pos_of_ne_zero hsome)))
      | full hfilled =>
        have hfilled : r.produced.length = availableOut := hfilled
        simp only
        rw [if_neg (by omega)]
        exact .goes halong (hless (.inr (by omega)))
      | ended hends hpending hhalt =>
        have hphase : ∃ status', (settled e.view).phase = .finished status' := by
          have hgood := step_good (halong.sound.packed hdata hpacked).good
            ((c.input.take availableIn).drop r.bytesConsumed)
          have hhalt : SymbolState.step (settled e.view) ((c.input.take availableIn).drop r.bytesConsumed) =
            .halt (.ok status) := hhalt
          have hgood : SymbolState.StepGood (settled e.view)
            ((c.input.take availableIn).drop r.bytesConsumed) (SymbolState.step (settled e.view)
              ((c.input.take availableIn).drop r.bytesConsumed)) := hgood
          rw [hhalt] at hgood
          obtain ⟨status', _, hphase⟩ := hgood
          exact ⟨status', hphase⟩
        have hframed : ∃ status', (framed { c.decoder with
            decoder := e
            chunkInConsumed := c.decoder.chunkInConsumed + r.bytesConsumed
            chunkOutProduced := c.decoder.chunkOutProduced + r.produced.length }).decoder.phase =
              .finished status' := by
          rw [framed_packed (d := { c.decoder with
            decoder := e
            chunkInConsumed := c.decoder.chunkInConsumed + r.bytesConsumed
            chunkOutProduced := c.decoder.chunkOutProduced + r.produced.length }) hdata hpacked]
          show ∃ status', (complete (settled e.view)).phase = .finished status'
          by_cases hreached : (settled e.view).reachedUnpackSize = true
          · exact ⟨_, by rw [complete_of_reached hreached]⟩
          · rw [complete_of_not hreached]
            exact hphase
        obtain ⟨status', hframed⟩ := hframed
        have hskip := skipPacked_rounded halong hdata hpacked hframed hpending hweight
        cases status with
        | «continue» => exact hends.elim
        | needInput => exact hends.elim
        | finishedWithMark => exact hskip
        | finishedWithoutMark => exact hskip

/-- Every round goes along the machine. -/
theorem round_rounded (h : Along start input owed room c) : Rounded start input owed room c c.round := by
  have hgood := h.sound.good
  have hwf := h.sound.wf
  unfold round
  cases hstate : c.decoder.state with
  | finished => exact .stops h (.ended hstate)
  | error => exact .stops h (.failed hstate)
  | control =>
    have houtside : c.decoder.state ≠ .data := by
      rw [hstate]
      simp
    have hpending := h.sound.idle (.inl houtside)
    refine onByte_rounded h houtside onControl (fun input => ?_) (onControl_framing hwf hpending hstate)
    show FrameState.step (framed c.decoder) input = _
    unfold FrameState.step
    rw [show (framed c.decoder).state = .control from hstate]
  | unpack0 =>
    have houtside : c.decoder.state ≠ .data := by
      rw [hstate]
      simp
    have hpending := h.sound.idle (.inl houtside)
    refine onByte_rounded h houtside onUnpack0 (fun input => ?_) (onUnpack0_framing hwf hpending hstate)
    show FrameState.step (framed c.decoder) input = _
    unfold FrameState.step
    rw [show (framed c.decoder).state = .unpack0 from hstate]
  | unpack1 =>
    have houtside : c.decoder.state ≠ .data := by
      rw [hstate]
      simp
    have hpending := h.sound.idle (.inl houtside)
    refine onByte_rounded h houtside onUnpack1 (fun input => ?_) (onUnpack1_framing hwf hpending hstate)
    show FrameState.step (framed c.decoder) input = _
    unfold FrameState.step
    rw [show (framed c.decoder).state = .unpack1 from hstate]
  | pack0 =>
    have houtside : c.decoder.state ≠ .data := by
      rw [hstate]
      simp
    have hpending := h.sound.idle (.inl houtside)
    refine onByte_rounded h houtside onPack0 (fun input => ?_) (onPack0_framing hwf hpending hstate)
    show FrameState.step (framed c.decoder) input = _
    unfold FrameState.step
    rw [show (framed c.decoder).state = .pack0 from hstate]
  | pack1 =>
    have houtside : c.decoder.state ≠ .data := by
      rw [hstate]
      simp
    have hpending := h.sound.idle (.inl houtside)
    obtain ⟨hpacked, hsize⟩ : c.decoder.stored = false ∧ 0 < c.decoder.unpackSize :=
      hgood.sizing (.inr (.inl hstate))
    refine onByte_rounded h houtside onPack1 (fun input => ?_)
      (onPack1_framing hwf hpending hstate hpacked hsize)
    show FrameState.step (framed c.decoder) input = _
    unfold FrameState.step
    rw [show (framed c.decoder).state = .pack1 from hstate]
  | prop =>
    have houtside : c.decoder.state ≠ .data := by
      rw [hstate]
      simp
    have hpending := h.sound.idle (.inl houtside)
    obtain ⟨hpacked, hsize⟩ : c.decoder.stored = false ∧ 0 < c.decoder.unpackSize :=
      hgood.sizing (.inr (.inr hstate))
    refine onByte_rounded h houtside onProp (fun input => ?_)
      (onProp_framing hwf hpending hstate hpacked hsize)
    show FrameState.step (framed c.decoder) input = _
    unfold FrameState.step
    rw [show (framed c.decoder).state = .prop from hstate]
  | data =>
    simp only
    split
    · next hstored => exact storedData_rounded h hstate hstored
    · next hpacked => exact lzmaData_rounded h hstate (Bool.eq_false_iff.mpr hpacked)

/-- The loop stops within its fuel. -/
theorem loop_stops (fuel : Nat) : ∀ {c : Lzma2Cursor SlidingWindow}, Along start input owed room c →
    weight c < fuel →
    ∃ status c', c.loop fuel = .ok (status, c') ∧ Along start input owed room c' ∧ Stopped room c' status := by
  induction fuel with
  | zero => exact fun _ hf => absurd hf (Nat.not_lt_zero _)
  | succ fuel ih =>
    intro c h hfuel
    have hround := round_rounded h
    unfold loop
    generalize c.round = r at hround
    cases hround with
    | goes halong hless =>
      obtain ⟨status, c', hloop, hend⟩ := ih halong (by omega)
      exact ⟨status, c', hloop, hend⟩
    | stops halong hstopped => exact ⟨_, _, rfl, halong, hstopped⟩

/-- Draining moves pending bytes to the output. -/
theorem Along.drain (h : Along start input owed room c) :
    Along start input owed room c.drain ∧ c.drain.input = c.input ∧
      (c.drain.decoder.decoder.window.pendingOut = [] ∨ c.drain.out.length = room) := by
  have hroom := h.sameRoom
  have hfits := h.fits
  obtain ⟨hbytes, hwf, hview⟩ := SlidingWindow.Shows.drainOutput ⟨h.sound.wf, rfl⟩ (c.room - c.out.length)
  generalize hdrained : c.decoder.decoder.window.drainOutput (c.room - c.out.length) = drained at hbytes hwf hview
  obtain ⟨bytes, window⟩ := drained
  have hdrained : LzmaWindow.drainOutput c.decoder.decoder.window (c.room - c.out.length) = (bytes, window) :=
    hdrained
  have hbytes : bytes = c.decoder.decoder.window.pendingOut.take (c.room - c.out.length) := hbytes
  have hpending : window.pendingOut = c.decoder.decoder.window.pendingOut.drop (c.room - c.out.length) :=
    congrArg History.pending hview
  have hcode : c.drain = { c with
      decoder := { c.decoder with decoder := { c.decoder.decoder with window } }
      out := c.out ++ bytes } := by
    unfold Lzma2Cursor.drain
    simp only [hdrained]
  have hsettled : settled (LzmaDecoder.view { c.decoder.decoder with window }) =
      settled c.decoder.decoder.view := by
    show { settled c.decoder.decoder.view with window := window.view.flushed } = settled c.decoder.decoder.view
    have hview : window.view = { c.decoder.decoder.window.view with
      pending := c.decoder.decoder.window.pendingOut.drop (c.room - c.out.length) } := hview
    rw [hview]
    rfl
  have hframed : framed { c.decoder with decoder := { c.decoder.decoder with window } } = framed c.decoder := by
    unfold framed
    simp only [hsettled]
    rfl
  have hlength : bytes.length + window.pendingOut.length = c.decoder.decoder.window.pendingOut.length := by
    rw [hbytes, hpending, List.length_take, List.length_drop]
    omega
  have hboth : bytes ++ window.pendingOut = c.decoder.decoder.window.pendingOut := by
    rw [hbytes, hpending, List.take_append_drop]
  rw [hcode]
  refine ⟨h.advance [] ?_ ⟨hwf, ?_, fun hidle => ?_, fun hdata hpacked => ?_⟩ rfl ?_ ?_, rfl, ?_⟩
  · simp only [hframed]
    exact .refl _ _
  · simp only [hframed]
    exact h.sound.good
  · show window.pendingOut = []
    rw [hpending, h.sound.idle hidle, List.drop_nil]
  · have hchunk := h.sound.packed hdata hpacked
    refine ⟨?_, ?_, ?_⟩
    · show Good (settled (LzmaDecoder.view { c.decoder.decoder with window }))
      rw [hsettled]
      exact hchunk.good
    · show c.decoder.decoder.rcInitialized = false →
        Fits (settled (LzmaDecoder.view { c.decoder.decoder with window })) 1
      rw [hsettled]
      exact hchunk.fresh
    · have hcounted := hchunk.counted
      show c.decoder.chunkOutProduced + window.pendingOut.length ≤ c.decoder.decoder.decodedSize
      omega
  · show (c.out ++ bytes).length ≤ room
    rw [List.length_append, hbytes, List.length_take]
    omega
  · show c.out ++ c.decoder.decoder.window.pendingOut ++ [] = c.out ++ bytes ++ window.pendingOut
    rw [List.append_nil, List.append_assoc, hboth]
  · show window.pendingOut = [] ∨ (c.out ++ bytes).length = room
    rw [List.length_append, hbytes, hpending, List.length_take]
    by_cases hall : c.decoder.decoder.window.pendingOut.length ≤ c.room - c.out.length
    · exact .inl (List.drop_eq_nil_of_le hall)
    · right
      omega

end Lzma2Cursor

namespace Lzma2Decoder

open SymbolState FrameState Lzma2Cursor

/-- What a decode call does: it goes along the machine, and stops as it says. -/
structure FrameDecoded (d : Lzma2Decoder SlidingWindow) (input : List Byte) (room : Nat)
    (r : Lzma2DecodeResult) (d' : Lzma2Decoder SlidingWindow) : Prop where
  consumed : r.bytesConsumed ≤ input.length
  along : Along (framed d) input d.decoder.window.pendingOut room
    { decoder := d', input := input.drop r.bytesConsumed, out := r.produced, room }
  stopped : Stopped room
    { decoder := d', input := input.drop r.bytesConsumed, out := r.produced, room } r.status

theorem along_decoded {d : Lzma2Decoder SlidingWindow} {input : List Byte} {room : Nat}
    (hsound : Sound d) {c : Lzma2Cursor SlidingWindow}
    (h : Along (framed d) input d.decoder.window.pendingOut room c) {status : Lzma2DecodeStatus}
    (hstopped : Stopped room c status) :
    FrameDecoded d input room
      { bytesConsumed := input.length - c.input.length, produced := c.out, status } c.decoder := by
  obtain ⟨out, hrun, _⟩ := h.run
  obtain ⟨taken, htaken⟩ := hrun.suffix hsound.good
  have hdrop : input.drop (input.length - c.input.length) = c.input := by
    rw [← htaken, List.length_append, Nat.add_sub_cancel, List.drop_left]
  have hroom := h.sameRoom
  obtain ⟨decoder, rest, out', room'⟩ := c
  obtain rfl : room' = room := hroom
  refine ⟨Nat.sub_le _ _, ?_, ?_⟩
  · rw [hdrop]
    exact h
  · rw [hdrop]
    exact hstopped

/-- A call on a sound decoder does not fail. -/
theorem decode_frames {d : Lzma2Decoder SlidingWindow} (hsound : Sound d) (input : List Byte) (room : Nat) :
    ∃ r d', d.decode input room = .ok (r, d') ∧ FrameDecoded d input room r d' := by
  have hstart : Along (framed d) input d.decoder.window.pendingOut room
      { decoder := d, input, out := [], room } :=
    ⟨hsound, rfl, Nat.zero_le _, [], .refl _ _, by rw [List.append_nil, List.nil_append]⟩
  have hgoes : ∀ c : Lzma2Cursor SlidingWindow, Along (framed d) input d.decoder.window.pendingOut room c →
      c.input = input → ∃ r d',
        (do
          let (status, c) ← c.loop (2 * (input.length + room) + 3)
          return ({ bytesConsumed := input.length - c.input.length, produced := c.out, status }, c.decoder)
          : Except Fault (Lzma2DecodeResult × Lzma2Decoder SlidingWindow)) = .ok (r, d') ∧
        FrameDecoded d input room r d' := by
    intro c halong hinput
    have hroom := halong.sameRoom
    have hrank := stateRank_le c.decoder.state
    obtain ⟨status, c', hloop, halong', hstopped⟩ :=
      loop_stops (2 * (input.length + room) + 3) halong (by
        unfold Lzma2Cursor.weight
        rw [hinput, hroom]
        omega)
    rw [hloop]
    exact ⟨_, _, rfl, along_decoded hsound halong' hstopped⟩
  unfold decode
  simp only
  by_cases hpending : 0 < LzmaWindow.pendingLen d.decoder.window
  · simp only [if_pos hpending]
    obtain ⟨hdrained, hinput, hfull⟩ := hstart.drain
    split
    · next hleft =>
      have hout : (Lzma2Cursor.drain { decoder := d, input, out := [], room }).out.length = room := by
        rcases hfull with hnone | hfull
        · rcases hleft.2 with hleft | hleft
          · have hleft : 0 < (Lzma2Cursor.drain
              { decoder := d, input, out := [], room }).decoder.decoder.window.pendingOut.length := hleft
            rw [hnone] at hleft
            exact absurd hleft (Nat.lt_irrefl 0)
          · exact Nat.le_antisymm hdrained.fits hleft
        · exact hfull
      have hstate : ¬ (Lzma2Cursor.drain { decoder := d, input, out := [], room }).decoder.state = .finished := by
        intro hf
        have hf : d.state = .finished := hf
        have hnone := hsound.idle (.inl (by rw [hf]; simp))
        have hpending : 0 < d.decoder.window.pendingOut.length := hpending
        rw [hnone] at hpending
        exact absurd hpending (Nat.lt_irrefl 0)
      rw [if_neg hstate]
      have hdecoded := along_decoded hsound hdrained (.full hout)
      rw [hinput, Nat.sub_self] at hdecoded
      exact ⟨_, _, rfl, hdecoded⟩
    · exact hgoes _ hdrained hinput
  · simp only [if_neg hpending]
    rw [if_neg fun hf => hpending hf.1]
    exact hgoes _ hstart rfl

end Lzma2Decoder
end Iluvatar
