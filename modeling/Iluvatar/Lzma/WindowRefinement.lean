/-
A decode call on a sliding window does what it does on a history: the fast path, the rounds
of the loop, and the call.
-/
import Iluvatar.Lzma.Refinement

namespace Iluvatar

open Except

namespace LzmaDecoder

variable {d : LzmaDecoder SlidingWindow} {v : LzmaDecoder History} {input : List Byte}

/-! ## The fast path -/

theorem fastBit_shows (h : d.Shows v) (idx : Nat) :
    Refines Alike (d.fastBit idx input) (v.fastBit idx input) := by
  unfold fastBit
  apply bit_then h
  · exact Refines.error
  · intro b d v input h
    exact Refines.ok ⟨rfl, h, rfl⟩

theorem fastTree_shows (base : Nat) :
    ∀ n {m d v input}, Shows d v → Refines Alike (fastTree base n m d input) (fastTree base n m v input) := by
  intro n
  induction n with
  | zero => intro m d v input h; exact Refines.ok ⟨rfl, h, rfl⟩
  | succ n ih =>
    intro m d v input h
    rw [fastTree, fastTree]
    refine (fastBit_shows h _).bind ?_
    rintro ⟨b, d, input⟩ ⟨_, v, _⟩ ⟨rfl, h, rfl⟩
    exact ih h

theorem fastReverse_shows (base : Nat) :
    ∀ n {i m symbol d v input}, Shows d v →
      Refines Alike (fastReverse base n i m symbol d input) (fastReverse base n i m symbol v input) := by
  intro n
  induction n with
  | zero => intro i m symbol d v input h; exact Refines.ok ⟨rfl, h, rfl⟩
  | succ n ih =>
    intro i m symbol d v input h
    rw [fastReverse, fastReverse]
    refine (fastBit_shows h _).bind ?_
    rintro ⟨b, d, input⟩ ⟨_, v, _⟩ ⟨rfl, h, rfl⟩
    exact ih h

theorem fastDirect_shows :
    ∀ n {dist d v input}, Shows d v →
      Refines Alike (fastDirect n dist d input) (fastDirect n dist v input) := by
  intro n
  induction n with
  | zero => intro dist d v input h; exact Refines.ok ⟨rfl, h, rfl⟩
  | succ n ih =>
    intro dist d v input h
    obtain ⟨hwf, rfl⟩ := h
    simp only [fastDirect, view_rangeDecoder]
    cases hbit : d.rangeDecoder.decodeDirectBit input with
    | none => exact Refines.error
    | some r => exact ih ⟨hwf, rfl⟩

theorem fastMatched_shows (offset : Nat) :
    ∀ fuel {matchByte symbol d v input}, Shows d v →
      Refines Alike (fastMatched offset fuel matchByte symbol d input)
        (fastMatched offset fuel matchByte symbol v input) := by
  intro fuel
  induction fuel with
  | zero => intro matchByte symbol d v input h; exact Refines.error
  | succ fuel ih =>
    intro matchByte symbol d v input h
    rw [fastMatched, fastMatched]
    refine Refines.ite Iff.rfl (fun _ => Refines.ok ⟨rfl, h, rfl⟩) (fun _ => ?_)
    refine (fastBit_shows h _).bind ?_
    rintro ⟨b, d, input⟩ ⟨_, v, _⟩ ⟨rfl, h, rfl⟩
    exact Refines.ite Iff.rfl (fun _ => Refines.ok ⟨rfl, h, rfl⟩) (fun _ => ih h)

theorem fastPlain_shows (offset : Nat) :
    ∀ fuel {symbol d v input}, Shows d v →
      Refines Alike (fastPlain offset fuel symbol d input) (fastPlain offset fuel symbol v input) := by
  intro fuel
  induction fuel with
  | zero => intro symbol d v input h; exact Refines.error
  | succ fuel ih =>
    intro symbol d v input h
    rw [fastPlain, fastPlain]
    refine Refines.ite Iff.rfl (fun _ => Refines.ok ⟨rfl, h, rfl⟩) (fun _ => ?_)
    refine (fastBit_shows h _).bind ?_
    rintro ⟨b, d, input⟩ ⟨_, v, _⟩ ⟨rfl, h, rfl⟩
    exact ih h

theorem fastLen_shows (h : d.Shows v) (base posState : Nat) :
    Refines Alike (d.fastLen base posState input) (v.fastLen base posState input) := by
  have htree : ∀ (coder : LenCoder) {d v input}, Shows d v →
      Refines Alike
        (do
          let (m, d, input) ← fastTree (base + coder.offset posState) coder.numBits 1 d input
          return (coder.value m, d, input))
        (do
          let (m, d, input) ← fastTree (base + coder.offset posState) coder.numBits 1 v input
          return (coder.value m, d, input)) := by
    intro coder d v input h
    refine (fastTree_shows _ _ h).bind ?_
    rintro ⟨m, d, input⟩ ⟨_, v, _⟩ ⟨rfl, h, rfl⟩
    exact Refines.ok ⟨rfl, h, rfl⟩
  unfold fastLen
  refine (fastBit_shows h _).bind ?_
  rintro ⟨choice, d, input⟩ ⟨_, v, _⟩ ⟨rfl, h, rfl⟩
  refine Refines.ite Iff.rfl (fun _ => htree .low h) (fun _ => ?_)
  refine (fastBit_shows h _).bind ?_
  rintro ⟨choice2, d, input⟩ ⟨_, v, _⟩ ⟨rfl, h, rfl⟩
  exact Refines.ite Iff.rfl (fun _ => htree .mid h) (fun _ => htree .high h)

theorem fastDistance_shows (h : d.Shows v) (lenState : Nat) :
    Refines Alike (d.fastDistance lenState input) (v.fastDistance lenState input) := by
  unfold fastDistance
  refine (fastTree_shows _ _ h).bind ?_
  rintro ⟨m, d, input⟩ ⟨_, v, _⟩ ⟨rfl, h, rfl⟩
  refine Refines.ite Iff.rfl (fun _ => Refines.ok ⟨rfl, h, rfl⟩) (fun _ => ?_)
  refine Refines.ite Iff.rfl (fun _ => ?_) (fun _ => ?_)
  · refine (fastReverse_shows _ _ h).bind ?_
    rintro ⟨symbol, d, input⟩ ⟨_, v, _⟩ ⟨rfl, h, rfl⟩
    exact Refines.ok ⟨rfl, h, rfl⟩
  · refine (fastDirect_shows _ h).bind ?_
    rintro ⟨dist, d, input⟩ ⟨_, v, _⟩ ⟨rfl, h, rfl⟩
    refine (fastReverse_shows _ _ h).bind ?_
    rintro ⟨symbol, d, input⟩ ⟨_, v, _⟩ ⟨rfl, h, rfl⟩
    exact Refines.ok ⟨rfl, h, rfl⟩

/-- What a symbol of the fast path leaves. -/
def ShowsSymbol (s : FastSymbol SlidingWindow) (s' : FastSymbol History) : Prop :=
  s.decoder.Shows s'.decoder ∧ s.input = s'.input ∧ s.written = s'.written ∧ s.finish = s'.finish

theorem fastMatchedPart_shows (h : d.Shows v) (offset : Nat) :
    Refines Alike (d.fastMatchedPart offset input) (v.fastMatchedPart offset input) := by
  unfold fastMatchedPart
  have hbyte := getByte_shows h
  obtain ⟨hwf, rfl⟩ := h
  have h : d.Shows d.view := ⟨hwf, rfl⟩
  refine Refines.ite Iff.rfl (fun _ => ?_) (fun _ => Refines.ok ⟨rfl, h, rfl⟩)
  refine hbyte.bind ?_
  rintro matched _ rfl
  exact fastMatched_shows offset 9 h

/-- A byte goes into the window. -/
theorem Shows.withByte (h : d.Shows v) (b : Byte) (f : Nat → Nat) :
    Shows { d with
        window := LzmaWindow.putByteDirect d.window b
        state := f d.state
        decodedSize := d.decodedSize + 1 }
      { v with
        window := LzmaWindow.putByteDirect v.window b
        state := f v.state
        decodedSize := v.decodedSize + 1 } := by
  obtain ⟨hput, hview⟩ := h.window.putByteDirect b
  obtain ⟨hwf, rfl⟩ := h
  exact ⟨hput, congrArg (fun u : History => { d.view with
    window := u
    state := f d.state
    decodedSize := d.decodedSize + 1 }) hview⟩

theorem fastLiteral_shows (h : d.Shows v) :
    Refines ShowsSymbol (d.fastLiteral input) (v.fastLiteral input) := by
  unfold fastLiteral
  refine (prevByte_shows h).bind ?_
  rintro prev _ rfl
  rw [litState_shows h]
  refine (fastMatchedPart_shows h _).bind ?_
  rintro ⟨symbol, d, input⟩ ⟨_, v, _⟩ ⟨rfl, h, rfl⟩
  refine (fastPlain_shows _ _ h).bind ?_
  rintro ⟨symbol, d, input⟩ ⟨_, v, _⟩ ⟨rfl, h, rfl⟩
  exact Refines.ok ⟨h.withByte _ updateStateLiteral, rfl, rfl, rfl⟩

theorem emitMatch_shows (h : d.Shows v) (dist : UInt32) (len : Nat) :
    Refines ShowsSymbol (d.emitMatch input dist len) (v.emitMatch input dist len) := by
  unfold emitMatch
  have hcopy := fun n => h.window.copyMatchTo (dist.toNat + 1) n
  obtain ⟨hwf, rfl⟩ := h
  refine (hcopy (d.actualLen len)).bind ?_
  rintro ⟨written, window⟩ ⟨_, w'⟩ ⟨rfl, hwf', rfl⟩
  exact Refines.ok ⟨⟨hwf', rfl⟩, rfl, rfl, rfl⟩

theorem fastMatch_shows (h : d.Shows v) (posState : Nat) :
    Refines ShowsSymbol (d.fastMatch posState input) (v.fastMatch posState input) := by
  unfold fastMatch
  have hstart : Shows { d with reps := d.reps.shift, state := updateStateMatch d.state }
      { v with reps := v.reps.shift, state := updateStateMatch v.state } := by
    obtain ⟨hwf, rfl⟩ := h
    exact ⟨hwf, rfl⟩
  refine (fastLen_shows hstart _ _).bind ?_
  rintro ⟨len, d, input⟩ ⟨_, v, _⟩ ⟨rfl, h, rfl⟩
  refine (fastDistance_shows h _).bind ?_
  rintro ⟨dist, d, input⟩ ⟨_, v, _⟩ ⟨rfl, h, rfl⟩
  refine Refines.ite Iff.rfl (fun _ => Refines.ok ⟨h, rfl, rfl, rfl⟩) (fun _ => ?_)
  have hcheck : LzmaWindow.checkDistance d.window dist.toNat =
      LzmaWindow.checkDistance v.window dist.toNat := h.window.checkDistance _
  have hdict : d.dictSize = v.dictSize := by
    obtain ⟨_, rfl⟩ := h
    rfl
  refine Refines.ite (by rw [hcheck, hdict]) (fun _ => Refines.ok ⟨h, rfl, rfl, rfl⟩) (fun _ => ?_)
  exact emitMatch_shows (h.withReps fun r => { r with r0 := dist }) _ _

theorem fastRepMatch_shows (h : d.Shows v) (posState : Nat) :
    Refines ShowsSymbol (d.fastRepMatch posState input) (v.fastRepMatch posState input) := by
  unfold fastRepMatch
  have hstart : Shows { d with state := updateStateRep d.state } { v with state := updateStateRep v.state } := by
    obtain ⟨hwf, rfl⟩ := h
    exact ⟨hwf, rfl⟩
  refine (fastLen_shows hstart _ _).bind ?_
  rintro ⟨len, d, input⟩ ⟨_, v, _⟩ ⟨rfl, h, rfl⟩
  have hreps : d.reps = v.reps := by
    obtain ⟨_, rfl⟩ := h
    rfl
  simp only [hreps]
  exact emitMatch_shows h _ _

theorem fastRep_shows (h : d.Shows v) (posState : Nat) :
    Refines ShowsSymbol (d.fastRep posState input) (v.fastRep posState input) := by
  unfold fastRep
  have hempty := h.isEmpty
  obtain ⟨hwf, rfl⟩ := h
  have h : d.Shows d.view := ⟨hwf, rfl⟩
  refine Refines.ite (by rw [hempty]) (fun _ => Refines.ok ⟨h, rfl, rfl, rfl⟩) (fun _ => ?_)
  show Refines ShowsSymbol (d.fastBit (offIsRepG0 + d.state) input >>= _)
    (d.view.fastBit (offIsRepG0 + d.state) input >>= _)
  refine (fastBit_shows h _).bind ?_
  rintro ⟨isRepG0, d₁, input⟩ ⟨_, v, _⟩ ⟨rfl, h, rfl⟩
  refine Refines.ite Iff.rfl (fun _ => ?_) (fun _ => ?_)
  · refine (fastBit_shows h _).bind ?_
    rintro ⟨isLong, d₂, input⟩ ⟨_, v, _⟩ ⟨rfl, h, rfl⟩
    refine Refines.ite Iff.rfl (fun _ => ?_) (fun _ => fastRepMatch_shows h posState)
    refine (getByte_shows h).bind ?_
    rintro b _ rfl
    exact Refines.ok ⟨h.withByte b updateStateShortRep, rfl, rfl, rfl⟩
  · refine (fastBit_shows h _).bind ?_
    rintro ⟨isRepG1, d₂, input⟩ ⟨_, v, _⟩ ⟨rfl, h, rfl⟩
    refine Refines.ite Iff.rfl (fun _ => fastRepMatch_shows (h.withReps Reps.takeRep1) posState) (fun _ => ?_)
    refine (fastBit_shows h _).bind ?_
    rintro ⟨isRepG2, d₃, input⟩ ⟨_, v, _⟩ ⟨rfl, h, rfl⟩
    exact Refines.ite Iff.rfl (fun _ => fastRepMatch_shows (h.withReps Reps.takeRep2) posState)
      (fun _ => fastRepMatch_shows (h.withReps Reps.takeRep3) posState)

theorem fastSymbol_shows (h : d.Shows v) :
    Refines ShowsSymbol (d.fastSymbol input) (v.fastSymbol input) := by
  unfold fastSymbol
  obtain ⟨hwf, rfl⟩ := h
  have h : d.Shows d.view := ⟨hwf, rfl⟩
  have hpos : d.view.posState = d.posState := rfl
  simp only [hpos]
  show Refines ShowsSymbol
    (d.fastBit (offIsMatch + (d.state * kNumPosStatesMax + d.posState)) input >>= _)
    (d.view.fastBit (offIsMatch + (d.state * kNumPosStatesMax + d.posState)) input >>= _)
  refine (fastBit_shows h _).bind ?_
  rintro ⟨isMatch, d₁, input⟩ ⟨_, v, _⟩ ⟨rfl, h, rfl⟩
  refine Refines.ite Iff.rfl (fun _ => fastLiteral_shows h) (fun _ => ?_)
  refine (fastBit_shows h _).bind ?_
  rintro ⟨isRep, d₂, input⟩ ⟨_, v, _⟩ ⟨rfl, h, rfl⟩
  exact Refines.ite Iff.rfl (fun _ => fastMatch_shows h _) (fun _ => fastRep_shows h _)

/-! ## Rounds -/

/-- A call on a window and the one on the history. -/
def Cursor.Shows (c : Cursor SlidingWindow) (c' : Cursor History) : Prop :=
  c.decoder.Shows c'.decoder ∧ c.input = c'.input ∧ c.out = c'.out ∧ c.room = c'.room

variable {c : Cursor SlidingWindow} {c' : Cursor History}

theorem decodeFast_shows :
    ∀ fuel {c : Cursor SlidingWindow} {c' : Cursor History}, c.Shows c' →
      Refines Cursor.Shows (decodeFast fuel c) (decodeFast fuel c') := by
  intro fuel
  induction fuel with
  | zero => intro c c' h; exact Refines.error
  | succ fuel ih =>
    rintro ⟨d, input, out, room⟩ ⟨v, _, _, _⟩ ⟨h, rfl, rfl, rfl⟩
    rw [decodeFast, decodeFast]
    refine Refines.ite Iff.rfl (fun _ => Refines.ok ⟨h, rfl, rfl, rfl⟩) (fun _ => ?_)
    have hreached : d.reachedUnpackSize = v.reachedUnpackSize := by
      obtain ⟨_, rfl⟩ := h
      rfl
    refine Refines.ite (by rw [hreached]) (fun _ => Refines.ok ⟨h, rfl, rfl, rfl⟩) (fun _ => ?_)
    refine (fastSymbol_shows h).bind ?_
    rintro ⟨d, input, written, finish⟩ ⟨v, _, _, _⟩ ⟨h, rfl, rfl, rfl⟩
    refine Refines.ite Iff.rfl (fun _ => Refines.error) (fun _ => ?_)
    cases finish with
    | none => exact ih ⟨h, rfl, rfl, rfl⟩
    | some status => exact Refines.ok ⟨h.withPhase _, rfl, rfl, rfl⟩

theorem Cursor.Shows.drain (h : c.Shows c') : c.drain.Shows c'.drain := by
  obtain ⟨d, input, out, room⟩ := c
  obtain ⟨v, _, _, _⟩ := c'
  obtain ⟨h, rfl, rfl, rfl⟩ := h
  obtain ⟨hdrained, hwindow⟩ := h.window.drainOutput (room - out.length)
  exact ⟨h.withWindow hwindow, rfl, congrArg (out ++ ·) hdrained, rfl⟩

theorem copyBytes_shows (dist : Nat) :
    ∀ n {w : SlidingWindow} {u : History}, w.Shows u →
      Refines SlidingWindow.Shows (copyBytes dist n w) (copyBytes dist n u) := by
  intro n
  induction n with
  | zero => intro w u h; exact Refines.ok h
  | succ n ih =>
    intro w u h
    rw [copyBytes, copyBytes]
    refine (h.getByte dist).bind ?_
    rintro b _ rfl
    exact ih (h.putByte b)

/-- What a round of the loop comes to. -/
def ShowsRound (r : Option LzmaDecodeStatus × Cursor SlidingWindow)
    (r' : Option LzmaDecodeStatus × Cursor History) : Prop :=
  r.1 = r'.1 ∧ r.2.Shows r'.2

theorem resume_shows {α : Type} (h : c.Shows c') {r : Except Fault (Resumed SlidingWindow α)}
    {r' : Except Fault (Resumed History α)} (hr : Refines Resumes r r')
    {k : α → Cursor SlidingWindow → Cursor SlidingWindow} {k' : α → Cursor History → Cursor History}
    (hk : ∀ a c c', Cursor.Shows c c' → (k a c).Shows (k' a c')) :
    Refines ShowsRound (do return c.resume (← r) k) (do return c'.resume (← r') k') := by
  obtain ⟨d, input, out, room⟩ := c
  obtain ⟨v, _, _, _⟩ := c'
  obtain ⟨_, rfl, rfl, rfl⟩ := h
  refine hr.bind ?_
  rintro ⟨value, d, input⟩ ⟨_, v, _⟩ ⟨rfl, h, rfl⟩
  cases value with
  | none => exact Refines.ok ⟨rfl, h, rfl, rfl, rfl⟩
  | some a => exact Refines.ok ⟨rfl, hk a _ _ ⟨h, rfl, rfl, rfl⟩⟩

theorem startCopyMatch_shows (h : d.Shows v) (dist : UInt32) (len : Nat) :
    (d.startCopyMatch dist len).Shows (v.startCopyMatch dist len) := by
  obtain ⟨hwf, rfl⟩ := h
  exact ⟨hwf, rfl⟩

theorem afterLength_shows (h : d.Shows v) (matchType : MatchType) (len : Nat) :
    (d.afterLength matchType len).Shows (v.afterLength matchType len) := by
  obtain ⟨hwf, rfl⟩ := h
  cases matchType <;> exact ⟨hwf, rfl⟩

theorem afterDistance_shows (h : d.Shows v) (len : Nat) (dist : UInt32) :
    (d.afterDistance len dist).Shows (v.afterDistance len dist) := by
  have hcheck : LzmaWindow.checkDistance d.window dist.toNat =
      LzmaWindow.checkDistance v.window dist.toNat := h.window.checkDistance _
  obtain ⟨hwf, rfl⟩ := h
  have h : d.Shows d.view := ⟨hwf, rfl⟩
  have hdict : d.view.dictSize = d.dictSize := rfl
  unfold afterDistance
  rw [hcheck, hdict]
  by_cases hmark : dist = 0xFFFFFFFF
  · rw [if_pos hmark, if_pos hmark]
    exact h.withPhase _
  · rw [if_neg hmark, if_neg hmark]
    by_cases hfar : d.dictSize ≤ dist ∨ ¬ LzmaWindow.checkDistance d.view.window dist.toNat = true
    · rw [if_pos hfar, if_pos hfar]
      exact h.withPhase _
    · rw [if_neg hfar, if_neg hfar]
      exact startCopyMatch_shows (h.withReps fun r => { r with r0 := dist }) dist len

theorem decodeNewSymbol_shows (h : c.Shows c') :
    Refines ShowsRound (decodeNewSymbol c) (decodeNewSymbol c') := by
  unfold decodeNewSymbol
  have hroom : c.room = c'.room := h.2.2.2
  rw [hroom]
  refine (decodeFast_shows _ h).bind ?_
  rintro ⟨d, input, out, room⟩ ⟨v, _, _, _⟩ ⟨h, rfl, rfl, rfl⟩
  obtain ⟨hwf, rfl⟩ := h
  have h : d.Shows d.view := ⟨hwf, rfl⟩
  refine Refines.ite Iff.rfl (fun _ => Refines.ok ⟨rfl, h, rfl, rfl, rfl⟩) (fun _ => ?_)
  refine Refines.ite Iff.rfl (fun _ => Refines.ok ⟨rfl, h.withPhase _, rfl, rfl, rfl⟩) (fun _ => ?_)
  have hpos : d.view.posState = d.posState := rfl
  simp only [hpos]
  show Refines ShowsRound (d.bit (offIsMatch + (d.state * kNumPosStatesMax + d.posState)) input >>= _)
    (d.view.bit (offIsMatch + (d.state * kNumPosStatesMax + d.posState)) input >>= _)
  apply bit_then h
  · exact Refines.ok ⟨rfl, h, rfl, rfl, rfl⟩
  · intro b d₁ v₁ rest h
    refine Refines.ite Iff.rfl (fun _ => ?_) (fun _ => ?_)
    · refine (startLiteralDecode_shows h).bind ?_
      intro d₂ v₂ h
      exact Refines.ok ⟨rfl, h, rfl, rfl, rfl⟩
    · exact resume_shows (c := { decoder := d, input, out, room }) ⟨⟨hwf, rfl⟩, rfl, rfl, rfl⟩
        (decodeIsRep_shows h rest d.posState) (fun _ _ _ h => h)

theorem decodeCopyMatch_shows (h : c.Shows c') (dist : UInt32) (remaining : Nat) :
    Refines ShowsRound (decodeCopyMatch c dist remaining) (decodeCopyMatch c' dist remaining) := by
  obtain ⟨d, input, out, room⟩ := c
  obtain ⟨v, _, _, _⟩ := c'
  obtain ⟨h, rfl, rfl, rfl⟩ := h
  unfold decodeCopyMatch
  refine (copyBytes_shows _ _ h.window).bind ?_
  intro w u hw
  have hwritten : Cursor.Shows { decoder := { d with window := w }, input, out, room }
      { decoder := { v with window := u }, input, out, room } := ⟨h.withWindow hw, rfl, rfl, rfl⟩
  have hdrain := hwritten.drain
  have hlater : ∀ (phase : DecodePhase) (n : Nat) (e : Cursor SlidingWindow) (e' : Cursor History),
      e.Shows e' →
      Cursor.Shows
        { e with decoder := { e.decoder with decodedSize := e.decoder.decodedSize + n, phase } }
        { e' with decoder := { e'.decoder with decodedSize := e'.decoder.decodedSize + n, phase } } := by
    rintro phase n ⟨d, input, out, room⟩ ⟨v, _, _, _⟩ ⟨⟨hwf, rfl⟩, rfl, rfl, rfl⟩
    exact ⟨⟨hwf, rfl⟩, rfl, rfl, rfl⟩
  exact Refines.ite Iff.rfl (fun _ => Refines.ok ⟨rfl, hlater _ _ _ _ hdrain⟩)
    (fun _ => Refines.ok ⟨rfl, hlater _ _ _ _ hdrain⟩)

theorem decodePhase_shows (h : c.Shows c') : Refines ShowsRound (decodePhase c) (decodePhase c') := by
  obtain ⟨d, input, out, room⟩ := c
  obtain ⟨v, _, _, _⟩ := c'
  have hcursor := h
  obtain ⟨hd, rfl, rfl, rfl⟩ := h
  have hphase : d.phase = v.phase := by
    obtain ⟨_, rfl⟩ := hd
    rfl
  unfold decodePhase
  simp only [hphase]
  cases v.phase with
  | finished status => exact Refines.ok ⟨rfl, hcursor⟩
  | copyMatch dist remaining => exact decodeCopyMatch_shows hcursor dist remaining
  | newSymbol => exact decodeNewSymbol_shows hcursor
  | needIsRep posState => exact resume_shows hcursor (decodeIsRep_shows hd input posState) (fun _ _ _ h => h)
  | needRepG0 posState => exact resume_shows hcursor (decodeRepType_shows hd input posState) (fun _ _ _ h => h)
  | needRep0Long posState =>
    exact resume_shows hcursor (decodeRep0Long_shows hd input posState) (fun _ _ _ h => h)
  | needRepG1 posState => exact resume_shows hcursor (decodeRepG1_shows hd input posState) (fun _ _ _ h => h)
  | needRepG2 posState => exact resume_shows hcursor (decodeRepG2_shows hd input posState) (fun _ _ _ h => h)
  | literal ls =>
    refine resume_shows hcursor (continueLiteralDecode_shows hd input _ ls) ?_
    rintro drained ⟨d, input, out, room⟩ ⟨v, _, _, _⟩ ⟨h, rfl, rfl, rfl⟩
    exact ⟨h, rfl, rfl, rfl⟩
  | matchLength matchType =>
    refine resume_shows hcursor (decodeLength_shows hd input) ?_
    rintro len ⟨d, input, out, room⟩ ⟨v, _, _, _⟩ ⟨h, rfl, rfl, rfl⟩
    exact ⟨afterLength_shows h matchType len, rfl, rfl, rfl⟩
  | matchDistance len lenState =>
    refine resume_shows hcursor (decodeDistance_shows hd input) ?_
    rintro dist ⟨d, input, out, room⟩ ⟨v, _, _, _⟩ ⟨h, rfl, rfl, rfl⟩
    exact ⟨afterDistance_shows h len dist, rfl, rfl, rfl⟩

/-- As many bytes are pending. -/
theorem Cursor.Shows.pendingLen (h : c.Shows c') :
    LzmaWindow.pendingLen c.decoder.window = LzmaWindow.pendingLen c'.decoder.window := by
  obtain ⟨_, hview⟩ := h.1.window
  rw [← hview]
  rfl

theorem decodeOnce_shows (h : c.Shows c') : Refines ShowsRound (decodeOnce c) (decodeOnce c') := by
  unfold decodeOnce
  have hpending := h.pendingLen
  have hdrained := h.drain.pendingLen
  have hlength : c.drain.room ≤ c.drain.out.length ↔ c'.drain.room ≤ c'.drain.out.length := by
    rw [h.drain.2.2.1, h.drain.2.2.2]
  refine Refines.ite (by rw [hpending]) (fun _ => ?_) (fun _ => decodePhase_shows h)
  exact Refines.ite (or_congr (by rw [hdrained]) hlength) (fun _ => Refines.ok ⟨rfl, h.drain⟩)
    (fun _ => decodePhase_shows h.drain)

theorem decodeLoop_shows :
    ∀ fuel {c : Cursor SlidingWindow} {c' : Cursor History}, c.Shows c' →
      Refines (Both Eq Cursor.Shows) (decodeLoop fuel c) (decodeLoop fuel c') := by
  intro fuel
  induction fuel with
  | zero => intro c c' h; exact Refines.error
  | succ fuel ih =>
    intro c c' h
    rw [decodeLoop, decodeLoop]
    refine (decodeOnce_shows h).bind ?_
    rintro ⟨status, c⟩ ⟨_, c'⟩ ⟨rfl, h⟩
    cases status with
    | none => exact ih h
    | some status => exact Refines.ok ⟨rfl, h⟩

/-! ## The call -/

theorem Cursor.Shows.initRange (h : c.Shows c') :
    c.initRange.1 = c'.initRange.1 ∧ c.initRange.2.Shows c'.initRange.2 := by
  obtain ⟨d, input, out, room⟩ := c
  obtain ⟨v, _, _, _⟩ := c'
  obtain ⟨⟨hwf, rfl⟩, rfl, rfl, rfl⟩ := h
  unfold Cursor.initRange
  have hinit : d.view.rcInitialized = d.rcInitialized := rfl
  simp only [hinit, view_rangeDecoder]
  by_cases hready : d.rcInitialized = true
  · rw [if_pos hready, if_pos hready]
    exact ⟨rfl, ⟨hwf, rfl⟩, rfl, rfl, rfl⟩
  · rw [if_neg hready, if_neg hready]
    exact ⟨rfl, ⟨hwf, rfl⟩, rfl, rfl, rfl⟩

theorem decodeFrom_shows (h : c.Shows c') :
    Refines (Both Eq Cursor.Shows) (decodeFrom c) (decodeFrom c') := by
  obtain ⟨hready, hcursor⟩ := h.initRange
  unfold decodeFrom
  revert hready hcursor
  generalize c.initRange = r
  generalize c'.initRange = r'
  obtain ⟨ready, c⟩ := r
  obtain ⟨ready', c'⟩ := r'
  rintro rfl h
  have hroom : c.room = c'.room := h.2.2.2
  cases ready with
  | false => exact Refines.ok ⟨rfl, h⟩
  | true =>
    simp only [hroom]
    exact decodeLoop_shows _ h

theorem finish_shows (h : c.Shows c') (input : List Byte) (status : LzmaDecodeStatus) :
    Both Eq Shows (c.finish input status) (c'.finish input status) := by
  obtain ⟨d, rest, out, room⟩ := c
  obtain ⟨v, _, _, _⟩ := c'
  obtain ⟨h, rfl, rfl, rfl⟩ := h
  exact ⟨rfl, h⟩

theorem drainedStatus_shows (h : c.Shows c') : c.drainedStatus = c'.drainedStatus := by
  have hpending := h.pendingLen
  have hphase : c.decoder.phase = c'.decoder.phase := by
    obtain ⟨⟨_, hview⟩, _⟩ := h
    rw [← hview]
    rfl
  unfold Cursor.drainedStatus
  rw [hpending, hphase]

/-- A call on a sliding window. -/
theorem decode_shows (h : d.Shows v) (input : List Byte) (room : Nat) :
    Refines (Both Eq Shows) (d.decode input room) (v.decode input room) := by
  unfold decode
  have hstart : Cursor.Shows { decoder := d, input, out := [], room } { decoder := v, input, out := [], room } :=
    ⟨h, rfl, rfl, rfl⟩
  have hpending := hstart.pendingLen
  simp only at hpending
  simp only [hpending]
  have hdrained : Cursor.Shows
      (if 0 < LzmaWindow.pendingLen v.window then
        Cursor.drain { decoder := d, input, out := [], room }
      else { decoder := d, input, out := [], room })
      (if 0 < LzmaWindow.pendingLen v.window then
        Cursor.drain { decoder := v, input, out := [], room }
      else { decoder := v, input, out := [], room }) := by
    by_cases hsome : 0 < LzmaWindow.pendingLen v.window
    · rw [if_pos hsome, if_pos hsome]
      exact hstart.drain
    · rw [if_neg hsome, if_neg hsome]
      exact hstart
  revert hdrained
  generalize (if 0 < LzmaWindow.pendingLen v.window then
    Cursor.drain { decoder := d, input, out := [], room } else { decoder := d, input, out := [], room }) = c
  generalize (if 0 < LzmaWindow.pendingLen v.window then
    Cursor.drain { decoder := v, input, out := [], room } else { decoder := v, input, out := [], room }) = c'
  intro h
  rw [h.pendingLen, h.2.2.1, drainedStatus_shows h]
  refine Refines.ite Iff.rfl (fun _ => Refines.ok (finish_shows h input _)) (fun _ => ?_)
  refine (decodeFrom_shows h).bind ?_
  rintro ⟨status, c⟩ ⟨_, c'⟩ ⟨rfl, h⟩
  exact Refines.ok (finish_shows h input status)

end LzmaDecoder
end Iluvatar
