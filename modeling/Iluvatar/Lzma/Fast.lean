/-
The fast path follows the symbol machine too: with input enough for a whole symbol, it does
what the resumable functions would.
-/
import Iluvatar.Library.Fallible
import Iluvatar.Lzma.Follows

namespace Iluvatar

open Sansio

namespace LzmaDecoder

variable {β : Type}

/-- Go on with the value of a resumable function, which must have one. -/
def whole {α : Type} (k : α × SymbolState × List Byte → Except Fault β) (r : Resumed History α) :
    Except Fault β :=
  match r.value with
  | none => .error .panic
  | some a => k (a, r.decoder, r.input)

theorem fastBit_bind (d : SymbolState) (idx : Nat) (input : List Byte)
    (k : Nat × SymbolState × List Byte → Except Fault β) :
    d.fastBit idx input >>= k =
      d.bit idx input >>= fun
        | none => .error .panic
        | some r => k r := by
  unfold fastBit
  match d.bit idx input with
  | .error f => rfl
  | .ok none => rfl
  | .ok (some r) => rfl

theorem fastTree_bind (base : Nat) (k : Nat × SymbolState × List Byte → Except Fault β) :
    ∀ n m d input, fastTree base n m d input >>= k =
      bitTree base n m d input >>= fun r =>
        if r.2.1 = 0 then k (r.1, r.2.2.1, r.2.2.2) else .error .panic := by
  intro n
  induction n with
  | zero => intro m d input; rfl
  | succ n ih =>
    intro m d input
    rw [fastTree, bitTree, bind_assoc, bind_assoc, fastBit_bind]
    rcases d.bit (base + m) input with f | _ | ⟨b, d, input⟩
    · rfl
    · rfl
    · exact ih (2 * m + b) d input

theorem fastReverse_bind (base : Nat) (k : UInt32 × SymbolState × List Byte → Except Fault β) :
    ∀ n i m symbol d input, fastReverse base n i m symbol d input >>= k =
      reverseBits base n i m symbol d input >>= fun r =>
        if r.1 = 0 then k (r.2.2.2.1, r.2.2.2.2.1, r.2.2.2.2.2) else .error .panic := by
  intro n
  induction n with
  | zero => intro i m symbol d input; rfl
  | succ n ih =>
    intro i m symbol d input
    rw [fastReverse, reverseBits, bind_assoc, bind_assoc, fastBit_bind]
    rcases d.bit (base + m) input with f | _ | ⟨b, d, input⟩
    · rfl
    · rfl
    · exact ih _ _ _ d input

theorem fastDirect_bind (k : UInt32 × SymbolState × List Byte → Except Fault β) :
    ∀ n dist d input, fastDirect n dist d input >>= k =
      if (directBits n dist d input).1 = 0 then k (directBits n dist d input).2
      else .error .panic := by
  intro n
  induction n with
  | zero => intro dist d input; rfl
  | succ n ih =>
    intro dist d input
    rw [fastDirect, directBits]
    rcases d.rangeDecoder.decodeDirectBit input with _ | ⟨b, rangeDecoder, rest⟩
    · rfl
    · exact ih _ _ rest

theorem fastLenTree_bind (lds : LenDecodeState) (coder : LenCoder) (m n : Nat) (d : SymbolState)
    (input : List Byte) (k : Nat × SymbolState × List Byte → Except Fault β) :
    (fastTree (lenBase lds.isRep + coder.offset lds.posState) n m d input >>= fun r =>
        k (coder.value r.1, r.2)) =
      d.decodeLenTree input lds coder m n >>= whole k := by
  rw [fastTree_bind, decodeLenTree, bind_assoc]
  congr 1
  funext r
  obtain ⟨m, n, d, input⟩ := r
  by_cases hdone : n = 0
  · simp only [if_pos hdone]
    rfl
  · simp only [if_neg hdone]
    rfl

theorem fastLen_bind (lds : LenDecodeState) (d : SymbolState) (input : List Byte)
    (k : Nat × SymbolState × List Byte → Except Fault β) :
    d.fastLen (lenBase lds.isRep) lds.posState input >>= k =
      d.decodeLenChoice input lds >>= whole k := by
  rw [fastLen, decodeLenChoice, bind_assoc, bind_assoc, fastBit_bind]
  rcases d.bit (lenBase lds.isRep) input with f | _ | ⟨choice, d, input⟩
  · rfl
  · rfl
  · show (ite _ _ _ : Except Fault _) >>= k = (ite _ _ _ : Except Fault _) >>= whole k
    by_cases hlow : choice = 0
    · rw [if_pos hlow, if_pos hlow, bind_assoc]
      exact fastLenTree_bind lds .low 1 kLenNumLowBits d input k
    · rw [if_neg hlow, if_neg hlow, decodeLenChoice2, bind_assoc, bind_assoc, fastBit_bind]
      rcases d.bit (lenBase lds.isRep + 1) input with f | _ | ⟨choice2, d, input⟩
      · rfl
      · rfl
      · show (ite _ _ _ : Except Fault _) >>= k = (ite _ _ _ : Except Fault _) >>= whole k
        by_cases hmid : choice2 = 0
        · rw [if_pos hmid, if_pos hmid, bind_assoc]
          exact fastLenTree_bind lds .mid 1 kLenNumMidBits d input k
        · rw [if_neg hmid, if_neg hmid, bind_assoc]
          exact fastLenTree_bind lds .high 1 kLenNumHighBits d input k

theorem fastAlign_bind (lenState : Nat) (dist : UInt32) (d : SymbolState) (input : List Byte)
    (k : UInt32 × SymbolState × List Byte → Except Fault β) :
    (fastReverse offAlign kNumAlignBits 0 1 0 d input >>= fun r => k (dist ||| r.1, r.2)) =
      d.decodeAlignBits input lenState dist 1 0 0 >>= whole k := by
  rw [fastReverse_bind, decodeAlignBits, bind_assoc]
  congr 1
  funext r
  obtain ⟨n, i, m, symbol, d, input⟩ := r
  by_cases hdone : n = 0
  · simp only [if_pos hdone]
    rfl
  · simp only [if_neg hdone]
    rfl

theorem fastSpecPos_bind (lenState : Nat) (dist : UInt32) (probsOffset numBits : Nat)
    (d : SymbolState) (input : List Byte)
    (k : UInt32 × SymbolState × List Byte → Except Fault β) :
    (fastReverse probsOffset numBits 0 1 0 d input >>= fun r => k (dist + r.1, r.2)) =
      d.decodeSpecPosBits input lenState dist probsOffset 1 0 0 numBits >>= whole k := by
  rw [fastReverse_bind, decodeSpecPosBits, bind_assoc]
  congr 1
  funext r
  obtain ⟨n, i, m, symbol, d, input⟩ := r
  by_cases hdone : n = 0
  · simp only [if_pos hdone]
    rfl
  · simp only [if_neg hdone]
    rfl

theorem fastDistance_bind (lenState : Nat) (d : SymbolState) (input : List Byte)
    (k : UInt32 × SymbolState × List Byte → Except Fault β) :
    d.fastDistance lenState input >>= k = d.decodePosSlot input lenState 1 6 >>= whole k := by
  rw [fastDistance, decodePosSlot, bind_assoc, bind_assoc, fastTree_bind]
  congr 1
  funext r
  obtain ⟨m, n, d, input⟩ := r
  by_cases hdone : n = 0
  · simp only [if_pos hdone]
    by_cases hstart : m - 64 < kStartPosModelIndex
    · simp only [if_pos hstart]
      rfl
    · by_cases hend : m - 64 < kEndPosModelIndex
      · simp only [if_neg hstart, if_pos hend, bind_assoc]
        exact fastSpecPos_bind _ _ _ _ d input k
      · simp only [if_neg hstart, if_neg hend, bind_assoc]
        rw [fastDirect_bind, decodeDirectBits]
        simp only
        by_cases hdirect : (directBits ((m - 64) / 2 - 1 - kNumAlignBits)
            (UInt32.ofNat (2 + (m - 64) % 2)) d input).1 = 0
        · rw [if_pos hdirect, if_pos hdirect]
          exact fastAlign_bind lenState _ _ _ k
        · rw [if_neg hdirect, if_neg hdirect]
          rfl
  · simp only [if_neg hdone]
    rfl

theorem fastMatched_bind (offset : Nat) (k : Nat × SymbolState × List Byte → Except Fault β) :
    ∀ fuel ls d input, fastMatched offset fuel ls.matchByte ls.symbol d input >>= k =
      matchedLiteral offset fuel ls d input >>= whole fun r => k (r.1.symbol, r.2) := by
  intro fuel
  induction fuel with
  | zero => intro ls d input; rfl
  | succ fuel ih =>
    intro ls d input
    rw [fastMatched, matchedLiteral]
    by_cases hfull : 0x100 ≤ ls.symbol
    · rw [if_pos hfull, if_pos hfull]
      rfl
    · rw [if_neg hfull, if_neg hfull]
      simp only [bind_assoc]
      rw [fastBit_bind]
      rcases d.bit (offset + (1 + (ls.matchByte >>> 7).toNat % 2) * 0x100 + ls.symbol) input with
        f | _ | ⟨b, d, input⟩
      · rfl
      · rfl
      · show (ite _ _ _ : Except Fault _) >>= k = (ite _ _ _ : Except Fault _) >>= _
        by_cases hdiffer : (ls.matchByte >>> 7).toNat % 2 ≠ b
        · rw [if_pos hdiffer, if_pos hdiffer]
          rfl
        · rw [if_neg hdiffer, if_neg hdiffer]
          exact ih { ls with matchByte := ls.matchByte <<< 1, symbol := 2 * ls.symbol + b } d input

theorem fastPlain_bind (offset : Nat) (k : Nat × SymbolState × List Byte → Except Fault β) :
    ∀ fuel ls d input, fastPlain offset fuel ls.symbol d input >>= k =
      plainLiteral offset fuel ls d input >>= whole fun r => k (r.1.symbol, r.2) := by
  intro fuel
  induction fuel with
  | zero => intro ls d input; rfl
  | succ fuel ih =>
    intro ls d input
    rw [fastPlain, plainLiteral]
    by_cases hfull : 0x100 ≤ ls.symbol
    · rw [if_pos hfull, if_pos hfull]
      rfl
    · rw [if_neg hfull, if_neg hfull]
      simp only [bind_assoc]
      rw [fastBit_bind]
      rcases d.bit (offset + ls.symbol) input with f | _ | ⟨b, d, input⟩
      · rfl
      · rfl
      · exact ih { ls with symbol := 2 * ls.symbol + b } d input

end LzmaDecoder

namespace SymbolState

open LzmaDecoder LzmaWindow

variable {d start : SymbolState} {input rest : List Byte} {idx : Nat}

/-- The fast path reads on where there is no input. -/
def unchecked : Answers (FastSymbol History) (Option LzmaDecodeStatus × List Byte) where
  need _ _ := .error .panic
  value a d rest := { decoder := d, input := rest, written := a.2, finish := a.1 }

/-- The decoder a symbol of the fast path leaves. -/
def finished (finish : Option LzmaDecodeStatus) (d : SymbolState) : SymbolState :=
  match finish with
  | none => d
  | some status => { d with phase := .finished status }

def afterSymbol (a : Option LzmaDecodeStatus × List Byte) (d : SymbolState)
    (r : SymbolState × List Byte) : Prop :=
  (finished a.1 d, a.2) = r

/-- Between two symbols nothing is half decoded. -/
def bare (d : SymbolState) : SymbolState :=
  { d with phase := .newSymbol, lenDecodeState := none, distDecodeState := none }

theorem Follows.ofFastBit {k : Nat → SymbolState → Except Fault (SymbolState × List Byte)}
    {f : Nat × SymbolState × List Byte → Except Fault (FastSymbol History)}
    (hrange : start.rangeDecoder = d.rangeDecoder) (hprobs : start.probs = d.probs)
    (hstep : SymbolState.step start input = onBit start idx input k)
    (hbit : ∀ b rangeDecoder probs rest, Continues unchecked rest afterSymbol
      (k b { start with rangeDecoder, probs }) (f (b, { d with rangeDecoder, probs }, rest))) :
    Follows unchecked start input afterSymbol (d.fastBit idx input >>= f) := by
  rw [fastBit_bind]
  exact .ofBit hrange hprobs hstep rfl hbit

/-- A match is copied byte by byte. -/
theorem copy_runs (hinit : d.rcInitialized = true) (dist : UInt32) (input : List Byte) :
    ∀ n w k bs w', History.copyMatchTo (dist.toNat + 1) n w = .ok (bs, w') →
      symbolMachine.Runs { d with window := w, decodedSize := k, phase := .copyMatch dist n } input bs
        { d with window := w', decodedSize := k + n, phase := .newSymbol } input := by
  intro n
  induction n with
  | zero =>
    intro w k bs w' h
    obtain ⟨rfl, rfl⟩ := Prod.mk.inj (Except.ok.inj h)
    refine Machine.Runs.single ?_
    show SymbolState.step _ _ = _
    rw [SymbolState.step, if_pos hinit]
    rfl
  | succ n ih =>
    intro w k bs w' h
    rw [History.copyMatchTo] at h
    cases hbyte : w.getByte (dist.toNat + 1) with
    | error f =>
      rw [hbyte] at h
      exact absurd h (by simp [bind, Except.bind])
    | ok b =>
      rw [hbyte] at h
      rcases hmore : History.copyMatchTo (dist.toNat + 1) n (w.put b) with f | ⟨bs', w₁⟩
      · simp [hmore, bind, Except.bind] at h
      · simp only [hmore, bind, Except.bind, pure, Except.pure, Except.ok.injEq, Prod.mk.injEq] at h
        obtain ⟨rfl, rfl⟩ := h
        have hrun := ih (w.put b) (k + 1) bs' w₁ hmore
        rw [Nat.add_assoc, Nat.add_comm 1 n] at hrun
        have hstep : SymbolState.step
            { d with window := w, decodedSize := k, phase := .copyMatch dist (n + 1) } input =
            .move { d with
              window := w.put b, decodedSize := k + 1, phase := .copyMatch dist n } input [b] := by
          rw [SymbolState.step, if_pos hinit]
          have hread : LzmaWindow.getByte w (dist.toNat + 1) = .ok b := hbyte
          simp only [copyStep, hread]
        exact Machine.Runs.step hstep hrun

/-- Where a match cannot be copied, the machine fails. -/
theorem copy_fails (hinit : d.rcInitialized = true) (dist : UInt32) (input : List Byte) {f : Fault} :
    ∀ n w k, History.copyMatchTo (dist.toNat + 1) n w = .error f →
      ∃ out d', symbolMachine.Runs
          { d with window := w, decodedSize := k, phase := .copyMatch dist n } input out d' input ∧
        step d' input = .halt (.error f) := by
  intro n
  induction n with
  | zero => intro w k h; exact absurd h (by simp [History.copyMatchTo])
  | succ n ih =>
    intro w k h
    rw [History.copyMatchTo] at h
    have hstep : step { d with window := w, decodedSize := k, phase := .copyMatch dist (n + 1) } input =
        copyStep { d with window := w, decodedSize := k, phase := .copyMatch dist (n + 1) } dist (n + 1) input := by
      rw [SymbolState.step, if_pos hinit]
    cases hbyte : w.getByte (dist.toNat + 1) with
    | error f' =>
      rw [hbyte] at h
      have hread : LzmaWindow.getByte w (dist.toNat + 1) = .error f' := hbyte
      simp only [copyStep, hread] at hstep
      obtain rfl : f' = f := Except.error.inj h
      exact ⟨[], _, Machine.Runs.refl _ _, hstep⟩
    | ok b =>
      rw [hbyte] at h
      have hread : LzmaWindow.getByte w (dist.toNat + 1) = .ok b := hbyte
      simp only [copyStep, hread] at hstep
      cases hmore : History.copyMatchTo (dist.toNat + 1) n (w.put b) with
      | ok r => simp [hmore, bind, Except.bind, pure, Except.pure] at h
      | error f' =>
        simp only [hmore, bind, Except.bind, Except.error.injEq] at h
        subst h
        obtain ⟨out, d', hrun, hfail⟩ := ih (w.put b) (k + 1) hmore
        exact ⟨_, d', Machine.Runs.step hstep hrun, hfail⟩

theorem emitMatch_follows (hinit : d.rcInitialized = true) (dist : UInt32) (len : Nat)
    (input : List Byte) :
    Follows unchecked ((bare d).startCopyMatch dist len) input afterSymbol
      ((bare d).emitMatch input dist len) := by
  unfold emitMatch
  show Follows unchecked _ input afterSymbol
    (History.copyMatchTo (dist.toNat + 1) ((bare d).actualLen len) d.window >>= _)
  match hcopy : History.copyMatchTo (dist.toNat + 1) ((bare d).actualLen len) d.window with
  | .error f =>
    obtain ⟨out, d', hrun, hfail⟩ := copy_fails (d := bare d) hinit dist input
      ((bare d).actualLen len) d.window d.decodedSize hcopy
    exact .failed hrun hfail
  | .ok (bs, w) =>
    have hrun := copy_runs (d := bare d) hinit dist input ((bare d).actualLen len) d.window
      d.decodedSize bs w hcopy
    exact .done (a := (none, bs)) rfl hrun

theorem fastRepMatch_follows (hinit : d.rcInitialized = true) {matchType : MatchType}
    (hrep : matchType ≠ .simple) (posState : Nat) :
    Follows unchecked ((bare d).startRepLength matchType posState) input afterSymbol
      ((bare d).fastRepMatch posState input) := by
  have hcontinues : LenContinues unchecked afterSymbol ((bare d).startRepLength matchType posState)
      { bare d with state := updateStateRep d.state } matchType
      { isRep := true, posState, phase := .choice }
      (whole fun r => r.2.1.emitMatch r.2.2 r.2.1.reps.r0 (r.1 + kMatchMinLen)) :=
    { init := hinit
      phase := rfl
      value := by
        intro len rangeDecoder probs rest
        have hemit := emitMatch_follows
          (d := { d with state := updateStateRep d.state, rangeDecoder, probs }) hinit d.reps.r0
          (len + kMatchMinLen) rest
        cases matchType with
        | simple => exact absurd rfl hrep
        | rep0 => exact hemit
        | rep1 => exact hemit
        | rep2 => exact hemit
        | rep3 => exact hemit
      need := fun _ _ _ _ => rfl }
  have hlen := decodeLenChoice_follows hcontinues d.rangeDecoder d.probs input
  rw [← fastLen_bind] at hlen
  exact hlen

theorem lenState_eq (len : Nat) :
    (if kNumLenToPosStates ≤ len then kNumLenToPosStates - 1 else len) =
      min len (kNumLenToPosStates - 1) := by
  unfold kNumLenToPosStates
  split <;> omega

/-- What the fast path does with a distance: it copies the match, or ends the stream. -/
def copyFrom (len : Nat) (r : UInt32 × SymbolState × List Byte) :
    Except Fault (FastSymbol History) :=
  let (dist, d, input) := r
  if dist = 0xFFFFFFFF then
    return { decoder := d, input, written := [], finish := some .finishedWithMark }
  else if d.dictSize ≤ dist ∨ ¬ checkDistance d.window dist.toNat then
    return { decoder := d, input, written := [], finish := some .finishedWithMark }
  else emitMatch { d with reps := { d.reps with r0 := dist } } input dist len

/-- The distance of a match decoded: the match is copied, or it ends the stream. -/
theorem fastDistance_follows (hinit : d.rcInitialized = true) (len lenState : Nat)
    (input : List Byte) :
    Follows unchecked { bare d with
        phase := .matchDistance len lenState
        distDecodeState := some { lenState, phase := .posSlot 1 6 } } input afterSymbol
      ((bare d).fastDistance lenState input >>= copyFrom len) := by
  rw [fastDistance_bind]
  have hcontinues : DistContinues unchecked afterSymbol
      { bare d with
        phase := .matchDistance len lenState
        distDecodeState := some { lenState, phase := .posSlot 1 6 } } (bare d) len lenState
      (whole (copyFrom len)) :=
    { init := hinit
      phase := ⟨_, rfl⟩
      value := by
        intro dist rangeDecoder probs rest
        unfold finishDistance LzmaDecoder.afterDistance copyFrom
        show Follows unchecked (ite _ _ _) rest afterSymbol (ite _ _ _)
        by_cases hmark : dist = 0xFFFFFFFF
        · rw [if_pos hmark, if_pos hmark]
          exact .here (a := (some LzmaDecodeStatus.finishedWithMark, [])) rfl
        · rw [if_neg hmark, if_neg hmark]
          by_cases hfar : d.dictSize ≤ dist ∨ ¬ checkDistance d.window dist.toNat = true
          · rw [if_pos (by exact hfar), if_pos (by exact hfar)]
            exact .here (a := (some LzmaDecodeStatus.finishedWithMark, [])) rfl
          · rw [if_neg (by exact hfar), if_neg (by exact hfar)]
            exact emitMatch_follows
              (d := { d with reps := { d.reps with r0 := dist }, rangeDecoder, probs }) hinit dist len
              rest
      need := fun _ _ _ _ => rfl }
  exact decodePosSlot_follows hcontinues 1 6 d.rangeDecoder d.probs input

theorem fastMatch_follows (hinit : d.rcInitialized = true) (posState : Nat) :
    Follows unchecked { bare d with
        reps := d.reps.shift
        state := updateStateMatch d.state
        phase := .matchLength .simple
        lenDecodeState := some { isRep := false, posState, phase := .choice } } input afterSymbol
      ((bare d).fastMatch posState input) := by
  have hcontinues : LenContinues unchecked afterSymbol
      { bare d with
        reps := d.reps.shift
        state := updateStateMatch d.state
        phase := .matchLength .simple
        lenDecodeState := some { isRep := false, posState, phase := .choice } }
      { bare d with reps := d.reps.shift, state := updateStateMatch d.state } .simple
      { isRep := false, posState, phase := .choice }
      (whole fun (len, d, input) =>
        d.fastDistance (min len (kNumLenToPosStates - 1)) input >>= copyFrom (len + kMatchMinLen)) :=
    { init := hinit
      phase := rfl
      value := by
        intro len rangeDecoder probs rest
        have hdist := fastDistance_follows
          (d := { d with
            reps := d.reps.shift, state := updateStateMatch d.state, rangeDecoder, probs })
          hinit (len + kMatchMinLen) (min len (kNumLenToPosStates - 1)) rest
        unfold LzmaDecoder.afterLength
        simp only [lenState_eq]
        exact hdist
      need := fun _ _ _ _ => rfl }
  have hlen := decodeLenChoice_follows hcontinues d.rangeDecoder d.probs input
  rw [← fastLen_bind] at hlen
  exact hlen

theorem fastRep_follows (hinit : d.rcInitialized = true) (hreached : d.reachedUnpackSize = false)
    (posState : Nat) :
    Follows unchecked { bare d with phase := .needRepG0 posState } input afterSymbol
      ((bare d).fastRep posState input) := by
  have hunreached : ¬ d.reachedUnpackSize = true := by simp [hreached]
  have hstep : SymbolState.step { bare d with phase := .needRepG0 posState } input =
      repG0Step { bare d with phase := .needRepG0 posState } posState input := if_pos hinit
  unfold repG0Step at hstep
  rw [if_neg (by exact hunreached)] at hstep
  unfold fastRep
  by_cases hempty : isEmpty d.window = true
  · rw [if_pos (by exact hempty)] at hstep
    rw [if_pos (by exact hempty)]
    exact .step hstep (.here (a := (some LzmaDecodeStatus.finishedWithMark, [])) rfl)
  · rw [if_neg (by exact hempty)] at hstep
    rw [if_neg (by exact hempty)]
    refine .ofFastBit rfl rfl hstep ?_
    intro b rangeDecoder probs rest
    by_cases hg0 : b = 0
    · simp only [if_pos hg0]
      have hlong : SymbolState.step
          { bare d with rangeDecoder, probs, phase := .needRep0Long posState } rest =
          rep0LongStep { bare d with rangeDecoder, probs, phase := .needRep0Long posState } posState
            rest := if_pos hinit
      refine .silent (.ofFastBit rfl rfl hlong ?_)
      intro b rangeDecoder probs rest
      by_cases hshort : b = 0
      · simp only [if_pos hshort]
        show Continues unchecked rest afterSymbol
          (getByte d.window (d.reps.r0.toNat + 1) >>= _) (getByte d.window (d.reps.r0.toNat + 1) >>= _)
        cases getByte d.window (d.reps.r0.toNat + 1) with
        | error f => exact .failed
        | ok byte => exact .done (a := (none, [byte])) rfl
      · simp only [if_neg hshort]
        exact .silent (fastRepMatch_follows (d := { d with rangeDecoder, probs }) hinit (by simp) posState)
    · simp only [if_neg hg0]
      have hg1 : SymbolState.step
          { bare d with rangeDecoder, probs, phase := .needRepG1 posState } rest =
          repG1Step { bare d with rangeDecoder, probs, phase := .needRepG1 posState } posState
            rest := if_pos hinit
      refine .silent (.ofFastBit rfl rfl hg1 ?_)
      intro b rangeDecoder probs rest
      by_cases hrep1 : b = 0
      · simp only [if_pos hrep1]
        exact .silent (fastRepMatch_follows
          (d := { d with rangeDecoder, probs, reps := d.reps.takeRep1 }) hinit (by simp) posState)
      · simp only [if_neg hrep1]
        have hg2 : SymbolState.step
            { bare d with rangeDecoder, probs, phase := .needRepG2 posState } rest =
            repG2Step { bare d with rangeDecoder, probs, phase := .needRepG2 posState } posState
              rest := if_pos hinit
        refine .silent (.ofFastBit rfl rfl hg2 ?_)
        intro b rangeDecoder probs rest
        by_cases hrep2 : b = 0
        · simp only [if_pos hrep2]
          exact .silent (fastRepMatch_follows
            (d := { d with rangeDecoder, probs, reps := d.reps.takeRep2 }) hinit (by simp) posState)
        · simp only [if_neg hrep2]
          exact .silent (fastRepMatch_follows
            (d := { d with rangeDecoder, probs, reps := d.reps.takeRep3 }) hinit (by simp) posState)

/-- The byte a literal of the fast path writes. -/
def writeLiteral (r : Nat × SymbolState × List Byte) : Except Fault (FastSymbol History) :=
  let (symbol, d, input) := r
  let b := UInt8.ofNat (symbol - 0x100)
  return {
    decoder := { d with
      window := putByteDirect d.window b
      state := updateStateLiteral d.state
      decodedSize := d.decodedSize + 1 }
    input
    written := [b]
    finish := none }

theorem fastPlain_follows (hinit : d.rcInitialized = true) {ls : LiteralState} (hpos : 1 ≤ ls.symbol)
    (hplain : ls.matched = false ∨ 0x100 ≤ ls.symbol) (input : List Byte) :
    Follows unchecked { bare d with phase := .literal ls } input afterSymbol
      (fastPlain (baseProbsSize + kLzmaLitSize * ls.litState) 9 ls.symbol (bare d) input >>=
        writeLiteral) := by
  rw [fastPlain_bind]
  refine plainLiteral_follows (s := bare d) (d := bare d) hinit ?_ ?_ 8 ls d.rangeDecoder d.probs input
    rfl hplain ?_
  · intro ls' rangeDecoder probs rest hfull
    have hstep : SymbolState.step { bare d with rangeDecoder, probs, phase := .literal ls' } rest =
        literalStep { bare d with rangeDecoder, probs, phase := .literal ls' } ls' rest := if_pos hinit
    unfold literalStep at hstep
    rw [if_pos hfull] at hstep
    exact .done (a := (none, [literalByte ls'])) rfl (Machine.Runs.single hstep)
  · intros; rfl
  · show 256 ≤ ls.symbol * 256
    omega

theorem fastMatched_follows (hinit : d.rcInitialized = true) (litState : Nat) (matchByte : Byte) :
    Follows unchecked { bare d with
        phase := .literal { symbol := 1, litState, matched := true, matchByte, offs := 0x100 } } input
      afterSymbol
      (fastMatched (baseProbsSize + kLzmaLitSize * litState) 9 matchByte 1 (bare d) input >>= fun r =>
        fastPlain (baseProbsSize + kLzmaLitSize * litState) 9 r.1 r.2.1 r.2.2 >>= writeLiteral) := by
  have hlit := fastMatched_bind (baseProbsSize + kLzmaLitSize * litState)
    (fun r => fastPlain (baseProbsSize + kLzmaLitSize * litState) 9 r.1 r.2.1 r.2.2 >>= writeLiteral) 9
    { symbol := 1, litState, matched := true, matchByte, offs := 0x100 } (bare d) input
  rw [hlit]
  refine matchedLiteral_follows (s := bare d) (d := bare d) hinit ?_ ?_ 8
    { symbol := 1, litState, matched := true, matchByte, offs := 0x100 } d.rangeDecoder d.probs input
    rfl rfl (Nat.le_refl 1) (by norm_num)
  · intro ls rangeDecoder probs rest hlit hpos hplain
    have hnext := fastPlain_follows (d := { d with rangeDecoder, probs }) hinit hpos hplain rest
    rw [hlit] at hnext
    exact hnext
  · intros; rfl

theorem fastLiteral_follows (hinit : d.rcInitialized = true) :
    Continues unchecked input afterSymbol
      (do return (← (bare d).startLiteralDecode, [])) ((bare d).fastLiteral input) := by
  unfold LzmaDecoder.startLiteralDecode fastLiteral
  show Continues unchecked input afterSymbol (do return (← d.prevByte >>= _, [])) (d.prevByte >>= _)
  cases d.prevByte with
  | error f => exact .failed
  | ok prev =>
    show Continues unchecked input afterSymbol (do return (← d.matchByte >>= _, []))
      ((bare d).fastMatchedPart (baseProbsSize + kLzmaLitSize * d.litState prev) input >>= _)
    unfold LzmaDecoder.matchByte fastMatchedPart
    by_cases hstate : 7 ≤ d.state
    · have hbare : 7 ≤ (bare d).state := hstate
      simp only [if_pos hstate, if_pos hbare, decide_eq_true hbare]
      show Continues unchecked input afterSymbol
        (do return (← getByte d.window (d.reps.r0.toNat + 1) >>= _, []))
        ((getByte d.window (d.reps.r0.toNat + 1) >>= _) >>= _)
      cases getByte d.window (d.reps.r0.toNat + 1) with
      | error f => exact .failed
      | ok matchByte => exact .silent (fastMatched_follows hinit (d.litState prev) matchByte)
    · have hbare : ¬ 7 ≤ (bare d).state := hstate
      simp only [if_neg hstate, if_neg hbare, decide_eq_false hbare]
      have hplain := fastPlain_follows (d := d) hinit
        (Nat.le_refl (LiteralState.mk 1 (d.litState prev) false 0 0).symbol) (.inl rfl) input
      exact .silent hplain

/-- A symbol of the fast path is the machine's symbol. -/
theorem fastSymbol_follows (hinit : d.rcInitialized = true) (hreached : d.reachedUnpackSize = false)
    (input : List Byte) :
    Follows unchecked (bare d) input afterSymbol ((bare d).fastSymbol input) := by
  have hunreached : ¬ d.reachedUnpackSize = true := by simp [hreached]
  have hstep : SymbolState.step (bare d) input = newSymbolStep (bare d) input := if_pos hinit
  unfold newSymbolStep at hstep
  rw [if_neg (by exact hunreached)] at hstep
  refine .ofFastBit rfl rfl hstep ?_
  intro b rangeDecoder probs rest
  by_cases hlit : b = 0
  · simp only [if_pos hlit]
    exact fastLiteral_follows (d := { d with rangeDecoder, probs }) hinit
  · simp only [if_neg hlit]
    have hrep : SymbolState.step
        { bare d with rangeDecoder, probs, phase := .needIsRep d.posState } rest =
        isRepStep { bare d with rangeDecoder, probs, phase := .needIsRep d.posState } d.posState
          rest := if_pos hinit
    refine .silent (.ofFastBit rfl rfl hrep ?_)
    intro b rangeDecoder probs rest
    by_cases hmatch : b = 0
    · simp only [if_pos hmatch]
      exact .silent (fastMatch_follows (d := { d with rangeDecoder, probs }) hinit d.posState)
    · simp only [if_neg hmatch]
      exact .silent (fastRep_follows (d := { d with rangeDecoder, probs }) hinit hreached d.posState)

/-- Decoding bits leaves the sizes and the phase alone. -/
structure Kept (d d' : SymbolState) : Prop where
  unpackSize : d'.unpackSize = d.unpackSize
  decodedSize : d'.decodedSize = d.decodedSize
  phase : d'.phase = d.phase

theorem Kept.refl (d : SymbolState) : Kept d d := ⟨rfl, rfl, rfl⟩

theorem Kept.trans {d d' d'' : SymbolState} (h : Kept d d') (h' : Kept d' d'') :
    Kept d d'' :=
  ⟨h'.unpackSize.trans h.unpackSize, h'.decodedSize.trans h.decodedSize, h'.phase.trans h.phase⟩

/-- A new symbol may be decoded: nothing is half decoded, and a byte more fits. -/
structure Fresh (d : SymbolState) : Prop where
  phase : d.phase = .newSymbol
  fits : Fits d 1

theorem Kept.fresh {d d' : SymbolState} (h : Kept d d') (hfresh : Fresh d) : Fresh d' := by
  refine ⟨h.phase.trans hfresh.phase, ?_⟩
  intro unpack hunpack
  rw [h.unpackSize] at hunpack
  rw [h.decodedSize]
  exact hfresh.fits unpack hunpack

theorem fastBit_spec {b : Nat} {d' : SymbolState} (h : d.fastBit idx input = .ok (b, d', rest)) :
    b < 2 ∧ Kept d d' := by
  unfold fastBit at h
  obtain ⟨r, hbit, hr⟩ := Except.bind_eq_ok.mp h
  cases r with
  | none => exact absurd hr (by simp [throw, throwThe, MonadExceptOf.throw])
  | some r =>
    obtain rfl := Except.ok.inj hr
    unfold LzmaDecoder.bit at hbit
    match hget : d.probs[idx]? with
    | none => simp [hget] at hbit
    | some p =>
      rw [hget] at hbit
      simp only at hbit
      match hdecode : d.rangeDecoder.decodeBit p input with
      | none => simp [hdecode] at hbit
      | some (b', p', rangeDecoder, rest') =>
        rw [hdecode] at hbit
        simp only [Except.ok.injEq, Option.some.injEq, Prod.mk.injEq] at hbit
        obtain ⟨rfl, rfl, _⟩ := hbit
        exact ⟨RangeDecoder.decodeBit_lt hdecode, rfl, rfl, rfl⟩

theorem fastTree_spec {base k : Nat} :
    ∀ n {m d input m' rest} {d' : SymbolState}, TreeNode k m n →
      fastTree base n m d input = .ok (m', d', rest) → TreeNode k m' 0 ∧ Kept d d' := by
  intro n
  induction n with
  | zero =>
    intro m d input m' rest d' hnode h
    simp only [fastTree, Except.ok.injEq, Prod.mk.injEq] at h
    obtain ⟨rfl, rfl, _⟩ := h
    exact ⟨hnode, .refl _⟩
  | succ n ih =>
    intro m d input m' rest d' hnode h
    rw [fastTree] at h
    obtain ⟨⟨b, d₁, rest₁⟩, hbit, hmore⟩ := Except.bind_eq_ok.mp h
    obtain ⟨hb, hsame⟩ := fastBit_spec hbit
    obtain ⟨hleaf, hsame'⟩ := ih (hnode.child hb) hmore
    exact ⟨hleaf, hsame.trans hsame'⟩

theorem fastReverse_same {base : Nat} :
    ∀ n {i m symbol d input symbol' rest} {d' : SymbolState},
      fastReverse base n i m symbol d input = .ok (symbol', d', rest) → Kept d d' := by
  intro n
  induction n with
  | zero =>
    intro i m symbol d input symbol' rest d' h
    simp only [fastReverse, Except.ok.injEq, Prod.mk.injEq] at h
    obtain ⟨_, rfl, _⟩ := h
    exact .refl _
  | succ n ih =>
    intro i m symbol d input symbol' rest d' h
    rw [fastReverse] at h
    obtain ⟨⟨b, d₁, rest₁⟩, hbit, hmore⟩ := Except.bind_eq_ok.mp h
    exact (fastBit_spec hbit).2.trans (ih hmore)

theorem fastDirect_same :
    ∀ n {dist d input dist' rest} {d' : SymbolState},
      fastDirect n dist d input = .ok (dist', d', rest) → Kept d d' := by
  intro n
  induction n with
  | zero =>
    intro dist d input dist' rest d' h
    simp only [fastDirect, Except.ok.injEq, Prod.mk.injEq] at h
    obtain ⟨_, rfl, _⟩ := h
    exact .refl _
  | succ n ih =>
    intro dist d input dist' rest d' h
    rw [fastDirect] at h
    split at h
    · exact absurd h (by simp)
    · exact Kept.trans (by exact ⟨rfl, rfl, rfl⟩) (ih h)

theorem fastLen_spec {base posState len : Nat} {d' : SymbolState}
    (h : d.fastLen base posState input = .ok (len, d', rest)) : len ≤ 271 ∧ Kept d d' := by
  have hvalue : ∀ (coder : LenCoder) {base} {d : SymbolState} {input},
      (do
        let (m, d, input) ← fastTree base coder.numBits 1 d input
        return (coder.value m, d, input)) = Except.ok (len, d', rest) →
      len ≤ 271 ∧ Kept d d' := by
    intro coder base d input h
    obtain ⟨⟨m, d₁, rest₁⟩, htree, hlen⟩ := Except.bind_eq_ok.mp h
    obtain ⟨hleaf, hsame⟩ := fastTree_spec _ (TreeNode.root _) htree
    simp only [pure, Except.pure, Except.ok.injEq, Prod.mk.injEq] at hlen
    obtain ⟨rfl, rfl, _⟩ := hlen
    exact ⟨LenCoder.value_le hleaf, hsame⟩
  unfold fastLen at h
  obtain ⟨⟨choice, d₁, rest₁⟩, hchoice, h⟩ := Except.bind_eq_ok.mp h
  have hsame₁ := (fastBit_spec hchoice).2
  simp only at h
  split at h
  · obtain ⟨hle, hsame⟩ := hvalue .low h
    exact ⟨hle, hsame₁.trans hsame⟩
  · obtain ⟨⟨choice2, d₂, rest₂⟩, hchoice2, h⟩ := Except.bind_eq_ok.mp h
    have hsame₂ := hsame₁.trans (fastBit_spec hchoice2).2
    simp only at h
    split at h
    · obtain ⟨hle, hsame⟩ := hvalue .mid h
      exact ⟨hle, hsame₂.trans hsame⟩
    · obtain ⟨hle, hsame⟩ := hvalue .high h
      exact ⟨hle, hsame₂.trans hsame⟩

theorem fastDistance_same {lenState : Nat} {dist : UInt32} {d' : SymbolState}
    (h : d.fastDistance lenState input = .ok (dist, d', rest)) : Kept d d' := by
  obtain ⟨⟨m, d₁, rest₁⟩, htree, h⟩ := Except.bind_eq_ok.mp h
  have hsame := (fastTree_spec _ (TreeNode.root _) htree).2
  simp only at h
  split at h
  · simp only [pure, Except.pure, Except.ok.injEq, Prod.mk.injEq] at h
    obtain ⟨_, rfl, _⟩ := h
    exact hsame
  · split at h
    · obtain ⟨⟨symbol, d₂, rest₂⟩, hreverse, h⟩ := Except.bind_eq_ok.mp h
      simp only [pure, Except.pure, Except.ok.injEq, Prod.mk.injEq] at h
      obtain ⟨_, rfl, _⟩ := h
      exact hsame.trans (fastReverse_same _ hreverse)
    · obtain ⟨⟨direct, d₂, rest₂⟩, hdirect, h⟩ := Except.bind_eq_ok.mp h
      obtain ⟨⟨symbol, d₃, rest₃⟩, hreverse, h⟩ := Except.bind_eq_ok.mp h
      simp only [pure, Except.pure, Except.ok.injEq, Prod.mk.injEq] at h
      obtain ⟨_, rfl, _⟩ := h
      exact (hsame.trans (fastDirect_same _ hdirect)).trans (fastReverse_same _ hreverse)

theorem copyMatchTo_length {dist : Nat} :
    ∀ n {w bs w'}, History.copyMatchTo dist n w = .ok (bs, w') → bs.length = n := by
  intro n
  induction n with
  | zero =>
    intro w bs w' h
    obtain ⟨rfl, _⟩ := Prod.mk.inj (Except.ok.inj h)
    rfl
  | succ n ih =>
    intro w bs w' h
    rw [History.copyMatchTo] at h
    obtain ⟨b, _, hmore⟩ := Except.bind_eq_ok.mp h
    obtain ⟨⟨bs', w₁⟩, hcopy, hdone⟩ := Except.bind_eq_ok.mp hmore
    obtain ⟨rfl, _⟩ := Prod.mk.inj (Except.ok.inj hdone)
    rw [List.length_cons, ih hcopy]

/-- A symbol writes a byte, unless it ends the stream, and no more than its margin. -/
structure Writes (r : FastSymbol History) : Prop where
  phase : r.decoder.phase = .newSymbol
  short : r.written.length ≤ outMargin
  some : r.finish = none → 0 < r.written.length

theorem Writes.byte {d' : SymbolState} {b : Byte} (hphase : d'.phase = .newSymbol) :
    Writes { decoder := d', input := rest, written := [b], finish := none } :=
  ⟨hphase, Nat.succ_le_succ (Nat.zero_le _), fun _ => Nat.succ_pos _⟩

theorem Writes.finish {d' : SymbolState} {status : LzmaDecodeStatus}
    (hphase : d'.phase = .newSymbol) :
    Writes { decoder := d', input := rest, written := [], finish := Option.some status } :=
  ⟨hphase, Nat.zero_le _, fun h => absurd h (by simp)⟩

theorem emitMatch_writes {dist : UInt32} {len : Nat} {r : FastSymbol History} (hfresh : Fresh d)
    (hlen : len ≤ 271) (h : d.emitMatch input dist (len + kMatchMinLen) = .ok r) : Writes r := by
  obtain ⟨⟨bs, w⟩, hcopy, hdone⟩ := Except.bind_eq_ok.mp h
  obtain rfl := Except.ok.inj hdone
  have hbs := copyMatchTo_length _ hcopy
  have hmore : 0 < len + kMatchMinLen := Nat.succ_pos _
  obtain ⟨hpos, hle, _⟩ := actualLen_fits hfresh.fits hmore
  refine ⟨hfresh.phase, ?_, ?_⟩
  · show bs.length ≤ 273
    have hmin : len + kMatchMinLen = len + 2 := rfl
    omega
  · intro _
    show 0 < bs.length
    omega

theorem fastMatch_writes {posState : Nat} {r : FastSymbol History} (hfresh : Fresh d)
    (h : d.fastMatch posState input = .ok r) : Writes r := by
  obtain ⟨⟨len, d₁, rest₁⟩, hlen, h⟩ := Except.bind_eq_ok.mp h
  obtain ⟨⟨dist, d₂, rest₂⟩, hdist, h⟩ := Except.bind_eq_ok.mp h
  obtain ⟨hle, hsame⟩ := fastLen_spec hlen
  have hfresh₂ := (hsame.trans (fastDistance_same hdist)).fresh ⟨hfresh.phase, hfresh.fits⟩
  simp only at h
  split at h
  · obtain rfl := Except.ok.inj h
    exact .finish hfresh₂.phase
  · split at h
    · obtain rfl := Except.ok.inj h
      exact .finish hfresh₂.phase
    · exact emitMatch_writes (by exact ⟨hfresh₂.phase, hfresh₂.fits⟩) hle h

theorem fastRepMatch_writes {posState : Nat} {r : FastSymbol History} (hfresh : Fresh d)
    (h : d.fastRepMatch posState input = .ok r) : Writes r := by
  obtain ⟨⟨len, d₁, rest₁⟩, hlen, h⟩ := Except.bind_eq_ok.mp h
  obtain ⟨hle, hsame⟩ := fastLen_spec hlen
  exact emitMatch_writes (hsame.fresh ⟨hfresh.phase, hfresh.fits⟩) hle h

theorem fastMatched_same {offset : Nat} :
    ∀ fuel {matchByte symbol d input symbol' rest} {d' : SymbolState},
      fastMatched offset fuel matchByte symbol d input = .ok (symbol', d', rest) → Kept d d' := by
  intro fuel
  induction fuel with
  | zero => intro matchByte symbol d input symbol' rest d' h; exact absurd h (by simp [fastMatched])
  | succ fuel ih =>
    intro matchByte symbol d input symbol' rest d' h
    rw [fastMatched] at h
    split at h
    · simp only [Except.ok.injEq, Prod.mk.injEq] at h
      obtain ⟨_, rfl, _⟩ := h
      exact .refl _
    · obtain ⟨⟨b, d₁, rest₁⟩, hbit, h⟩ := Except.bind_eq_ok.mp h
      have hsame := (fastBit_spec hbit).2
      simp only at h
      split at h
      · simp only [pure, Except.pure, Except.ok.injEq, Prod.mk.injEq] at h
        obtain ⟨_, rfl, _⟩ := h
        exact hsame
      · exact hsame.trans (ih h)

theorem fastPlain_same {offset : Nat} :
    ∀ fuel {symbol d input symbol' rest} {d' : SymbolState},
      fastPlain offset fuel symbol d input = .ok (symbol', d', rest) → Kept d d' := by
  intro fuel
  induction fuel with
  | zero => intro symbol d input symbol' rest d' h; exact absurd h (by simp [fastPlain])
  | succ fuel ih =>
    intro symbol d input symbol' rest d' h
    rw [fastPlain] at h
    split at h
    · simp only [Except.ok.injEq, Prod.mk.injEq] at h
      obtain ⟨_, rfl, _⟩ := h
      exact .refl _
    · obtain ⟨⟨b, d₁, rest₁⟩, hbit, h⟩ := Except.bind_eq_ok.mp h
      exact (fastBit_spec hbit).2.trans (ih h)

theorem fastMatchedPart_same {offset symbol : Nat} {d' : SymbolState}
    (h : d.fastMatchedPart offset input = .ok (symbol, d', rest)) : Kept d d' := by
  unfold fastMatchedPart at h
  split at h
  · obtain ⟨matchByte, _, h⟩ := Except.bind_eq_ok.mp h
    exact fastMatched_same _ h
  · simp only [Except.ok.injEq, Prod.mk.injEq] at h
    obtain ⟨_, rfl, _⟩ := h
    exact .refl _

theorem fastLiteral_writes {r : FastSymbol History} (hfresh : Fresh d)
    (h : d.fastLiteral input = .ok r) : Writes r := by
  obtain ⟨prev, _, h⟩ := Except.bind_eq_ok.mp h
  obtain ⟨⟨symbol, d₁, rest₁⟩, hmatched, h⟩ := Except.bind_eq_ok.mp h
  obtain ⟨⟨symbol', d₂, rest₂⟩, hplain, h⟩ := Except.bind_eq_ok.mp h
  obtain rfl := Except.ok.inj h
  exact .byte (((fastMatchedPart_same hmatched).trans (fastPlain_same _ hplain)).fresh hfresh).phase

theorem fastRep_writes {posState : Nat} {r : FastSymbol History} (hfresh : Fresh d)
    (h : d.fastRep posState input = .ok r) : Writes r := by
  unfold fastRep at h
  split at h
  · obtain rfl := Except.ok.inj h
    exact .finish hfresh.phase
  · obtain ⟨⟨b, d₁, rest₁⟩, hg0, h⟩ := Except.bind_eq_ok.mp h
    have hfresh₁ := (fastBit_spec hg0).2.fresh hfresh
    simp only at h
    split at h
    · obtain ⟨⟨b, d₂, rest₂⟩, hlong, h⟩ := Except.bind_eq_ok.mp h
      have hfresh₂ := (fastBit_spec hlong).2.fresh hfresh₁
      simp only at h
      split at h
      · obtain ⟨byte, _, h⟩ := Except.bind_eq_ok.mp h
        obtain rfl := Except.ok.inj h
        exact .byte hfresh₂.phase
      · exact fastRepMatch_writes hfresh₂ h
    · obtain ⟨⟨b, d₂, rest₂⟩, hg1, h⟩ := Except.bind_eq_ok.mp h
      have hfresh₂ := (fastBit_spec hg1).2.fresh hfresh₁
      simp only at h
      split at h
      · exact fastRepMatch_writes (by exact ⟨hfresh₂.phase, hfresh₂.fits⟩) h
      · obtain ⟨⟨b, d₃, rest₃⟩, hg2, h⟩ := Except.bind_eq_ok.mp h
        have hfresh₃ := (fastBit_spec hg2).2.fresh hfresh₂
        simp only at h
        split at h
        · exact fastRepMatch_writes (by exact ⟨hfresh₃.phase, hfresh₃.fits⟩) h
        · exact fastRepMatch_writes (by exact ⟨hfresh₃.phase, hfresh₃.fits⟩) h

theorem fastSymbol_writes {r : FastSymbol History} (hfresh : Fresh d)
    (h : d.fastSymbol input = .ok r) : Writes r := by
  obtain ⟨⟨b, d₁, rest₁⟩, hmatch, h⟩ := Except.bind_eq_ok.mp h
  have hfresh₁ := (fastBit_spec hmatch).2.fresh hfresh
  simp only at h
  split at h
  · exact fastLiteral_writes hfresh₁ h
  · obtain ⟨⟨b, d₂, rest₂⟩, hrep, h⟩ := Except.bind_eq_ok.mp h
    have hfresh₂ := (fastBit_spec hrep).2.fresh hfresh₁
    simp only at h
    split at h
    · exact fastMatch_writes hfresh₂ h
    · exact fastRep_writes hfresh₂ h

end SymbolState
end Iluvatar
