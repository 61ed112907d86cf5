/-
The decoder without its fast path, and what the fast functions do in the resumable ones' words.

A fast function only moves the range coder and the probabilities on.  So do the resumable
ones, in whatever phase the decoder stands: two decoders with one coder decode the same.
-/
import Iluvatar.Lzma.WindowRefinement

namespace Iluvatar

open Except

namespace LzmaDecoder

section

variable {ω : Type}

open LzmaWindow

section

variable [LzmaWindow ω]

/-- `decodeNewSymbol` without the fast path. -/
def decodeNewSymbolSlow (c : Cursor ω) : Except Fault (Option LzmaDecodeStatus × Cursor ω) := do
  let d := c.decoder
  if d.reachedUnpackSize then
    return (none, { c with decoder := { d with phase := .finished .finishedWithoutMark } })
  else
    let posState := d.posState
    match ← d.bit (offIsMatch + (d.state * kNumPosStatesMax + posState)) c.input with
    | none => return (some .needInput, c)
    | some (isMatch, d, input) =>
      if isMatch = 0 then
        let d ← d.startLiteralDecode
        return (none, { c with decoder := d, input })
      else
        let r ← d.decodeIsRep input posState
        return c.resume r fun _ c => c

def decodePhaseSlow (c : Cursor ω) : Except Fault (Option LzmaDecodeStatus × Cursor ω) :=
  match c.decoder.phase with
  | .newSymbol => decodeNewSymbolSlow c
  | _ => decodePhase c

def decodeOnceSlow (c : Cursor ω) : Except Fault (Option LzmaDecodeStatus × Cursor ω) :=
  if 0 < pendingLen c.decoder.window then
    let c := c.drain
    if 0 < pendingLen c.decoder.window ∨ c.room ≤ c.out.length then .ok (some .continue, c)
    else decodePhaseSlow c
  else decodePhaseSlow c

def decodeLoopSlow : Nat → Cursor ω → Except Fault (LzmaDecodeStatus × Cursor ω)
  | 0, _ => .error .panic
  | fuel + 1, c => do
    match ← decodeOnceSlow c with
    | (some status, c) => return (status, c)
    | (none, c) => decodeLoopSlow fuel c

def decodeFromSlow (fuel : Nat) (c : Cursor ω) : Except Fault (LzmaDecodeStatus × Cursor ω) :=
  match c.initRange with
  | (false, c) => .ok (.needInput, c)
  | (true, c) => decodeLoopSlow fuel c

/-- `decode` without the fast path, its loop running for `fuel` rounds at most. -/
def decodeSlow (fuel : Nat) (d : LzmaDecoder ω) (input : List Byte) (room : Nat) :
    Except Fault (LzmaDecodeResult × LzmaDecoder ω) := do
  let start : Cursor ω := { decoder := d, input, out := [], room }
  let c := if 0 < pendingLen d.window then start.drain else start
  if 0 < pendingLen d.window ∧ (0 < pendingLen c.decoder.window ∨ room ≤ c.out.length) then
    return c.finish input c.drainedStatus
  else
    let (status, c) ← decodeFromSlow fuel c
    return c.finish input status

end

/-! ## The coder -/

/-- The decoder with its coder moved on. -/
def coded (d : LzmaDecoder ω) (rangeDecoder : RangeDecoder) (probs : List UInt16) : LzmaDecoder ω :=
  { d with rangeDecoder, probs }

/-- Two decoders with one coder. -/
structure SameCoder (d e : LzmaDecoder ω) : Prop where
  rangeDecoder : e.rangeDecoder = d.rangeDecoder
  probs : e.probs = d.probs

theorem SameCoder.coded (d e : LzmaDecoder ω) (rangeDecoder : RangeDecoder) (probs : List UInt16) :
    SameCoder (d.coded rangeDecoder probs) (e.coded rangeDecoder probs) :=
  ⟨rfl, rfl⟩

/-- What a fast function did is only to move the coder on, and every decoder with the same coder
does it as `slow`. -/
def CodedAs (d d' : LzmaDecoder ω) (slow : LzmaDecoder ω → LzmaDecoder ω → Prop) : Prop :=
  ∃ rangeDecoder probs, d' = d.coded rangeDecoder probs ∧
    ∀ e, SameCoder d e → slow e (e.coded rangeDecoder probs)

variable {d d' : LzmaDecoder ω} {input rest : List Byte}

/-- One function after another. -/
theorem CodedAs.trans {d'' : LzmaDecoder ω} {slow slow' slow'' : LzmaDecoder ω → LzmaDecoder ω → Prop}
    (h : CodedAs d d' slow) (h' : CodedAs d' d'' slow')
    (hslow : ∀ e e' e'', slow e e' → slow' e' e'' → slow'' e e'') : CodedAs d d'' slow'' := by
  obtain ⟨rangeDecoder, probs, rfl, hfirst⟩ := h
  obtain ⟨rangeDecoder', probs', rfl, hrest⟩ := h'
  exact ⟨rangeDecoder', probs', rfl, fun e hsame =>
    hslow e _ _ (hfirst e hsame) (hrest _ (SameCoder.coded d e rangeDecoder probs))⟩

theorem CodedAs.mono {slow slow' : LzmaDecoder ω → LzmaDecoder ω → Prop} (h : CodedAs d d' slow)
    (hslow : ∀ e e', slow e e' → slow' e e') : CodedAs d d' slow' := by
  obtain ⟨rangeDecoder, probs, rfl, hfirst⟩ := h
  exact ⟨rangeDecoder, probs, rfl, fun e hsame => hslow e _ (hfirst e hsame)⟩

theorem CodedAs.refl (d : LzmaDecoder ω) {slow : LzmaDecoder ω → LzmaDecoder ω → Prop}
    (hslow : ∀ e, slow e e) : CodedAs d d slow := by
  refine ⟨d.rangeDecoder, d.probs, rfl, fun e hsame => ?_⟩
  have hcoded : e.coded d.rangeDecoder d.probs = e := by
    rw [LzmaDecoder.coded, ← hsame.rangeDecoder, ← hsame.probs]
  rw [hcoded]
  exact hslow e

theorem fastBit_codedAs {idx b : Nat} (h : d.fastBit idx input = .ok (b, d', rest)) :
    CodedAs d d' fun e e' => e.bit idx input = .ok (some (b, e', rest)) := by
  obtain ⟨r, hbit, hr⟩ := bind_eq_ok.mp h
  cases r with
  | none => cases hr
  | some r =>
    obtain rfl := Except.ok.inj hr
    unfold bit at hbit
    cases hget : d.probs[idx]? with
    | none =>
      rw [hget] at hbit
      cases hbit
    | some p =>
      rw [hget] at hbit
      simp only at hbit
      cases hdecode : d.rangeDecoder.decodeBit p input with
      | none =>
        rw [hdecode] at hbit
        cases hbit
      | some r =>
        rw [hdecode] at hbit
        obtain ⟨b', p', rangeDecoder, rest'⟩ := r
        simp only [Except.ok.injEq, Option.some.injEq, Prod.mk.injEq] at hbit
        obtain ⟨rfl, rfl, rfl⟩ := hbit
        refine ⟨rangeDecoder, d.probs.set idx p', rfl, fun e hsame => ?_⟩
        show e.bit idx input = .ok (some (b', e.coded rangeDecoder (d.probs.set idx p'), rest'))
        unfold bit
        rw [hsame.probs, hget]
        simp only
        rw [hsame.rangeDecoder, hdecode]
        rfl

theorem fastTree_codedAs {base : Nat} :
    ∀ n {m m' : Nat} {d d' : LzmaDecoder ω} {input : List Byte},
      fastTree base n m d input = .ok (m', d', rest) →
      CodedAs d d' fun e e' => bitTree base n m e input = .ok (m', 0, e', rest) := by
  intro n
  induction n with
  | zero =>
    intro m m' d d' input h
    simp only [fastTree, Except.ok.injEq, Prod.mk.injEq] at h
    obtain ⟨rfl, rfl, rfl⟩ := h
    exact CodedAs.refl d fun e => rfl
  | succ n ih =>
    intro m m' d d' input h
    rw [fastTree] at h
    obtain ⟨⟨b, d₁, rest₁⟩, hbit, hmore⟩ := bind_eq_ok.mp h
    refine (fastBit_codedAs hbit).trans (ih hmore) ?_
    intro e e' e'' hfirst hrest
    rw [bitTree, hfirst]
    exact hrest

theorem fastReverse_codedAs {base : Nat} :
    ∀ n {i m : Nat} {symbol symbol' : UInt32} {d d' : LzmaDecoder ω} {input : List Byte},
      fastReverse base n i m symbol d input = .ok (symbol', d', rest) →
      CodedAs d d' fun e e' => ∃ i' m', reverseBits base n i m symbol e input =
        .ok (0, i', m', symbol', e', rest) := by
  intro n
  induction n with
  | zero =>
    intro i m symbol symbol' d d' input h
    simp only [fastReverse, Except.ok.injEq, Prod.mk.injEq] at h
    obtain ⟨rfl, rfl, rfl⟩ := h
    exact CodedAs.refl d fun e => ⟨i, m, rfl⟩
  | succ n ih =>
    intro i m symbol symbol' d d' input h
    rw [fastReverse] at h
    obtain ⟨⟨b, d₁, rest₁⟩, hbit, hmore⟩ := bind_eq_ok.mp h
    refine (fastBit_codedAs hbit).trans (ih hmore) ?_
    rintro e e' e'' hfirst ⟨i', m', hrest⟩
    refine ⟨i', m', ?_⟩
    rw [reverseBits, hfirst]
    exact hrest

theorem fastDirect_codedAs :
    ∀ n {dist dist' : UInt32} {d d' : LzmaDecoder ω} {input : List Byte},
      fastDirect n dist d input = .ok (dist', d', rest) →
      CodedAs d d' fun e e' => directBits n dist e input = (0, dist', e', rest) := by
  intro n
  induction n with
  | zero =>
    intro dist dist' d d' input h
    simp only [fastDirect, Except.ok.injEq, Prod.mk.injEq] at h
    obtain ⟨rfl, rfl, rfl⟩ := h
    exact CodedAs.refl d fun e => rfl
  | succ n ih =>
    intro dist dist' d d' input h
    rw [fastDirect] at h
    cases hbit : d.rangeDecoder.decodeDirectBit input with
    | none =>
      rw [hbit] at h
      cases h
    | some r =>
      rw [hbit] at h
      obtain ⟨b, rangeDecoder, rest₁⟩ := r
      obtain ⟨rangeDecoder', probs', rfl, hrest⟩ := ih h
      refine ⟨rangeDecoder', probs', rfl, fun e hsame => ?_⟩
      show directBits (n + 1) dist e input = _
      rw [directBits, hsame.rangeDecoder, hbit]
      exact hrest { e with rangeDecoder } ⟨rfl, hsame.probs⟩

/-- The symbol of a literal after its matched part. -/
theorem fastMatched_codedAs {offset : Nat} :
    ∀ fuel {matchByte : Byte} (ls : LiteralState) {symbol' : Nat} {d d' : LzmaDecoder ω} {input : List Byte},
      ls.matchByte = matchByte →
      fastMatched offset fuel matchByte ls.symbol d input = .ok (symbol', d', rest) →
      CodedAs d d' fun e e' => ∃ ls', ls'.symbol = symbol' ∧
        matchedLiteral offset fuel ls e input = .ok { value := some ls', decoder := e', input := rest } := by
  intro fuel
  induction fuel with
  | zero => intro matchByte ls symbol' d d' input _ h; cases h
  | succ fuel ih =>
    rintro matchByte ls symbol' d d' input rfl h
    rw [fastMatched] at h
    by_cases hfull : 0x100 ≤ ls.symbol
    · rw [if_pos hfull] at h
      simp only [Except.ok.injEq, Prod.mk.injEq] at h
      obtain ⟨rfl, rfl, rfl⟩ := h
      exact CodedAs.refl d fun e => ⟨ls, rfl, by rw [matchedLiteral, if_pos hfull]⟩
    · rw [if_neg hfull] at h
      obtain ⟨⟨b, d₁, rest₁⟩, hbit, hmore⟩ := bind_eq_ok.mp h
      simp only at hmore
      by_cases hdiffer : (ls.matchByte >>> 7).toNat % 2 ≠ b
      · rw [if_pos hdiffer] at hmore
        simp only [pure, Except.pure, Except.ok.injEq, Prod.mk.injEq] at hmore
        obtain ⟨rfl, rfl, rfl⟩ := hmore
        refine (fastBit_codedAs hbit).mono ?_
        intro e e' hfirst
        refine ⟨{ ls with matchByte := ls.matchByte <<< 1, symbol := 2 * ls.symbol + b, matched := false },
          rfl, ?_⟩
        rw [matchedLiteral, if_neg hfull]
        simp only [hfirst, bind, Except.bind]
        rw [if_pos hdiffer]
      · rw [if_neg hdiffer] at hmore
        refine (fastBit_codedAs hbit).trans (ih
          { ls with matchByte := ls.matchByte <<< 1, symbol := 2 * ls.symbol + b } rfl hmore) ?_
        rintro e e' e'' hfirst ⟨ls', hsymbol, hrest⟩
        refine ⟨ls', hsymbol, ?_⟩
        rw [matchedLiteral, if_neg hfull]
        simp only [hfirst, bind, Except.bind]
        rw [if_neg hdiffer]
        exact hrest

theorem fastPlain_codedAs {offset : Nat} :
    ∀ fuel (ls : LiteralState) {symbol' : Nat} {d d' : LzmaDecoder ω} {input : List Byte},
      fastPlain offset fuel ls.symbol d input = .ok (symbol', d', rest) →
      CodedAs d d' fun e e' => plainLiteral offset fuel ls e input =
        .ok { value := some { ls with symbol := symbol' }, decoder := e', input := rest } := by
  intro fuel
  induction fuel with
  | zero => intro ls symbol' d d' input h; cases h
  | succ fuel ih =>
    intro ls symbol' d d' input h
    rw [fastPlain] at h
    by_cases hfull : 0x100 ≤ ls.symbol
    · rw [if_pos hfull] at h
      simp only [Except.ok.injEq, Prod.mk.injEq] at h
      obtain ⟨rfl, rfl, rfl⟩ := h
      exact CodedAs.refl d fun e => by rw [plainLiteral, if_pos hfull]
    · rw [if_neg hfull] at h
      obtain ⟨⟨b, d₁, rest₁⟩, hbit, hmore⟩ := bind_eq_ok.mp h
      refine (fastBit_codedAs hbit).trans (ih { ls with symbol := 2 * ls.symbol + b } hmore) ?_
      intro e e' e'' hfirst hrest
      rw [plainLiteral, if_neg hfull, hfirst]
      exact hrest

theorem fastLenTree_codedAs (lds : LenDecodeState) (coder : LenCoder) {posState len : Nat}
    (hpos : lds.posState = posState)
    (h : (do
      let (m, d, input) ← fastTree (lenBase lds.isRep + coder.offset posState) coder.numBits 1 d input
      return (coder.value m, d, input)) = Except.ok (len, d', rest)) :
    CodedAs d d' fun e e' => e.decodeLenTree input lds coder 1 coder.numBits =
      .ok { value := some len, decoder := e', input := rest } := by
  obtain ⟨⟨m, d₁, rest₁⟩, htree, h⟩ := bind_eq_ok.mp h
  simp only [pure, Except.pure, Except.ok.injEq, Prod.mk.injEq] at h
  obtain ⟨rfl, rfl, rfl⟩ := h
  refine (fastTree_codedAs _ htree).mono ?_
  intro e e' hbits
  rw [decodeLenTree, hpos, hbits]
  rfl

/-- A length, from its first choice on. -/
theorem fastLen_codedAs (isRep : Bool) {posState len : Nat}
    (h : d.fastLen (lenBase isRep) posState input = .ok (len, d', rest)) :
    CodedAs d d' fun e e' => e.decodeLenChoice input { isRep, posState, phase := .choice } =
      .ok { value := some len, decoder := e', input := rest } := by
  unfold fastLen at h
  obtain ⟨⟨choice, d₁, rest₁⟩, hchoice, h⟩ := bind_eq_ok.mp h
  have hfirst := fastBit_codedAs hchoice
  simp only at h
  by_cases hlow : choice = 0
  · rw [if_pos hlow] at h
    refine hfirst.trans (fastLenTree_codedAs { isRep, posState, phase := .choice } .low rfl h) ?_
    intro e e' e'' hbit htree
    rw [decodeLenChoice, hbit]
    simp only [bind, Except.bind]
    rw [if_pos hlow]
    exact htree
  · rw [if_neg hlow] at h
    obtain ⟨⟨choice2, d₂, rest₂⟩, hchoice2, h⟩ := bind_eq_ok.mp h
    have hsecond := fastBit_codedAs hchoice2
    have hrest : CodedAs d₁ d' fun e e' => e.decodeLenChoice2 rest₁ { isRep, posState, phase := .choice } =
        .ok { value := some len, decoder := e', input := rest } := by
      simp only at h
      by_cases hmid : choice2 = 0
      · rw [if_pos hmid] at h
        refine hsecond.trans (fastLenTree_codedAs { isRep, posState, phase := .choice } .mid rfl h) ?_
        intro e e' e'' hbit htree
        rw [decodeLenChoice2, hbit]
        simp only [bind, Except.bind]
        rw [if_pos hmid]
        exact htree
      · rw [if_neg hmid] at h
        refine hsecond.trans (fastLenTree_codedAs { isRep, posState, phase := .choice } .high rfl h) ?_
        intro e e' e'' hbit htree
        rw [decodeLenChoice2, hbit]
        simp only [bind, Except.bind]
        rw [if_neg hmid]
        exact htree
    refine hfirst.trans hrest ?_
    intro e e' e'' hbit hmore
    rw [decodeLenChoice, hbit]
    simp only [bind, Except.bind]
    rw [if_neg hlow]
    exact hmore

/-- A distance, from its position slot on. -/
theorem fastDistance_codedAs {lenState : Nat} {dist : UInt32}
    (h : d.fastDistance lenState input = .ok (dist, d', rest)) :
    CodedAs d d' fun e e' => e.decodePosSlot input lenState 1 6 =
      .ok { value := some dist, decoder := e', input := rest } := by
  unfold fastDistance at h
  obtain ⟨⟨m, d₁, rest₁⟩, htree, h⟩ := bind_eq_ok.mp h
  have hfirst := fastTree_codedAs _ htree
  simp only at h
  by_cases hshort : m - 64 < kStartPosModelIndex
  · rw [if_pos hshort] at h
    simp only [pure, Except.pure, Except.ok.injEq, Prod.mk.injEq] at h
    obtain ⟨rfl, rfl, rfl⟩ := h
    refine hfirst.mono ?_
    intro e e' hslot
    rw [decodePosSlot, hslot]
    simp only [bind, Except.bind]
    rw [if_pos trivial, if_pos hshort]
    rfl
  · rw [if_neg hshort] at h
    by_cases hspec : m - 64 < kEndPosModelIndex
    · rw [if_pos hspec] at h
      obtain ⟨⟨symbol, d₂, rest₂⟩, hreverse, h⟩ := bind_eq_ok.mp h
      simp only [pure, Except.pure, Except.ok.injEq, Prod.mk.injEq] at h
      obtain ⟨rfl, rfl, rfl⟩ := h
      refine hfirst.trans (fastReverse_codedAs _ hreverse) ?_
      rintro e e' e'' hslot ⟨i', m', hbits⟩
      rw [decodePosSlot, hslot]
      simp only [bind, Except.bind]
      rw [if_pos trivial, if_neg hshort, if_pos hspec, decodeSpecPosBits, Nat.sub_zero, hbits]
      rfl
    · rw [if_neg hspec] at h
      obtain ⟨⟨direct, d₂, rest₂⟩, hdirect, h⟩ := bind_eq_ok.mp h
      obtain ⟨⟨symbol, d₃, rest₃⟩, hreverse, h⟩ := bind_eq_ok.mp h
      simp only [pure, Except.pure, Except.ok.injEq, Prod.mk.injEq] at h
      obtain ⟨rfl, rfl, rfl⟩ := h
      have hlast : CodedAs d₁ d₃ fun e e' =>
          e.decodeDirectBits rest₁ lenState (UInt32.ofNat (2 + (m - 64) % 2))
            ((m - 64) / 2 - 1 - kNumAlignBits) =
              .ok { value := some (direct <<< 4 ||| symbol), decoder := e', input := rest₃ } := by
        refine (fastDirect_codedAs _ hdirect).trans (fastReverse_codedAs _ hreverse) ?_
        rintro e e' e'' hdirect ⟨i', m', hbits⟩
        rw [decodeDirectBits, hdirect]
        simp only
        rw [if_pos trivial, decodeAlignBits, Nat.sub_zero, hbits]
        rfl
      refine hfirst.trans hlast ?_
      intro e e' e'' hslot hrest
      rw [decodePosSlot, hslot]
      simp only [bind, Except.bind]
      rw [if_pos trivial, if_neg hshort, if_neg hspec]
      exact hrest

end

end LzmaDecoder
end Iluvatar
