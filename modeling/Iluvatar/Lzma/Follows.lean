/-
What it is for a function of the decoder to follow the symbol machine.

`Follows A start input after r` says that the answer `r` is what the machine does from
`start`: it fails where the machine fails, it needs input where the machine does, and where
it has a value, `after` relates it to the state the machine has come to and the bytes it
has written.  `A` says how such a function answers, so that the resumable functions and the
fast path share what is proved here.
-/
import Iluvatar.Lzma.SymbolMachine

namespace Iluvatar

open Sansio

namespace SymbolState

open LzmaDecoder LzmaWindow

variable {ρ α : Type}

/-- How a function answers where it needs input, and where it has a value. -/
structure Answers (ρ α : Type) where
  need : SymbolState → List Byte → Except Fault ρ
  value : α → SymbolState → List Byte → ρ

inductive Follows (A : Answers ρ α) (start : SymbolState) (input : List Byte)
    (after : α → SymbolState → SymbolState × List Byte → Prop) : Except Fault ρ → Prop where
  | failed {f : Fault} {d : SymbolState} {rest out : List Byte} :
      symbolMachine.Runs start input out d rest → step d rest = .halt (.error f) →
      Follows A start input after (.error f)
  | suspended {d : SymbolState} :
      symbolMachine.Runs start input [] d [] → step d [] = .need →
      Follows A start input after (A.need d [])
  | done {a : α} {d d' : SymbolState} {rest out : List Byte} :
      after a d (d', out) → symbolMachine.Runs start input out d' rest →
      Follows A start input after (.ok (A.value a d rest))

/-- What a function answers after a bit, against what the machine does after it. -/
inductive Continues (A : Answers ρ α) (rest : List Byte)
    (after : α → SymbolState → SymbolState × List Byte → Prop) :
    Except Fault (SymbolState × List Byte) → Except Fault ρ → Prop where
  | failed {f : Fault} : Continues A rest after (.error f) (.error f)
  | silent {d : SymbolState} {r : Except Fault ρ} :
      Follows A d rest after r → Continues A rest after (.ok (d, [])) r
  | done {a : α} {d d' : SymbolState} {out : List Byte} : after a d (d', out) →
      Continues A rest after (.ok (d', out)) (.ok (A.value a d rest))

variable {A : Answers ρ α} {start mid d s : SymbolState} {input rest : List Byte} {idx : Nat}
  {after : α → SymbolState → SymbolState × List Byte → Prop} {r : Except Fault ρ}

theorem Follows.step (hstep : SymbolState.step start input = .move mid rest [])
    (h : Follows A mid rest after r) : Follows A start input after r := by
  have hfirst : symbolMachine.Runs start input [] mid rest := Machine.Runs.single hstep
  cases h with
  | failed hrun hhalt => exact .failed (hfirst.trans hrun) hhalt
  | suspended hrun hneed => exact .suspended (hfirst.trans hrun) hneed
  | done hafter hrun => exact .done hafter (hfirst.trans hrun)

theorem Follows.here {a : α} (hafter : after a d (start, [])) :
    Follows A start input after (.ok (A.value a d input)) :=
  .done hafter (Machine.Runs.refl _ _)

/-- A function that decodes a bit follows the machine if it goes on as the machine does. -/
theorem Follows.ofBit {k : Nat → SymbolState → Except Fault (SymbolState × List Byte)}
    {f : Option (Nat × SymbolState × List Byte) → Except Fault ρ}
    (hrange : start.rangeDecoder = d.rangeDecoder) (hprobs : start.probs = d.probs)
    (hstep : SymbolState.step start input = onBit start idx input k)
    (hneed : f none = A.need start input)
    (hbit : ∀ b rangeDecoder probs rest, Continues A rest after
      (k b { start with rangeDecoder, probs }) (f (some (b, { d with rangeDecoder, probs }, rest)))) :
    Follows A start input after (d.bit idx input >>= f) := by
  unfold onBit at hstep
  unfold LzmaDecoder.bit at hstep ⊢
  rw [hprobs] at hstep
  match hget : d.probs[idx]? with
  | none =>
    rw [hget] at hstep
    exact .failed (Machine.Runs.refl _ _) hstep
  | some p =>
    rw [hget, hrange] at hstep
    simp only at hstep ⊢
    match hdecode : d.rangeDecoder.decodeBit p input with
    | none =>
      rw [hdecode] at hstep
      obtain rfl := RangeDecoder.decodeBit_none hdecode
      show Follows A start [] after (f none)
      rw [hneed]
      exact .suspended (Machine.Runs.refl _ _) hstep
    | some (b, p', rangeDecoder, rest) =>
      rw [hdecode] at hstep
      simp only at hstep
      have hnext := hbit b rangeDecoder (d.probs.set idx p') rest
      show Follows A start input after
        (f (some (b, { d with rangeDecoder, probs := d.probs.set idx p' }, rest)))
      generalize k b { start with rangeDecoder, probs := d.probs.set idx p' } = next at hnext hstep
      generalize f (some (b, { d with rangeDecoder, probs := d.probs.set idx p' }, rest)) = answer
        at hnext ⊢
      cases hnext with
      | failed => exact .failed (Machine.Runs.refl _ _) hstep
      | silent hfollows => exact hfollows.step hstep
      | done hafter => exact .done hafter (Machine.Runs.single hstep)

/-- A bit tree follows the machine through the states `q m n`, which decode it bit by bit. -/
theorem Follows.ofTree {base : Nat} {q : Nat → Nat → RangeDecoder → List UInt16 → SymbolState}
    {k : Nat → Nat → Nat → SymbolState → Except Fault (SymbolState × List Byte)}
    {g : Nat × Nat × SymbolState × List Byte → Except Fault ρ}
    (hset : ∀ m n rangeDecoder probs rangeDecoder' probs',
      { q m n rangeDecoder probs with rangeDecoder := rangeDecoder', probs := probs' } =
        q m n rangeDecoder' probs')
    (hstep : ∀ m n rangeDecoder probs input, SymbolState.step (q m (n + 1) rangeDecoder probs) input =
      onBit (q m (n + 1) rangeDecoder probs) (base + m) input (k m n))
    (hk : ∀ m n b rangeDecoder probs, k m n b (q m (n + 1) rangeDecoder probs) =
      .ok (q (2 * m + b) n rangeDecoder probs, []))
    (hleaf : ∀ m rangeDecoder probs rest, Follows A (q m 0 rangeDecoder probs) rest after
      (g (m, 0, { d with rangeDecoder, probs }, rest)))
    (hneed : ∀ m n rangeDecoder probs rest, g (m, n + 1, { d with rangeDecoder, probs }, rest) =
      A.need (q m (n + 1) rangeDecoder probs) rest) :
    ∀ n m rangeDecoder probs input, Follows A (q m n rangeDecoder probs) input after
      (bitTree base n m { d with rangeDecoder, probs } input >>= g) := by
  intro n
  induction n with
  | zero => intro m rangeDecoder probs input; exact hleaf m rangeDecoder probs input
  | succ n ih =>
    intro m rangeDecoder probs input
    have hsame := hset m (n + 1) rangeDecoder probs rangeDecoder probs
    rw [bitTree, bind_assoc]
    refine .ofBit ?_ ?_ (hstep m n rangeDecoder probs input) (hneed m n rangeDecoder probs input) ?_
    · rw [← hsame]
    · rw [← hsame]
    · intro b rangeDecoder' probs' rest
      rw [hset, hk]
      exact .silent (ih (2 * m + b) rangeDecoder' probs' rest)

/-- The same for the bits of a reverse bit tree up to bit `t`. -/
theorem Follows.ofReverse {base t : Nat}
    {q : Nat → Nat → UInt32 → RangeDecoder → List UInt16 → SymbolState}
    {k : Nat → Nat → UInt32 → Nat → SymbolState → Except Fault (SymbolState × List Byte)}
    {g : Nat × Nat × Nat × UInt32 × SymbolState × List Byte → Except Fault ρ}
    (hset : ∀ i m symbol rangeDecoder probs rangeDecoder' probs',
      { q i m symbol rangeDecoder probs with rangeDecoder := rangeDecoder', probs := probs' } =
        q i m symbol rangeDecoder' probs')
    (hstep : ∀ i m symbol rangeDecoder probs input, i < t →
      SymbolState.step (q i m symbol rangeDecoder probs) input =
        onBit (q i m symbol rangeDecoder probs) (base + m) input (k i m symbol))
    (hk : ∀ i m symbol b rangeDecoder probs, k i m symbol b (q i m symbol rangeDecoder probs) =
      .ok (q (i + 1) (2 * m + b) (symbol ||| UInt32.ofNat b <<< UInt32.ofNat i)
        rangeDecoder probs, []))
    (hleaf : ∀ i m symbol rangeDecoder probs rest, ¬ i < t →
      Follows A (q i m symbol rangeDecoder probs) rest after
        (g (0, i, m, symbol, { d with rangeDecoder, probs }, rest)))
    (hneed : ∀ n i m symbol rangeDecoder probs rest,
      g (n + 1, i, m, symbol, { d with rangeDecoder, probs }, rest) =
        A.need (q i m symbol rangeDecoder probs) rest) :
    ∀ n i m symbol rangeDecoder probs input, t - i = n →
      Follows A (q i m symbol rangeDecoder probs) input after
        (reverseBits base n i m symbol { d with rangeDecoder, probs } input >>= g) := by
  intro n
  induction n with
  | zero =>
    intro i m symbol rangeDecoder probs input hleft
    exact hleaf i m symbol rangeDecoder probs input (by omega)
  | succ n ih =>
    intro i m symbol rangeDecoder probs input hleft
    have hsame := hset i m symbol rangeDecoder probs rangeDecoder probs
    rw [reverseBits, bind_assoc]
    refine .ofBit ?_ ?_ (hstep i m symbol rangeDecoder probs input (by omega))
      (hneed n i m symbol rangeDecoder probs input) ?_
    · rw [← hsame]
    · rw [← hsame]
    · intro b rangeDecoder' probs' rest
      rw [hset, hk]
      exact .silent (ih _ _ _ rangeDecoder' probs' rest (by omega))

/-- The same for direct bits. -/
theorem Follows.ofDirect {q : Nat → UInt32 → RangeDecoder → SymbolState}
    {k : UInt32 → Nat → Nat → SymbolState → SymbolState}
    {g : Nat × UInt32 × SymbolState × List Byte → Except Fault ρ}
    (hrange : ∀ n dist rangeDecoder, (q n dist rangeDecoder).rangeDecoder = rangeDecoder)
    (hstep : ∀ n dist rangeDecoder input, SymbolState.step (q (n + 1) dist rangeDecoder) input =
      onDirectBit (q (n + 1) dist rangeDecoder) input (k dist n))
    (hk : ∀ n dist b rangeDecoder rangeDecoder',
      k dist n b { q (n + 1) dist rangeDecoder with rangeDecoder := rangeDecoder' } =
        q n (dist <<< 1 + UInt32.ofNat b) rangeDecoder')
    (hleaf : ∀ dist rangeDecoder rest, Follows A (q 0 dist rangeDecoder) rest after
      (g (0, dist, { d with rangeDecoder }, rest)))
    (hneed : ∀ n dist rangeDecoder rest, g (n + 1, dist, { d with rangeDecoder }, rest) =
      A.need (q (n + 1) dist rangeDecoder) rest) :
    ∀ n dist rangeDecoder input, Follows A (q n dist rangeDecoder) input after
      (g (directBits n dist { d with rangeDecoder } input)) := by
  intro n
  induction n with
  | zero => intro dist rangeDecoder input; exact hleaf dist rangeDecoder input
  | succ n ih =>
    intro dist rangeDecoder input
    have hnext := hstep n dist rangeDecoder input
    unfold onDirectBit at hnext
    rw [hrange] at hnext
    rw [directBits]
    simp only
    match hdecode : rangeDecoder.decodeDirectBit input with
    | none =>
      rw [hdecode] at hnext
      obtain rfl := RangeDecoder.decodeDirectBit_none hdecode
      rw [hneed]
      exact .suspended (Machine.Runs.refl _ _) hnext
    | some (b, rangeDecoder', rest) =>
      rw [hdecode] at hnext
      simp only [hk] at hnext
      exact .step hnext (ih _ rangeDecoder' rest)

/-- A symbol of at least one needs no more bits than the fuel has steps. -/
theorem symbol_child {symbol b fuel : Nat} (h : 0x100 ≤ symbol * 2 ^ (fuel + 1)) :
    0x100 ≤ (2 * symbol + b) * 2 ^ fuel := by
  rw [Nat.pow_succ] at h
  calc 0x100 ≤ symbol * (2 ^ fuel * 2) := h
    _ = 2 * symbol * 2 ^ fuel := by rw [Nat.mul_comm (2 ^ fuel), ← Nat.mul_assoc, Nat.mul_comm 2]
    _ ≤ (2 * symbol + b) * 2 ^ fuel := Nat.mul_le_mul_right _ (Nat.le_add_right _ _)

theorem plainLiteral_follows {g : Resumed History LiteralState → Except Fault ρ}
    {litState : Nat} (hinit : s.rcInitialized = true)
    (hfull : ∀ ls rangeDecoder probs rest, 0x100 ≤ ls.symbol →
      Follows A { s with rangeDecoder, probs, phase := .literal ls } rest after
        (g { value := some ls, decoder := { d with rangeDecoder, probs }, input := rest }))
    (hneed : ∀ ls rangeDecoder probs rest,
      g { value := none, decoder := { d with rangeDecoder, probs, phase := .literal ls }, input := rest } =
        A.need { s with rangeDecoder, probs, phase := .literal ls } rest) :
    ∀ fuel ls rangeDecoder probs input, ls.litState = litState →
      ls.matched = false ∨ 0x100 ≤ ls.symbol → 0x100 ≤ ls.symbol * 2 ^ fuel →
      Follows A { s with rangeDecoder, probs, phase := .literal ls } input after
        (plainLiteral (baseProbsSize + kLzmaLitSize * litState) (fuel + 1) ls
          { d with rangeDecoder, probs } input >>= g) := by
  intro fuel
  induction fuel with
  | zero =>
    intro ls rangeDecoder probs input _ _ henough
    have hdone : 0x100 ≤ ls.symbol := by omega
    rw [plainLiteral, if_pos hdone]
    exact hfull ls rangeDecoder probs input hdone
  | succ fuel ih =>
    intro ls rangeDecoder probs input hlit hplain henough
    by_cases hdone : 0x100 ≤ ls.symbol
    · rw [plainLiteral, if_pos hdone]
      exact hfull ls rangeDecoder probs input hdone
    · have hplain : ls.matched = false := hplain.resolve_right hdone
      have hsame : { ls with matched := false } = ls := by rw [← hplain]
      have hstep : SymbolState.step { s with rangeDecoder, probs, phase := .literal ls } input =
          onBit { s with rangeDecoder, probs, phase := .literal ls }
            (baseProbsSize + kLzmaLitSize * litState + ls.symbol) input fun b d =>
              return ({ d with phase := .literal { ls with symbol := 2 * ls.symbol + b } }, []) := by
        rw [SymbolState.step, if_pos hinit]
        simp only [literalStep, if_neg hdone, hplain, Bool.false_eq_true, if_false, hlit]
      rw [plainLiteral, if_neg hdone, bind_assoc]
      refine .ofBit rfl rfl hstep ?_ ?_
      · simp only [hsame]
        exact hneed ls rangeDecoder probs input
      · intro b rangeDecoder' probs' rest
        exact .silent (ih { ls with symbol := 2 * ls.symbol + b } rangeDecoder' probs' rest hlit
          (.inl hplain) (symbol_child henough))

theorem matchedLiteral_follows {g : Resumed History LiteralState → Except Fault ρ}
    {litState : Nat} (hinit : s.rcInitialized = true)
    (hplain : ∀ ls rangeDecoder probs rest, ls.litState = litState → 1 ≤ ls.symbol →
      ls.matched = false ∨ 0x100 ≤ ls.symbol →
      Follows A { s with rangeDecoder, probs, phase := .literal ls } rest after
        (g { value := some ls, decoder := { d with rangeDecoder, probs }, input := rest }))
    (hneed : ∀ ls rangeDecoder probs rest,
      g { value := none, decoder := { d with rangeDecoder, probs, phase := .literal ls }, input := rest } =
        A.need { s with rangeDecoder, probs, phase := .literal ls } rest) :
    ∀ fuel ls rangeDecoder probs input, ls.litState = litState → ls.matched = true →
      1 ≤ ls.symbol → 0x100 ≤ ls.symbol * 2 ^ fuel →
      Follows A { s with rangeDecoder, probs, phase := .literal ls } input after
        (matchedLiteral (baseProbsSize + kLzmaLitSize * litState) (fuel + 1) ls
          { d with rangeDecoder, probs } input >>= g) := by
  intro fuel
  induction fuel with
  | zero =>
    intro ls rangeDecoder probs input hlit _ hpos henough
    have hdone : 0x100 ≤ ls.symbol := by omega
    rw [matchedLiteral, if_pos hdone]
    exact hplain ls rangeDecoder probs input hlit hpos (.inr hdone)
  | succ fuel ih =>
    intro ls rangeDecoder probs input hlit hmatched hpos henough
    by_cases hdone : 0x100 ≤ ls.symbol
    · rw [matchedLiteral, if_pos hdone]
      exact hplain ls rangeDecoder probs input hlit hpos (.inr hdone)
    · have hstep : SymbolState.step { s with rangeDecoder, probs, phase := .literal ls } input =
          onBit { s with rangeDecoder, probs, phase := .literal ls }
            (baseProbsSize + kLzmaLitSize * litState +
              (1 + (ls.matchByte >>> 7).toNat % 2) * 0x100 + ls.symbol) input fun b d =>
              let ls' := { ls with matchByte := ls.matchByte <<< 1, symbol := 2 * ls.symbol + b }
              return ({ d with phase := .literal (if (ls.matchByte >>> 7).toNat % 2 ≠ b
                then { ls' with matched := false } else ls') }, []) := by
        rw [SymbolState.step, if_pos hinit]
        simp only [literalStep, if_neg hdone, hmatched, if_true, hlit]
      rw [matchedLiteral, if_neg hdone, bind_assoc]
      refine .ofBit rfl rfl hstep (hneed ls rangeDecoder probs input) ?_
      intro b rangeDecoder' probs' rest
      have hpos' : 1 ≤ 2 * ls.symbol + b := by omega
      by_cases hdiffer : (ls.matchByte >>> 7).toNat % 2 ≠ b
      · simp only [if_pos hdiffer]
        exact .silent (hplain { ls with
          matchByte := ls.matchByte <<< 1, symbol := 2 * ls.symbol + b, matched := false }
          rangeDecoder' probs' rest hlit hpos' (.inl rfl))
      · simp only [if_neg hdiffer]
        exact .silent (ih { ls with matchByte := ls.matchByte <<< 1, symbol := 2 * ls.symbol + b }
          rangeDecoder' probs' rest hlit hmatched hpos' (symbol_child henough))

theorem step_matchLength {matchType : MatchType} (hinit : d.rcInitialized = true)
    (hphase : d.phase = .matchLength matchType) (input : List Byte) :
    SymbolState.step d input = lengthStep d matchType input := by
  rw [SymbolState.step, if_pos hinit, hphase]

theorem step_matchDistance {len lenState : Nat} (hinit : d.rcInitialized = true)
    (hphase : d.phase = .matchDistance len lenState) (input : List Byte) :
    SymbolState.step d input = distanceStep d len input := by
  rw [SymbolState.step, if_pos hinit, hphase]

/-- `s` decodes a length as `d` does, and `g` goes on with it as the machine does. -/
structure LenContinues (A : Answers ρ α) (after : α → SymbolState → SymbolState × List Byte → Prop)
    (s d : SymbolState) (matchType : MatchType) (lds : LenDecodeState)
    (g : Resumed History Nat → Except Fault ρ) : Prop where
  init : s.rcInitialized = true
  phase : s.phase = .matchLength matchType
  value : ∀ len rangeDecoder probs rest,
    Follows A ({ s with rangeDecoder, probs, lenDecodeState := none }.afterLength matchType len) rest
      after (g { value := some len, decoder := { d with rangeDecoder, probs }, input := rest })
  need : ∀ phase rangeDecoder probs rest,
    g { value := none
        decoder := { d with rangeDecoder, probs, lenDecodeState := some { lds with phase } }
        input := rest } =
      A.need (withLen { s with rangeDecoder, probs } lds phase) rest

section

variable {matchType : MatchType} {lds : LenDecodeState} {g : Resumed History Nat → Except Fault ρ}

theorem LenContinues.step (h : LenContinues A after s d matchType lds g) (phase : LenPhase)
    (rangeDecoder : RangeDecoder) (probs : List UInt16) (input : List Byte) :
    SymbolState.step (withLen { s with rangeDecoder, probs } lds phase) input =
      lengthStep (withLen { s with rangeDecoder, probs } lds phase) matchType input :=
  step_matchLength (d := withLen { s with rangeDecoder, probs } lds phase) h.init h.phase input

theorem decodeLenTree_follows (h : LenContinues A after s d matchType lds g) (coder : LenCoder)
    (m n : Nat) (rangeDecoder : RangeDecoder) (probs : List UInt16) (input : List Byte) :
    Follows A (withLen { s with rangeDecoder, probs } lds (coder.phase m n)) input after
      ({ d with rangeDecoder, probs }.decodeLenTree input lds coder m n >>= g) := by
  rw [decodeLenTree, bind_assoc]
  refine Follows.ofTree
    (q := fun m n rangeDecoder probs => withLen { s with rangeDecoder, probs } lds (coder.phase m n))
    (k := fun m n b d => .ok (withLen d lds (coder.phase (2 * m + b) n), [])) ?_ ?_ ?_ ?_ ?_ n m
    rangeDecoder probs input
  · intros; rfl
  · intro m n rangeDecoder probs input
    rw [h.step]
    cases coder <;> rfl
  · intros; rfl
  · intro m rangeDecoder probs rest
    have hstep : SymbolState.step (withLen { s with rangeDecoder, probs } lds (coder.phase m 0)) rest =
        .move (LzmaDecoder.afterLength { s with rangeDecoder, probs, lenDecodeState := none } matchType
          (coder.value m)) rest [] := by
      rw [h.step]
      cases coder <;> rfl
    exact .step hstep (h.value _ _ _ _)
  · intro m n rangeDecoder probs rest
    exact h.need _ _ _ _

theorem decodeLenChoice2_follows (h : LenContinues A after s d matchType lds g)
    (rangeDecoder : RangeDecoder) (probs : List UInt16) (input : List Byte) :
    Follows A (withLen { s with rangeDecoder, probs } lds .choice2) input after
      ({ d with rangeDecoder, probs }.decodeLenChoice2 input lds >>= g) := by
  have hstep : SymbolState.step (withLen { s with rangeDecoder, probs } lds .choice2) input =
      onBit (withLen { s with rangeDecoder, probs } lds .choice2) (lenBase lds.isRep + 1) input
        fun b d => return (withLen d { lds with phase := .choice2 }
          (if b = 0 then .mid 1 kLenNumMidBits else .high 1 kLenNumHighBits), []) :=
    h.step _ _ _ _
  rw [decodeLenChoice2, bind_assoc]
  refine .ofBit rfl rfl hstep (h.need _ _ _ _) ?_
  intro b rangeDecoder probs rest
  by_cases hzero : b = 0
  · simp only [if_pos hzero]
    exact .silent (decodeLenTree_follows h .mid 1 kLenNumMidBits rangeDecoder probs rest)
  · simp only [if_neg hzero]
    exact .silent (decodeLenTree_follows h .high 1 kLenNumHighBits rangeDecoder probs rest)

theorem decodeLenChoice_follows (h : LenContinues A after s d matchType lds g)
    (rangeDecoder : RangeDecoder) (probs : List UInt16) (input : List Byte) :
    Follows A (withLen { s with rangeDecoder, probs } lds .choice) input after
      ({ d with rangeDecoder, probs }.decodeLenChoice input lds >>= g) := by
  have hstep : SymbolState.step (withLen { s with rangeDecoder, probs } lds .choice) input =
      onBit (withLen { s with rangeDecoder, probs } lds .choice) (lenBase lds.isRep) input
        fun b d => return (withLen d { lds with phase := .choice }
          (if b = 0 then .low 1 kLenNumLowBits else .choice2), []) :=
    h.step _ _ _ _
  rw [decodeLenChoice, bind_assoc]
  refine .ofBit rfl rfl hstep (h.need _ _ _ _) ?_
  intro b rangeDecoder probs rest
  by_cases hzero : b = 0
  · simp only [if_pos hzero]
    exact .silent (decodeLenTree_follows h .low 1 kLenNumLowBits rangeDecoder probs rest)
  · simp only [if_neg hzero]
    exact .silent (decodeLenChoice2_follows h rangeDecoder probs rest)

end

/-- `s` decodes a distance as `d` does, and `g` goes on with it as the machine does. -/
structure DistContinues (A : Answers ρ α) (after : α → SymbolState → SymbolState × List Byte → Prop)
    (s d : SymbolState) (len lenState : Nat) (g : Resumed History UInt32 → Except Fault ρ) : Prop where
  init : s.rcInitialized = true
  phase : ∃ l, s.phase = .matchDistance len l
  value : ∀ dist rangeDecoder probs rest,
    Follows A (finishDistance { s with rangeDecoder, probs } len dist) rest after
      (g { value := some dist, decoder := { d with rangeDecoder, probs }, input := rest })
  need : ∀ phase rangeDecoder probs rest,
    g { value := none
        decoder := { d with rangeDecoder, probs, distDecodeState := some { lenState, phase } }
        input := rest } =
      A.need (withDist { s with rangeDecoder, probs } lenState phase) rest

section

variable {len lenState : Nat} {g : Resumed History UInt32 → Except Fault ρ}

theorem DistContinues.step (h : DistContinues A after s d len lenState g) (phase : DistPhase)
    (rangeDecoder : RangeDecoder) (probs : List UInt16) (input : List Byte) :
    SymbolState.step (withDist { s with rangeDecoder, probs } lenState phase) input =
      distanceStep (withDist { s with rangeDecoder, probs } lenState phase) len input := by
  obtain ⟨l, hphase⟩ := h.phase
  exact step_matchDistance (d := withDist { s with rangeDecoder, probs } lenState phase) h.init
    hphase input

theorem decodeSpecPosBits_follows (h : DistContinues A after s d len lenState g) (dist : UInt32)
    (probsOffset m : Nat) (symbol : UInt32) (i numBits : Nat) (rangeDecoder : RangeDecoder)
    (probs : List UInt16) (input : List Byte) :
    Follows A (withDist { s with rangeDecoder, probs } lenState
        (.specPosBits dist probsOffset m symbol i numBits)) input after
      ({ d with rangeDecoder, probs }.decodeSpecPosBits input lenState dist probsOffset m symbol i
        numBits >>= g) := by
  rw [decodeSpecPosBits, bind_assoc]
  refine Follows.ofReverse (t := numBits)
    (q := fun i m symbol rangeDecoder probs => withDist { s with rangeDecoder, probs } lenState
      (.specPosBits dist probsOffset m symbol i numBits))
    (k := fun i m symbol b d => .ok (withDist d lenState
      (.specPosBits dist probsOffset (2 * m + b) (symbol ||| UInt32.ofNat b <<< UInt32.ofNat i)
        (i + 1) numBits), [])) ?_ ?_ ?_ ?_ ?_ _ i m symbol rangeDecoder probs input rfl
  · intros; rfl
  · intro i m symbol rangeDecoder probs input hi
    rw [h.step, distanceStep]
    simp only [withDist, if_pos hi]
    rfl
  · intros; rfl
  · intro i m symbol rangeDecoder probs rest hi
    refine .step ?_ (h.value (dist + symbol) rangeDecoder probs rest)
    rw [h.step, distanceStep]
    simp only [withDist, if_neg hi]
    rfl
  · intro n i m symbol rangeDecoder probs rest
    exact h.need _ _ _ _

theorem decodeAlignBits_follows (h : DistContinues A after s d len lenState g) (dist : UInt32)
    (m : Nat) (symbol : UInt32) (i : Nat) (rangeDecoder : RangeDecoder) (probs : List UInt16)
    (input : List Byte) :
    Follows A (withDist { s with rangeDecoder, probs } lenState (.alignBits dist m symbol i)) input
      after ({ d with rangeDecoder, probs }.decodeAlignBits input lenState dist m symbol i >>= g) := by
  rw [decodeAlignBits, bind_assoc]
  refine Follows.ofReverse (t := kNumAlignBits)
    (q := fun i m symbol rangeDecoder probs => withDist { s with rangeDecoder, probs } lenState
      (.alignBits dist m symbol i))
    (k := fun i m symbol b d => .ok (withDist d lenState
      (.alignBits dist (2 * m + b) (symbol ||| UInt32.ofNat b <<< UInt32.ofNat i) (i + 1)), []))
    ?_ ?_ ?_ ?_ ?_ _ i m symbol rangeDecoder probs input rfl
  · intros; rfl
  · intro i m symbol rangeDecoder probs input hi
    rw [h.step, distanceStep]
    simp only [withDist, if_pos hi]
    rfl
  · intros; rfl
  · intro i m symbol rangeDecoder probs rest hi
    refine .step ?_ (h.value (dist ||| symbol) rangeDecoder probs rest)
    rw [h.step, distanceStep]
    simp only [withDist, if_neg hi]
    rfl
  · intro n i m symbol rangeDecoder probs rest
    exact h.need _ _ _ _

theorem decodeDirectBits_follows (h : DistContinues A after s d len lenState g) (dist : UInt32)
    (n : Nat) (rangeDecoder : RangeDecoder) (probs : List UInt16) (input : List Byte) :
    Follows A (withDist { s with rangeDecoder, probs } lenState (.directBits dist n)) input after
      ({ d with rangeDecoder, probs }.decodeDirectBits input lenState dist n >>= g) := by
  refine Follows.ofDirect
    (q := fun n dist rangeDecoder =>
      withDist { s with rangeDecoder, probs } lenState (.directBits dist n))
    (k := fun dist n b d => withDist d lenState (.directBits (dist <<< 1 + UInt32.ofNat b) n))
    (g := fun (n, dist, d, input) =>
      (if n = 0 then decodeAlignBits d input lenState (dist <<< 4) 1 0 0
      else
        .ok {
          value := none
          decoder := { d with distDecodeState := some { lenState, phase := .directBits dist n } }
          input }) >>= g)
    (d := { d with probs }) ?_ ?_ ?_ ?_ ?_ n dist rangeDecoder input
  · intros; rfl
  · intro n dist rangeDecoder input
    exact h.step _ _ _ _
  · intros; rfl
  · intro dist rangeDecoder rest
    exact .step (h.step _ _ _ _)
      (decodeAlignBits_follows h (dist <<< 4) 1 0 0 rangeDecoder probs rest)
  · intro n dist rangeDecoder rest
    exact h.need _ _ _ _

theorem decodePosSlot_follows (h : DistContinues A after s d len lenState g) (m n : Nat)
    (rangeDecoder : RangeDecoder) (probs : List UInt16) (input : List Byte) :
    Follows A (withDist { s with rangeDecoder, probs } lenState (.posSlot m n)) input after
      ({ d with rangeDecoder, probs }.decodePosSlot input lenState m n >>= g) := by
  rw [decodePosSlot, bind_assoc]
  refine Follows.ofTree
    (q := fun m n rangeDecoder probs =>
      withDist { s with rangeDecoder, probs } lenState (.posSlot m n))
    (k := fun m n b d => .ok (withDist d lenState (.posSlot (2 * m + b) n), []))
    ?_ ?_ ?_ ?_ ?_ n m rangeDecoder probs input
  · intros; rfl
  · intro m n rangeDecoder probs input
    exact h.step _ _ _ _
  · intros; rfl
  · intro m rangeDecoder probs rest
    have hleaf : SymbolState.step (withDist { s with rangeDecoder, probs } lenState (.posSlot m 0))
        rest = .move (afterPosSlot (withDist { s with rangeDecoder, probs } lenState (.posSlot m 0))
          len lenState (m - 64)) rest [] := h.step _ _ _ _
    refine .step hleaf ?_
    unfold afterPosSlot
    by_cases hstart : m - 64 < kStartPosModelIndex
    · simp only [if_pos hstart]
      exact h.value _ _ _ _
    · by_cases hend : m - 64 < kEndPosModelIndex
      · simp only [if_neg hstart, if_pos hend]
        exact decodeSpecPosBits_follows h _ _ _ _ _ _ rangeDecoder probs rest
      · simp only [if_neg hstart, if_neg hend]
        exact decodeDirectBits_follows h _ _ rangeDecoder probs rest
  · intro m n rangeDecoder probs rest
    exact h.need _ _ _ _

end

end SymbolState
end Iluvatar
