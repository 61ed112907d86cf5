/-
The range coder of BCJ2: the decoder reads every bit that the encoder wrote.

Both halve the same interval.  The encoder scales it when a bit is written, the decoder when the
next bit is read, so the decoder's interval is the encoder's before it is scaled.
-/
import Iluvatar.Library.RangeCoding
import Iluvatar.Compress.FilterWords
import Iluvatar.Compress.Bcj2

namespace Iluvatar

open RangeCoding Iluvatar.Filter

/-- A probability of which neither bit takes all. -/
def FairProb (p : Nat) : Prop := 31 ≤ p ∧ p ≤ 2017

/-- What a probability becomes when a bit is coded. -/
def movedProb (p : Nat) (bit : Bool) : Nat :=
  if bit then p - p >>> moveBits else p + (bitModelTotal - p) >>> moveBits

theorem FairProb.moved {p : Nat} (h : FairProb p) (bit : Bool) : FairProb (movedProb p bit) := by
  obtain ⟨hlow, hhigh⟩ := h
  unfold movedProb moveBits bitModelTotal FairProb
  rw [Nat.shiftRight_eq_div_pow, Nat.shiftRight_eq_div_pow]
  cases bit with
  | true =>
    simp only [if_true]
    omega
  | false =>
    simp only [Bool.false_eq_true, if_false]
    omega

theorem fair_set {probs : List Nat} {context p : Nat} (h : ∀ p ∈ probs, FairProb p) (hp : FairProb p) :
    ∀ q ∈ probs.set context p, FairProb q := by
  intro q hq
  rcases List.mem_or_eq_of_mem_set hq with hold | rfl
  · exact h q hold
  · exact hp

/-- An interval of numbers of so many digits. -/
structure CodeInterval where
  digits : Nat
  low : Nat
  range : Nat

namespace CodeInterval

def whole : CodeInterval := { digits := 5, low := 0, range := 2 ^ 32 - 1 }

/-- Where the interval is divided. -/
def bound (v : CodeInterval) (p : Nat) : Nat := (v.range >>> 11) * p

/-- The part of the interval for a bit. -/
def half (v : CodeInterval) (p : Nat) (bit : Bool) : CodeInterval :=
  if bit then { v with low := v.low + v.bound p, range := v.range - v.bound p } else { v with range := v.bound p }

/-- The interval with a digit more where it has become small. -/
def scaled (v : CodeInterval) : CodeInterval :=
  if v.range < bcj2Top then { digits := v.digits + 1, low := v.low * 256, range := v.range * 256 } else v

/-- The number that the digits stand for is in the interval. -/
def Inside (ds : List Byte) (v : CodeInterval) : Prop := Within ds v.digits v.low v.range

/-- An interval as it is between two bits. -/
def Wide (v : CodeInterval) : Prop := 2 ^ 24 ≤ v.range ∧ v.range < 2 ^ 32

variable {v : CodeInterval} {p : Nat}

theorem bound_lt (hwide : v.Wide) (hp : FairProb p) : 2 ^ 16 ≤ v.bound p ∧ v.bound p + 2 ^ 16 ≤ v.range := by
  obtain ⟨hlow, _⟩ := hwide
  obtain ⟨hplow, hphigh⟩ := hp
  unfold bound
  rw [Nat.shiftRight_eq_div_pow]
  have hcount : 2 ^ 13 ≤ v.range / 2 ^ 11 := by omega
  have hfirst := Nat.mul_le_mul hcount hplow
  have hsecond := Nat.mul_le_mul hcount (show 31 ≤ 2048 - p by omega)
  have hsum : v.range / 2 ^ 11 * p + v.range / 2 ^ 11 * (2048 - p) = v.range / 2 ^ 11 * 2048 := by
    rw [← Nat.mul_add, Nat.add_sub_cancel' (by omega)]
  omega

theorem half_within (hwide : v.Wide) (hp : FairProb p) (bit : Bool) : v.low ≤ (v.half p bit).low ∧
    (v.half p bit).low + (v.half p bit).range ≤ v.low + v.range ∧ 2 ^ 16 ≤ (v.half p bit).range ∧
    (v.half p bit).range < 2 ^ 32 := by
  obtain ⟨hfirst, hsecond⟩ := bound_lt hwide hp
  have hrange := hwide.2
  unfold half
  cases bit with
  | true =>
    simp only [if_true]
    omega
  | false =>
    simp only [Bool.false_eq_true, if_false]
    omega

theorem scaled_wide (hlow : 2 ^ 16 ≤ v.range) (hhigh : v.range < 2 ^ 32) : v.scaled.Wide := by
  unfold scaled Wide bcj2Top
  split
  · simp only
    omega
  · omega

theorem Inside.of_half {ds : List Byte} {bit : Bool} (hwide : v.Wide) (hp : FairProb p) (h : (v.half p bit).Inside ds) :
    v.Inside ds := by
  obtain ⟨hlow, hhigh, _⟩ := half_within hwide hp bit
  have hdigits : (v.half p bit).digits = v.digits := by cases bit <;> rfl
  unfold Inside at h
  rw [hdigits] at h
  exact h.widen hlow hhigh

theorem Inside.of_scaled {ds : List Byte} (h : v.scaled.Inside ds) : v.Inside ds := by
  unfold scaled at h
  split at h
  · exact h.unscale
  · exact h

end CodeInterval

/-! ## The encoder -/

namespace RangeEncoder

/-- What the encoder has written and holds back is the low end of an interval. -/
structure At (e : RangeEncoder) (v : CodeInterval) : Prop where
  emits : HoldsBack e.out e.cache (e.cacheSize - 1) e.low v.low v.range
  size_pos : 0 < e.cacheSize
  digits : v.digits = e.out.length + e.cacheSize + 4
  range : e.range = v.range

variable {e : RangeEncoder} {v : CodeInterval}

theorem new_at : new.At .whole where
  emits := ⟨rfl, by decide, by decide, by decide⟩
  size_pos := Nat.one_pos
  digits := rfl
  range := rfl

/-- A digit written, or one more held back. -/
theorem shiftLow_emits {N range : Nat} (h : HoldsBack e.out e.cache (e.cacheSize - 1) e.low N range)
    (hsize : 0 < e.cacheSize) (hrange : range ≤ 2 ^ 24) :
    HoldsBack e.shiftLow.out e.shiftLow.cache (e.shiftLow.cacheSize - 1) e.shiftLow.low (N * 256) (range * 256) ∧
      0 < e.shiftLow.cacheSize ∧
      e.shiftLow.out.length + e.shiftLow.cacheSize = e.out.length + e.cacheSize + 1 := by
  unfold shiftLow
  split
  · next hclear =>
    refine ⟨h.write hrange hclear, Nat.one_pos, ?_⟩
    simp only [List.length_append, List.length_cons, List.length_replicate]
    omega
  · next hfull =>
    obtain ⟨n, hn⟩ : ∃ n, e.cacheSize = n + 1 := ⟨e.cacheSize - 1, by omega⟩
    have hheld := h.hold hrange hfull
    refine ⟨?_, Nat.succ_pos _, rfl⟩
    simp only
    rw [hn] at hheld ⊢
    exact hheld

theorem shiftLow_range (e : RangeEncoder) : e.shiftLow.range = e.range := by
  unfold shiftLow
  split <;> rfl

theorem shiftLow_low (e : RangeEncoder) : e.shiftLow.low = e.low % 2 ^ 24 * 256 := by
  unfold shiftLow
  split <;> rfl

/-- The end of an encoding: the interval is narrow by a factor of 2^16 at most. -/
theorem normalize_at (h : e.At v) (hlow : 2 ^ 16 ≤ v.range) (hhigh : v.range < 2 ^ 32) : (e.normalize 3).At v.scaled := by
  have hwide := CodeInterval.scaled_wide hlow hhigh
  unfold CodeInterval.scaled at hwide ⊢
  unfold normalize
  by_cases hsmall : v.range < bcj2Top
  · rw [if_pos hsmall] at hwide ⊢
    rw [if_pos (h.range ▸ hsmall)]
    have hnarrow : v.range < 2 ^ 24 := hsmall
    obtain ⟨hemits, hsize, hlength⟩ := shiftLow_emits (e := { e with range := e.range * 256 }) h.emits h.size_pos (by omega)
    have hrange : ({ e with range := e.range * 256 } : RangeEncoder).shiftLow.range = v.range * 256 := by
      rw [shiftLow_range, ← h.range]
    generalize ({ e with range := e.range * 256 } : RangeEncoder).shiftLow = e' at hemits hsize hlength hrange ⊢
    unfold normalize
    have hdone : ¬ e'.range < bcj2Top := hrange ▸ Nat.not_lt.mpr hwide.1
    have hdigits := h.digits
    rw [if_neg hdone]
    refine ⟨hemits, hsize, ?_, hrange⟩
    simp only at hlength ⊢
    omega
  · rw [if_neg hsmall, if_neg (h.range ▸ hsmall)]
    exact h

theorem encode_at (h : e.At v) (hwide : v.Wide) {p : Nat} (hp : FairProb p) (bit : Bool) :
    (e.encode p bit).1.At (v.half p bit).scaled ∧ (e.encode p bit).2 = movedProb p bit := by
  obtain ⟨_, _, hlow, hhigh⟩ := CodeInterval.half_within hwide hp bit
  obtain ⟨hfirst, hsecond⟩ := CodeInterval.bound_lt hwide hp
  have hbound : (e.range >>> 11) * p = v.bound p := by
    rw [h.range]
    rfl
  have hdigits := h.digits
  unfold encode
  simp only [hbound]
  cases bit with
  | true =>
    have hnarrow : HoldsBack e.out e.cache (e.cacheSize - 1) (e.low + v.bound p) (v.low + v.bound p) (v.range - v.bound p) :=
      h.emits.narrow (by omega) (by omega)
    refine ⟨normalize_at ⟨hnarrow, h.size_pos, hdigits, ?_⟩ hlow hhigh, rfl⟩
    show e.range - v.bound p = _
    rw [h.range]
    rfl
  | false =>
    have hnarrow : HoldsBack e.out e.cache (e.cacheSize - 1) e.low v.low (v.bound p) := h.emits.shrink (by omega) (by omega)
    exact ⟨normalize_at ⟨hnarrow, h.size_pos, hdigits, rfl⟩ hlow hhigh, rfl⟩

/-- A digit more for the low end of the interval. -/
theorem shift_end {N : Nat} (h : HoldsBack e.out e.cache (e.cacheSize - 1) e.low N 1) (hsize : 0 < e.cacheSize) :
    HoldsBack e.shiftLow.out e.shiftLow.cache (e.shiftLow.cacheSize - 1) e.shiftLow.low (N * 256) 1 ∧
      0 < e.shiftLow.cacheSize ∧
      e.shiftLow.out.length + e.shiftLow.cacheSize = e.out.length + e.cacheSize + 1 ∧
      e.shiftLow.low = e.low % 2 ^ 24 * 256 := by
  obtain ⟨hemits, hpos, hlength⟩ := shiftLow_emits h hsize (by omega)
  exact ⟨hemits.shrink Nat.one_pos (by omega), hpos, hlength, shiftLow_low e⟩

/-- The whole output is the low end of the interval. -/
theorem finish_inside (h : e.At v) : v.Inside e.finish := by
  have hpos := h.emits.range_pos
  obtain ⟨h1, p1, l1, w1⟩ := shift_end (h.emits.shrink Nat.one_pos hpos) h.size_pos
  obtain ⟨h2, p2, l2, w2⟩ := shift_end h1 p1
  obtain ⟨h3, p3, l3, w3⟩ := shift_end h2 p2
  obtain ⟨h4, p4, l4, w4⟩ := shift_end h3 p3
  have hclear : e.shiftLow.shiftLow.shiftLow.shiftLow.low = 0 := by omega
  obtain ⟨h5, p5, l5, w5⟩ := shift_end h4 p4
  have hdigits := h.digits
  have hone : e.shiftLow.shiftLow.shiftLow.shiftLow.shiftLow.cacheSize = 1 ∧
      e.shiftLow.shiftLow.shiftLow.shiftLow.shiftLow.cache = 0 := by
    generalize e.shiftLow.shiftLow.shiftLow.shiftLow = e' at hclear
    unfold shiftLow
    rw [hclear]
    exact ⟨rfl, rfl⟩
  have hnumber := h5.number
  rw [hone.1, hone.2, w5, hclear] at hnumber
  have hvalue : value e.finish = v.low := by
    unfold finish
    have hzero : (0 : Byte).toNat = 0 := rfl
    rw [hzero] at hnumber
    omega
  have hlength : e.finish.length = v.digits := by
    unfold finish
    omega
  refine ⟨Nat.le_of_eq hlength.symm, ?_, ?_⟩
  · rw [hvalue, hlength, Nat.sub_self, Nat.pow_zero, Nat.mul_one]
  · rw [hvalue, hlength, Nat.sub_self, Nat.pow_zero, Nat.mul_one]
    omega

end RangeEncoder

/-! ## The decoder -/

namespace Bcj2State

/-- The digits taken, less the low end of the interval, are the code. -/
structure Reads (ds : List Byte) (v : CodeInterval) (st : Bcj2State) : Prop where
  digits : st.rcPos = v.digits
  range : st.range = v.range
  code : st.code + v.low = value (ds.take v.digits)

variable {streams : Bcj2Streams} {v : CodeInterval} {st : Bcj2State}

theorem normalize_reads (h : Reads streams.rc v st) (hin : v.scaled.Inside streams.rc) :
    ∃ range code rcPos, st.normalize streams = .ok { st with range, code, rcPos } ∧
      Reads streams.rc v.scaled { st with range, code, rcPos } := by
  have hknown := hin.known
  obtain ⟨_, hcode⟩ := hin.of_scaled.digits
  have hat := h.code
  unfold normalize
  unfold CodeInterval.scaled at hknown ⊢
  rw [h.range]
  by_cases hsmall : v.range < bcj2Top
  · rw [if_pos hsmall] at hknown ⊢
    rw [if_pos hsmall]
    obtain ⟨d, hd⟩ : ∃ d, streams.rc[v.digits]? = some d := ⟨_, List.getElem?_eq_getElem hknown⟩
    rw [h.digits, hd]
    refine ⟨_, _, _, rfl, rfl, rfl, ?_⟩
    unfold bcj2Top at hsmall
    simp only
    rw [value_next hd, Nat.mod_eq_of_lt (by omega)]
    omega
  · rw [if_neg hsmall, if_neg hsmall]
    exact ⟨_, _, _, rfl, h⟩

/-- A bit is read: it is the one for which the number is in the half of the interval. -/
theorem bit_reads (h : Reads streams.rc v st) {context p : Nat} {bit : Bool} (hwide : v.scaled.Wide) (hp : FairProb p)
    (hprob : st.probs[context]? = some p) (hin : (v.scaled.half p bit).Inside streams.rc) :
    ∃ range code rcPos,
      st.bit streams context =
          .ok (bit, { st with range, code, rcPos, probs := st.probs.set context (movedProb p bit) }) ∧
        Reads streams.rc (v.scaled.half p bit)
          { st with range, code, rcPos, probs := st.probs.set context (movedProb p bit) } := by
  obtain ⟨range, code, rcPos, hnormal, hreads⟩ := normalize_reads h (hin.of_half hwide hp)
  obtain ⟨hrcPos, hrange, hcode⟩ := hreads
  obtain ⟨hfirst, hsecond⟩ := CodeInterval.bound_lt hwide hp
  obtain ⟨hlow, hhigh⟩ := hin.digits
  have hbound : (range >>> 11) * p = v.scaled.bound p := by
    simp only at hrange
    rw [hrange]
    rfl
  unfold Bcj2State.bit
  rw [hnormal]
  simp only [bind, Except.bind, hprob, hbound]
  simp only at hrcPos hrange hcode
  cases bit with
  | true =>
    unfold CodeInterval.half at hlow hhigh ⊢
    simp only [if_true] at hlow hhigh ⊢
    rw [if_neg (by omega)]
    refine ⟨_, _, _, rfl, hrcPos, ?_, ?_⟩
    · simp only
      rw [hrange]
    · simp only
      omega
  | false =>
    unfold CodeInterval.half at hlow hhigh ⊢
    simp only [Bool.false_eq_true, if_false] at hlow hhigh ⊢
    rw [if_pos (by omega)]
    exact ⟨_, _, _, rfl, hrcPos, rfl, hcode⟩

/-- The range coder's stream begins as it must. -/
theorem initial_reads (hin : CodeInterval.whole.Inside streams.rc) :
    ∃ st, initial streams = .ok st ∧ Reads streams.rc .whole st ∧ st.probs = List.replicate bcj2NumProbs (bitModelTotal >>> 1) ∧
      st.callPos = 0 ∧ st.jumpPos = 0 ∧ st.ip = 0 ∧ st.prev = 0 ∧ st.pending = [] ∧ st.finished = false := by
  have hknown : 5 ≤ streams.rc.length := hin.known
  obtain ⟨_, hcode⟩ := hin.digits
  have hcode : value (streams.rc.take 5) < 0 + (2 ^ 32 - 1) := hcode
  unfold initial
  match hrc : streams.rc, hknown with
  | b0 :: b1 :: b2 :: b3 :: b4 :: rest, _ =>
    rw [hrc] at hcode
    have hbytes : value [b0, b1, b2, b3, b4] = b0.toNat * 2 ^ 32 + (load32Be [b1, b2, b3, b4]).toNat := by
      have hload : (load32Be [b1, b2, b3, b4]).toNat = beWord b1 b2 b3 b4 := beSrc_toNat b1 b2 b3 b4
      have hnil : value [] = 0 := rfl
      rw [hload, value_cons, value_cons, value_cons, value_cons, value_cons, hnil]
      unfold beWord
      simp only [List.length_cons, List.length_nil, Nat.reduceAdd, Nat.reducePow]
      omega
    have hvalue : value [b0, b1, b2, b3, b4] < 2 ^ 32 - 1 := by
      rw [Nat.zero_add] at hcode
      exact hcode
    rw [hbytes] at hvalue
    have hzero : b0 = 0 := UInt8.toNat_inj.mp (show b0.toNat = 0 by omega)
    simp only
    have hcode : (load32Be [b1, b2, b3, b4]).toNat ≠ 2 ^ 32 - 1 := by omega
    rw [if_neg fun hbad => hbad.elim (fun hne => hne hzero) hcode]
    refine ⟨_, rfl, ⟨rfl, rfl, ?_⟩, rfl, rfl, rfl, rfl, rfl, rfl, rfl⟩
    show (load32Be [b1, b2, b3, b4]).toNat + 0 = value [b0, b1, b2, b3, b4]
    have hfirst : b0.toNat = 0 := by
      rw [hzero]
      rfl
    rw [hbytes, hfirst]
    omega

end Bcj2State
end Iluvatar
