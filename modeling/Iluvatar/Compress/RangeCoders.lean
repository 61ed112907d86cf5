/-
The invariant of the range coders of LZMA and BCJ2.

A bit leaves the range at 2^16 or more, so the one byte that `normalize` takes makes it wide
again, and a probability between 31 and 2017 divides a wide range strictly inside.  Only a direct
bit can leave the code at the range itself, and it says so.
-/
import Iluvatar.Library.Fallible
import Iluvatar.Library.Loop
import Iluvatar.Compress.Bcj2Coder
import Iluvatar.Lzma.RangeCoder

namespace Iluvatar

open Iluvatar.Filter Sansio

/-- A wide range of 32 bits, and where a probability divides it: the product fits. -/
structure Divides (range bound p : Nat) : Prop where
  wide : 2 ^ 24 ≤ range
  word : range < 2 ^ 32
  product : bound = range / 2 ^ 11 * p
  pos : 0 < bound
  inside : bound < range

/-- Both parts of a wide range are left at 2^16 or more. -/
theorem parts_of_wide {range p : Nat} (hwide : 2 ^ 24 ≤ range) (hword : range < 2 ^ 32) (hp : FairProb p) :
    2 ^ 16 ≤ range / 2 ^ 11 * p ∧ range / 2 ^ 11 * p + 2 ^ 16 ≤ range := by
  have hparts := CodeInterval.bound_lt (v := { digits := 0, low := 0, range := range }) ⟨hwide, hword⟩ hp
  unfold CodeInterval.bound at hparts
  rwa [Nat.shiftRight_eq_div_pow] at hparts

theorem divides_of_wide {range p : Nat} (hwide : 2 ^ 24 ≤ range) (hword : range < 2 ^ 32) (hp : FairProb p) :
    Divides range (range / 2 ^ 11 * p) p := by
  obtain ⟨hfirst, hsecond⟩ := parts_of_wide hwide hword hp
  exact ⟨hwide, hword, rfl, by omega, by omega⟩

/-! ## LZMA -/

/-- A bit with a probability of its context, or one without. -/
inductive CodedBit where
  | modelled (context : Nat)
  | direct

/-- The range decoder with its probabilities and the input not yet taken. -/
structure BitCoder where
  rc : RangeDecoder
  probs : Nat → UInt16
  input : List Byte

namespace BitCoder

/-- One bit, if the input is enough for it. -/
def step (s : BitCoder) : CodedBit → Option BitCoder
  | .modelled context =>
    (s.rc.decodeBit (s.probs context) s.input).map fun (_, p, rc, input) =>
      { rc, probs := fun other => if other = context then p else s.probs other, input }
  | .direct => (s.rc.decodeDirectBit s.input).map fun (_, rc, input) => { s with rc, input }

/-- The code is inside the range, or the stream is said to be corrupt. -/
def Inside (rc : RangeDecoder) : Prop := rc.code < rc.range ∨ rc.corrupted = true

/-- What holds between two bits. -/
structure Sound (s : BitCoder) : Prop where
  probs : ∀ context, FairProb (s.probs context).toNat
  range : 2 ^ 16 ≤ s.rc.range.toNat
  inside : Inside s.rc

/-- What the next bit finds once the range is normalized. -/
def NextBit (s : BitCoder) : Prop :=
  ∀ rc rest, s.rc.normalize s.input = some (rc, rest) → Inside rc ∧ 2 ^ 24 ≤ rc.range.toNat ∧ ∀ context,
    let bound := (rc.range >>> kNumBitModelTotalBits) * (s.probs context).toUInt32
    Divides rc.range.toNat bound.toNat (s.probs context).toNat ∧
      (rc.range - bound).toNat = rc.range.toNat - bound.toNat ∧
      (¬ rc.code < bound → bound ≤ rc.code ∧ (rc.code - bound).toNat = rc.code.toNat - bound.toNat)

variable {rc : RangeDecoder}

theorem init_inside {rc₀ : RangeDecoder} {head rest : List Byte} (h : rc₀.init head = (true, rc, rest)) :
    rc.range = 0xFFFFFFFF ∧ Inside rc := by
  unfold RangeDecoder.init at h
  simp only at h
  split at h
  · cases h
  · obtain ⟨_, h⟩ := Prod.mk.inj h
    obtain ⟨rfl, _⟩ := Prod.mk.inj h
    refine ⟨rfl, ?_⟩
    unfold Inside
    generalize RangeDecoder.initCode _ = code
    by_cases hfull : code = 0xFFFFFFFF
    · right
      simp [hfull]
    · left
      have hlt := code.toNat_lt
      have hne : code.toNat ≠ 2 ^ 32 - 1 := fun heq => hfull (UInt32.toNat_inj.mp heq)
      rw [UInt32.lt_iff_toNat_lt]
      show code.toNat < 2 ^ 32 - 1
      omega

/-- One byte of input makes the range wide. -/
theorem normalize_wide {rc' : RangeDecoder} {input rest : List Byte} (hrange : 2 ^ 16 ≤ rc.range.toNat)
    (hinside : Inside rc) (h : rc.normalize input = some (rc', rest)) : 2 ^ 24 ≤ rc'.range.toNat ∧ Inside rc' := by
  have htop : kTopValue.toNat = 2 ^ 24 := rfl
  unfold RangeDecoder.normalize at h
  split at h
  · next hsmall =>
    split at h
    · cases h
    · next b _ =>
      obtain ⟨rfl, _⟩ := Prod.mk.inj (Option.some.inj h)
      rw [UInt32.lt_iff_toNat_lt, htop] at hsmall
      have hshift : (rc.range <<< 8).toNat = rc.range.toNat * 2 ^ 8 := by
        have hshift : (rc.range <<< 8).toNat = _ := shiftLeft_toNat rc.range (n := 8) (by decide)
        rw [hshift, Nat.mod_eq_of_lt (by omega)]
      refine ⟨by rw [hshift]; omega, ?_⟩
      rcases hinside with hin | hcorrupt
      · left
        rw [UInt32.lt_iff_toNat_lt] at hin
        have hb := b.toNat_lt
        have hcode : (rc.code <<< 8).toNat = rc.code.toNat * 2 ^ 8 := by
          have hcode : (rc.code <<< 8).toNat = _ := shiftLeft_toNat rc.code (n := 8) (by decide)
          rw [hcode, Nat.mod_eq_of_lt (by omega)]
        rw [UInt32.lt_iff_toNat_lt, UInt32.toNat_or, hcode, hshift, UInt8.toNat_toUInt32,
          or_below 8 (Nat.mul_mod_left _ _) hb]
        omega
      · exact .inr hcorrupt
  · next hbig =>
    obtain ⟨rfl, _⟩ := Prod.mk.inj (Option.some.inj h)
    rw [UInt32.lt_iff_toNat_lt, htop] at hbig
    exact ⟨Nat.le_of_not_lt hbig, hinside⟩

/-- The bound in the code's words. -/
theorem bound_toNat {range : UInt32} {p : UInt16} (hwide : 2 ^ 24 ≤ range.toNat) (hp : FairProb p.toNat) :
    ((range >>> kNumBitModelTotalBits) * p.toUInt32).toNat = range.toNat / 2 ^ 11 * p.toNat := by
  obtain ⟨_, hfits⟩ := parts_of_wide hwide range.toNat_lt hp
  have hword := range.toNat_lt
  have hshift : (range >>> kNumBitModelTotalBits).toNat = range.toNat / 2 ^ 11 :=
    shiftRight_toNat range (n := 11) (by decide)
  rw [UInt32.toNat_mul, hshift, UInt16.toNat_toUInt32, Nat.mod_eq_of_lt (by omega)]

/-- The two updates of a probability. -/
theorem moved_fair {p : UInt16} (hp : FairProb p.toNat) :
    FairProb (p.toUInt32 + ((kBitModelTotal - p.toUInt32) >>> kNumMoveBits)).toUInt16.toNat ∧
      FairProb (p.toUInt32 - (p.toUInt32 >>> kNumMoveBits)).toUInt16.toNat := by
  obtain ⟨hlow, hhigh⟩ := hp
  have hv : p.toUInt32.toNat = p.toNat := UInt16.toNat_toUInt32 p
  have hle : p.toUInt32 ≤ kBitModelTotal := by
    rw [UInt32.le_iff_toNat_le, hv]
    show p.toNat ≤ 2048
    omega
  have hup : ((kBitModelTotal - p.toUInt32) >>> kNumMoveBits).toNat = (2048 - p.toNat) / 2 ^ 5 := by
    have hshift : ((kBitModelTotal - p.toUInt32) >>> kNumMoveBits).toNat = _ :=
      shiftRight_toNat (kBitModelTotal - p.toUInt32) (n := 5) (by decide)
    rw [hshift, UInt32.toNat_sub_of_le _ _ hle, hv]
    rfl
  have hdown : (p.toUInt32 >>> kNumMoveBits).toNat = p.toNat / 2 ^ 5 := by
    have hshift : (p.toUInt32 >>> kNumMoveBits).toNat = _ := shiftRight_toNat p.toUInt32 (n := 5) (by decide)
    rw [hshift, hv]
  have hdownle : p.toUInt32 >>> kNumMoveBits ≤ p.toUInt32 := by
    rw [UInt32.le_iff_toNat_le, hdown, hv]
    omega
  unfold FairProb
  rw [UInt32.toNat_toUInt16, UInt32.toNat_add, hv, hup, UInt32.toNat_toUInt16,
    UInt32.toNat_sub_of_le _ _ hdownle, hdown, hv, Nat.mod_eq_of_lt (a := _ + _) (by omega),
    Nat.mod_eq_of_lt (by omega), Nat.mod_eq_of_lt (by omega)]
  constructor <;> omega

variable {s s' : BitCoder}

theorem modelled_sound {context : Nat} (hs : s.Sound) (h : s.step (.modelled context) = some s') : s'.Sound := by
  unfold step at h
  obtain ⟨⟨bit, p, rc', input⟩, hbit, rfl⟩ := Option.map_eq_some_iff.mp h
  obtain ⟨rc₁, hnormal⟩ := RangeDecoder.decodeBit_normalize hbit
  obtain ⟨hwide, hinside⟩ := normalize_wide hs.range hs.inside hnormal
  have hfair := hs.probs context
  obtain ⟨hfirst, hsecond⟩ := parts_of_wide hwide rc₁.range.toNat_lt hfair
  have hbound := bound_toNat hwide hfair
  obtain ⟨hup, hdown⟩ := moved_fair hfair
  have hprobs : FairProb p.toNat → ∀ other, FairProb (if other = context then p else s.probs other).toNat := by
    intro hp other
    split
    · exact hp
    · exact hs.probs other
  unfold RangeDecoder.decodeBit at hbit
  rw [hnormal] at hbit
  simp only at hbit
  split at hbit
  · next hlow =>
    simp only [Option.some.injEq, Prod.mk.injEq] at hbit
    obtain ⟨_, rfl, rfl, _⟩ := hbit
    refine ⟨hprobs hup, ?_, .inl hlow⟩
    simp only
    omega
  · next hhigh =>
    simp only [Option.some.injEq, Prod.mk.injEq] at hbit
    obtain ⟨_, rfl, rfl, _⟩ := hbit
    have hle : (rc₁.range >>> kNumBitModelTotalBits) * (s.probs context).toUInt32 ≤ rc₁.range := by
      rw [UInt32.le_iff_toNat_le]
      omega
    have hcode := UInt32.not_lt.mp hhigh
    have hrange := UInt32.toNat_sub_of_le _ _ hle
    refine ⟨hprobs hdown, ?_, ?_⟩
    · simp only
      omega
    · rcases hinside with hin | hcorrupt
      · left
        rw [UInt32.lt_iff_toNat_lt] at hin ⊢
        rw [UInt32.le_iff_toNat_le] at hcode
        simp only
        rw [hrange, UInt32.toNat_sub_of_le _ _ (UInt32.le_iff_toNat_le.mpr hcode)]
        omega
      · exact .inr hcorrupt

/-- The code after a direct bit is at most the range. -/
theorem direct_code (range code : UInt32) (hrange : range.toNat < 2 ^ 31) (hcode : code.toNat ≤ 2 * range.toNat) :
    (code - range + (range &&& ((0 : UInt32) - (code - range) >>> 31))).toNat ≤ range.toNat := by
  have hshift : ((code - range) >>> 31).toNat = (code - range).toNat / 2 ^ 31 :=
    shiftRight_toNat (code - range) (n := 31) (by decide)
  by_cases hle : range ≤ code
  · -- the difference is below 2^31, and nothing is added
    have hsub := UInt32.toNat_sub_of_le _ _ hle
    have hzero : (code - range) >>> 31 = 0 := by
      refine UInt32.toNat_inj.mp ?_
      rw [hshift]
      show _ = 0
      omega
    rw [hzero, UInt32.sub_zero, UInt32.and_zero, UInt32.add_zero]
    omega
  · -- the difference wraps, and the range is added again
    have hlt : code.toNat < range.toNat := by
      rw [UInt32.le_iff_toNat_le] at hle
      omega
    have hsub : (code - range).toNat = 2 ^ 32 - range.toNat + code.toNat := by
      have hword := range.toNat_lt
      rw [UInt32.toNat_sub, Nat.mod_eq_of_lt (by omega)]
    have hone : (code - range) >>> 31 = 1 := by
      refine UInt32.toNat_inj.mp ?_
      rw [hshift]
      show _ = 1
      omega
    have hmask : (0 : UInt32) - 1 = -1 := by decide
    rw [hone, hmask, UInt32.and_neg_one, UInt32.sub_add_cancel]
    omega

theorem direct_sound (hs : s.Sound) (h : s.step .direct = some s') : s'.Sound := by
  unfold step at h
  obtain ⟨⟨bit, rc', input⟩, hbit, rfl⟩ := Option.map_eq_some_iff.mp h
  unfold RangeDecoder.decodeDirectBit at hbit
  split at hbit
  · cases hbit
  · next rc₁ rest hnormal =>
    obtain ⟨hwide, hinside⟩ := normalize_wide hs.range hs.inside hnormal
    have hword := rc₁.range.toNat_lt
    have hhalf : (rc₁.range >>> 1).toNat = rc₁.range.toNat / 2 ^ 1 :=
      shiftRight_toNat rc₁.range (n := 1) (by decide)
    simp only [Option.some.injEq, Prod.mk.injEq] at hbit
    obtain ⟨_, rfl, _⟩ := hbit
    refine ⟨hs.probs, ?_, ?_⟩
    · simp only
      omega
    · rcases hinside with hin | hcorrupt
      · rw [UInt32.lt_iff_toNat_lt] at hin
        have hcode := direct_code (rc₁.range >>> 1) rc₁.code (by omega) (by omega)
        unfold Inside
        dsimp only
        generalize rc₁.code - rc₁.range >>> 1 +
          (rc₁.range >>> 1 &&& (0 : UInt32) - (rc₁.code - rc₁.range >>> 1) >>> 31) = code at hcode ⊢
        by_cases hedge : code = rc₁.range >>> 1
        · right
          simp [hedge]
        · left
          rw [UInt32.lt_iff_toNat_lt]
          have hne : code.toNat ≠ (rc₁.range >>> 1).toNat := fun heq => hedge (UInt32.toNat_inj.mp heq)
          omega
      · right
        simp [hcorrupt]

theorem step_sound (s : BitCoder) (bit : CodedBit) (s' : BitCoder) (hs : s.Sound) (h : s.step bit = some s') :
    s'.Sound := by
  cases bit with
  | modelled context => exact modelled_sound hs h
  | direct => exact direct_sound hs h

theorem Sound.nextBit (hs : s.Sound) : s.NextBit := by
  intro rc rest hnormal
  obtain ⟨hwide, hinside⟩ := normalize_wide hs.range hs.inside hnormal
  refine ⟨hinside, hwide, fun context => ?_⟩
  have hfair := hs.probs context
  have hbound := bound_toNat hwide hfair
  have hdivides := divides_of_wide hwide rc.range.toNat_lt hfair
  rw [← hbound] at hdivides
  refine ⟨hdivides, ?_, fun hhigh => ?_⟩
  · exact UInt32.toNat_sub_of_le _ _ (UInt32.le_iff_toNat_le.mpr (Nat.le_of_lt hdivides.inside))
  · have hle := UInt32.not_lt.mp hhigh
    exact ⟨hle, UInt32.toNat_sub_of_le _ _ hle⟩

end BitCoder

/-! ## BCJ2 -/

namespace Bcj2State

/-- One bit, if the stream is enough for it. -/
def coded (streams : Bcj2Streams) (st : Bcj2State) (context : Nat) : Option Bcj2State :=
  match st.bit streams context with
  | .ok (_, st) => some st
  | .error _ => none

/-- What holds between two bits. -/
structure Sound (st : Bcj2State) : Prop where
  probs : ∀ p ∈ st.probs, FairProb p
  range : 2 ^ 16 ≤ st.range
  word : st.range < 2 ^ 32
  inside : st.code < st.range

/-- What the next bit finds once the range is normalized. -/
def NextBit (streams : Bcj2Streams) (st : Bcj2State) : Prop :=
  ∀ st', st.normalize streams = .ok st' → st'.code < st'.range ∧ 2 ^ 24 ≤ st'.range ∧
    ∀ p ∈ st'.probs, Divides st'.range ((st'.range >>> 11) * p) p

variable {streams : Bcj2Streams} {st st' : Bcj2State}

theorem initial_sound (h : initial streams = .ok st) : st.Sound := by
  unfold initial at h
  split at h
  · next b0 b1 b2 b3 b4 _ _ =>
    simp only at h
    split at h
    · cases h
    · next hgood =>
      obtain rfl := Except.ok.inj h
      have hcode := (load32Be [b1, b2, b3, b4]).toNat_lt
      refine ⟨fun p hp => ?_, ?_, ?_, ?_⟩
      · rw [List.eq_of_mem_replicate hp]
        exact ⟨by decide, by decide⟩
      · simp only
        omega
      · simp only
        omega
      · simp only
        omega
  · cases h

theorem normalize_wide (hst : st.Sound) (h : st.normalize streams = .ok st') :
    2 ^ 24 ≤ st'.range ∧ st'.Sound := by
  have hrange := hst.range
  have hinside := hst.inside
  unfold normalize bcj2Top at h
  split at h
  · next hsmall =>
    split at h
    · cases h
    · next byte _ =>
      obtain rfl := Except.ok.inj h
      have hbyte := byte.toNat_lt
      refine ⟨by simp only; omega, hst.probs, by simp only; omega, by simp only; omega, ?_⟩
      simp only
      rw [Nat.mod_eq_of_lt (by omega)]
      omega
  · next hbig =>
    obtain rfl := Except.ok.inj h
    exact ⟨Nat.le_of_not_lt hbig, hst⟩

theorem coded_sound (st : Bcj2State) (context : Nat) (st' : Bcj2State) (hst : st.Sound)
    (h : st.coded streams context = some st') : st'.Sound := by
  unfold coded at h
  split at h
  · next b st₂ hbit =>
    obtain rfl := Option.some.inj h
    unfold Bcj2State.bit at hbit
    obtain ⟨st₁, hnormal, hbit⟩ := Except.bind_eq_ok.mp hbit
    obtain ⟨hwide, hst₁⟩ := normalize_wide hst hnormal
    split at hbit
    · cases hbit
    · next p hprob =>
      have hfair := hst₁.probs p (List.mem_of_getElem? hprob)
      obtain ⟨hfirst, hsecond⟩ := parts_of_wide hwide hst₁.word hfair
      have hword := hst₁.word
      have hinside := hst₁.inside
      have hset : ∀ bit, ∀ q ∈ st₁.probs.set context (movedProb p bit), FairProb q :=
        fun bit => fair_set hst₁.probs (hfair.moved bit)
      simp only [Nat.shiftRight_eq_div_pow _ 11] at hbit
      split at hbit
      · next hlow =>
        obtain ⟨_, rfl⟩ := Prod.mk.inj (Except.ok.inj hbit)
        exact ⟨hset false, hfirst, by simp only; omega, hlow⟩
      · next hhigh =>
        obtain ⟨_, rfl⟩ := Prod.mk.inj (Except.ok.inj hbit)
        exact ⟨hset true, by simp only; omega, by simp only; omega, by simp only; omega⟩
  · cases h

theorem Sound.nextBit (hst : st.Sound) : st.NextBit streams := by
  intro st' hnormal
  obtain ⟨hwide, hst'⟩ := normalize_wide hst hnormal
  refine ⟨hst'.inside, hwide, fun p hp => ?_⟩
  rw [Nat.shiftRight_eq_div_pow]
  exact divides_of_wide hwide hst'.word (hst'.probs p hp)

end Bcj2State

/-- Both range coders keep their invariant over any bits, from an initialization on. -/
theorem range_coders_sound :
    (∀ (rc₀ rc : RangeDecoder) (head rest input : List Byte) (bits : List CodedBit) (s : BitCoder),
      rc₀.init head = (true, rc, rest) →
      bits.foldlM BitCoder.step { rc, probs := fun _ => probInitVal, input } = some s → s.Sound ∧ s.NextBit) ∧
    ∀ (streams : Bcj2Streams) (st₀ st : Bcj2State) (contexts : List Nat), Bcj2State.initial streams = .ok st₀ →
      contexts.foldlM (Bcj2State.coded streams) st₀ = some st → st.Sound ∧ st.NextBit streams := by
  constructor
  · intro rc₀ rc head rest input bits s hinit hrun
    obtain ⟨hrange, hinside⟩ := BitCoder.init_inside hinit
    have hstart : BitCoder.Sound { rc, probs := fun _ => probInitVal, input } := by
      have hfair : FairProb probInitVal.toNat := ⟨by decide, by decide⟩
      refine ⟨fun _ => hfair, ?_, hinside⟩
      simp only
      rw [hrange]
      decide
    have hsound := foldlM_invariant BitCoder.step_sound bits _ s hstart hrun
    exact ⟨hsound, hsound.nextBit⟩
  · intro streams st₀ st contexts hinit hrun
    have hsound := foldlM_invariant Bcj2State.coded_sound contexts st₀ st (Bcj2State.initial_sound hinit) hrun
    exact ⟨hsound, hsound.nextBit⟩

/-- Small streams of BCJ2, the code 0 and two bytes to normalize with. -/
def zeroCode : Bcj2Streams := { call := [], jump := [], rc := [0, 0, 0, 0, 0, 9, 9] }

/-- A direct bit that leaves the code at the range, and ten bits of BCJ2 that take a byte in. -/
theorem range_coders_sound_edge :
    (∃ s, [CodedBit.direct].foldlM BitCoder.step
        { rc := { range := 0xFFFFFFFF, code := 0xFFFFFFFE, corrupted := false, initBuf := [] }
          probs := fun _ => probInitVal
          input := [] } = some s ∧ s.rc.code = s.rc.range ∧ s.Sound ∧ s.NextBit) ∧
    ∃ st₀ st, Bcj2State.initial zeroCode = .ok st₀ ∧
      (List.range 10).foldlM (Bcj2State.coded zeroCode) st₀ = some st ∧ st.rcPos = 6 ∧ st.code = 9 ∧ st.Sound ∧
        st.NextBit zeroCode := by
  obtain ⟨st₀, hinit⟩ : ∃ st₀, Bcj2State.initial zeroCode = .ok st₀ := ⟨_, rfl⟩
  have htaken : ((List.range 10).foldlM (Bcj2State.coded zeroCode) st₀).map (fun st => (st.rcPos, st.code)) =
      some (6, 9) := by
    obtain rfl := Except.ok.inj (hinit.symm.trans rfl)
    decide +kernel
  obtain ⟨st, hfold, hat⟩ := Option.map_eq_some_iff.mp htaken
  obtain ⟨hbyte, hcode⟩ := Prod.mk.inj hat
  refine ⟨⟨_, rfl, by decide, range_coders_sound.1 .new _ [0, 0xFF, 0xFF, 0xFF, 0xFE] [] [] [.direct] _ rfl rfl⟩, ?_⟩
  exact ⟨st₀, st, hinit, hfold, hbyte, hcode, range_coders_sound.2 zeroCode st₀ st (List.range 10) hinit hfold⟩

end Iluvatar
