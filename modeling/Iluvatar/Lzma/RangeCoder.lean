/-
The range decoder of LZMA.

A slice and a position in it are modelled by what is left of the slice.  `none` stands
for `NeedInput`.
-/
import Iluvatar.Compress.Decompressor

namespace Iluvatar

def kTopValue : UInt32 := 0x1000000
def kNumBitModelTotalBits : UInt32 := 11
def kBitModelTotal : UInt32 := 0x800
def kNumMoveBits : UInt32 := 5

/-- Initial probability value (equal probability for 0 and 1). -/
def probInitVal : UInt16 := 1024

/-- The range decoder state.  `initBuf` is `init_buf[..init_len]`: the first bytes of an
initialization that arrived split across inputs. -/
structure RangeDecoder where
  range : UInt32
  code : UInt32
  corrupted : Bool
  initBuf : List Byte
  deriving DecidableEq, Repr

namespace RangeDecoder

def new : RangeDecoder := { range := 0xFFFFFFFF, code := 0, corrupted := false, initBuf := [] }

/-- The four bytes after the first, big end first. -/
def initCode : List Byte → UInt32
  | [_, b₁, b₂, b₃, b₄] =>
    b₁.toUInt32 <<< 24 ||| b₂.toUInt32 <<< 16 ||| b₃.toUInt32 <<< 8 ||| b₄.toUInt32
  | _ => 0

/-- Initialize from the first 5 bytes, which may arrive split across calls.  The flag says
whether all 5 have arrived. -/
def init (rc : RangeDecoder) (input : List Byte) : Bool × RangeDecoder × List Byte :=
  let take := min (5 - rc.initBuf.length) input.length
  let initBuf := rc.initBuf ++ input.take take
  if initBuf.length < 5 then (false, { rc with initBuf }, input.drop take)
  else
    let code := initCode initBuf
    let corrupted : Bool := initBuf.head? != some 0 || code == 0xFFFFFFFF
    (true, { range := 0xFFFFFFFF, code, corrupted, initBuf := [] }, input.drop take)

/-- Discard a partially received initialization. -/
def resetInit (rc : RangeDecoder) : RangeDecoder := { rc with initBuf := [] }

/-- Take one byte of input if the range has become too small. -/
def normalize (rc : RangeDecoder) (input : List Byte) : Option (RangeDecoder × List Byte) :=
  if rc.range < kTopValue then
    match input with
    | [] => none
    | b :: rest =>
      some ({ rc with range := rc.range <<< 8, code := rc.code <<< 8 ||| b.toUInt32 }, rest)
  else some (rc, input)

/-- Decode a single bit using a probability model: the bit, the new probability and
decoder, and what is left of the input. -/
def decodeBit (rc : RangeDecoder) (prob : UInt16) (input : List Byte) :
    Option (Nat × UInt16 × RangeDecoder × List Byte) :=
  match rc.normalize input with
  | none => none
  | some (rc, rest) =>
    let v := prob.toUInt32
    let bound := (rc.range >>> kNumBitModelTotalBits) * v
    if rc.code < bound then
      some (0, (v + ((kBitModelTotal - v) >>> kNumMoveBits)).toUInt16,
        { rc with range := bound }, rest)
    else
      some (1, (v - (v >>> kNumMoveBits)).toUInt16,
        { rc with code := rc.code - bound, range := rc.range - bound }, rest)

/-- Decode a single direct bit (no probability model). -/
def decodeDirectBit (rc : RangeDecoder) (input : List Byte) :
    Option (Nat × RangeDecoder × List Byte) :=
  match rc.normalize input with
  | none => none
  | some (rc, rest) =>
    let range := rc.range >>> 1
    let code := rc.code - range
    let t := (0 : UInt32) - (code >>> 31)
    let code := code + (range &&& t)
    let corrupted := rc.corrupted || code == range
    some ((t + 1).toNat, { rc with range, code, corrupted }, rest)

/-- An initialization that is not complete has fewer than five bytes. -/
theorem init_one_length {rc : RangeDecoder} {input : List Byte} (h : (rc.init input).1 = false) :
    (rc.init input).2.1.initBuf.length < 5 := by
  unfold init at h ⊢
  simp only at h ⊢
  split at h
  · rename_i hshort
    rw [if_pos hshort]
    exact hshort
  · exact absurd h (by simp)

/-- An initialization takes its bytes one by one. -/
theorem init_cons {rc : RangeDecoder} (h : rc.initBuf.length < 5) (b : Byte) (rest : List Byte) :
    rc.init (b :: rest) =
      if (rc.init [b]).1 then (true, (rc.init [b]).2.1, rest) else (rc.init [b]).2.1.init rest := by
  have hone : min (5 - rc.initBuf.length) [b].length = 1 := by
    rw [List.length_singleton]
    omega
  by_cases hlast : rc.initBuf.length = 4
  · have htake : min (5 - rc.initBuf.length) (b :: rest).length = 1 := by
      rw [List.length_cons]
      omega
    have hlong : ¬ (rc.initBuf ++ [b]).length < 5 := by
      rw [List.length_append, List.length_singleton]
      omega
    unfold init
    simp only [hone, htake, List.take_succ_cons, List.take_zero, List.drop_succ_cons, List.drop_zero,
      if_neg hlong, if_true]
  · have hshort : (rc.initBuf ++ [b]).length < 5 := by
      rw [List.length_append, List.length_singleton]
      omega
    have hfirst : rc.init [b] = (false, { rc with initBuf := rc.initBuf ++ [b] }, []) := by
      unfold init
      simp only [hone, List.take_succ_cons, List.take_zero]
      rw [if_pos hshort]
      rfl
    rw [hfirst]
    have htake : min (5 - rc.initBuf.length) (b :: rest).length =
        min (5 - (rc.initBuf ++ [b]).length) rest.length + 1 := by
      rw [List.length_append, List.length_singleton, List.length_cons]
      omega
    have hbuf : rc.initBuf ++ (b :: rest).take (min (5 - rc.initBuf.length) (b :: rest).length) =
        rc.initBuf ++ [b] ++ rest.take (min (5 - (rc.initBuf ++ [b]).length) rest.length) := by
      rw [htake, List.take_succ_cons, List.append_assoc]
      rfl
    have hdrop : (b :: rest).drop (min (5 - rc.initBuf.length) (b :: rest).length) =
        rest.drop (min (5 - (rc.initBuf ++ [b]).length) rest.length) := by
      rw [htake, List.drop_succ_cons]
    unfold init
    simp only [hbuf, hdrop, Bool.false_eq_true, if_false]

/-- A probability that keeps both bits possible. -/
def Prob (p : UInt16) : Prop := 0 < p.toNat ∧ p.toNat < 2048

theorem prob_init : Prob probInitVal := by
  constructor <;> decide

theorem normalize_none {rc : RangeDecoder} {input : List Byte} (h : rc.normalize input = none) :
    input = [] := by
  unfold normalize at h
  split at h
  · split at h
    · rfl
    · exact absurd h (by simp)
  · exact absurd h (by simp)

/-- A normalization takes one byte or none, and more input does not change it. -/
theorem normalize_some {rc rc' : RangeDecoder} {input rest : List Byte}
    (h : rc.normalize input = some (rc', rest)) :
    (∃ b, input = b :: rest) ∨ (rest = input ∧ rc' = rc ∧ ¬ rc.range < kTopValue) := by
  unfold normalize at h
  split at h
  · split at h
    · exact absurd h (by simp)
    · obtain ⟨_, rfl⟩ := Prod.mk.inj (Option.some.inj h)
      exact .inl ⟨_, rfl⟩
  · rename_i hbig
    obtain ⟨rfl, rfl⟩ := Prod.mk.inj (Option.some.inj h)
    exact .inr ⟨rfl, rfl, hbig⟩

theorem normalize_append {rc rc' : RangeDecoder} {input rest : List Byte} (more : List Byte)
    (h : rc.normalize input = some (rc', rest)) :
    rc.normalize (input ++ more) = some (rc', rest ++ more) := by
  unfold normalize at h ⊢
  split at h
  · rename_i hsmall
    rw [if_pos hsmall]
    split at h
    · exact absurd h (by simp)
    · obtain ⟨rfl, rfl⟩ := Prod.mk.inj (Option.some.inj h)
      rfl
  · rename_i hbig
    rw [if_neg hbig]
    obtain ⟨rfl, rfl⟩ := Prod.mk.inj (Option.some.inj h)
    rfl

theorem decodeBit_none {rc : RangeDecoder} {p : UInt16} {input : List Byte}
    (h : rc.decodeBit p input = none) : input = [] := by
  unfold decodeBit at h
  split at h
  · exact normalize_none (by assumption)
  · simp only at h
    split at h <;> exact absurd h (by simp)

theorem decodeBit_normalize {rc rc' : RangeDecoder} {p p' : UInt16} {input rest : List Byte}
    {bit : Nat} (h : rc.decodeBit p input = some (bit, p', rc', rest)) :
    ∃ rc₁, rc.normalize input = some (rc₁, rest) := by
  unfold decodeBit at h
  split at h
  · exact absurd h (by simp)
  · rename_i rc₁ rest₁ hnorm
    refine ⟨rc₁, ?_⟩
    rw [hnorm]
    simp only at h
    split at h <;> simp_all

theorem decodeBit_append {rc rc' : RangeDecoder} {p p' : UInt16} {input rest : List Byte}
    {bit : Nat} (more : List Byte) (h : rc.decodeBit p input = some (bit, p', rc', rest)) :
    rc.decodeBit p (input ++ more) = some (bit, p', rc', rest ++ more) := by
  obtain ⟨rc₁, hnorm⟩ := decodeBit_normalize h
  unfold decodeBit at h ⊢
  rw [hnorm] at h
  rw [normalize_append more hnorm]
  simp only at h ⊢
  split at h
  · rename_i hlow
    rw [if_pos hlow]
    simp_all
  · rename_i hhigh
    rw [if_neg hhigh]
    simp_all

theorem decodeBit_lt {rc rc' : RangeDecoder} {p p' : UInt16} {input rest : List Byte}
    {bit : Nat} (h : rc.decodeBit p input = some (bit, p', rc', rest)) : bit < 2 := by
  obtain ⟨rc₁, hnorm⟩ := decodeBit_normalize h
  unfold decodeBit at h
  rw [hnorm] at h
  simp only at h
  split at h <;>
  · simp only [Option.some.injEq, Prod.mk.injEq] at h
    omega

theorem decodeDirectBit_none {rc : RangeDecoder} {input : List Byte}
    (h : rc.decodeDirectBit input = none) : input = [] := by
  unfold decodeDirectBit at h
  split at h
  · exact normalize_none (by assumption)
  · exact absurd h (by simp)

theorem decodeDirectBit_append {rc rc' : RangeDecoder} {input rest : List Byte} {bit : Nat}
    (more : List Byte) (h : rc.decodeDirectBit input = some (bit, rc', rest)) :
    rc.decodeDirectBit (input ++ more) = some (bit, rc', rest ++ more) := by
  unfold decodeDirectBit at h ⊢
  split at h
  · exact absurd h (by simp)
  · rename_i rc₁ rest₁ hnorm
    rw [normalize_append more hnorm]
    simp_all

/-- The bound of a modelled bit lies strictly inside the range. -/
theorem bound_inside {range : UInt32} {p : UInt16} (hp : Prob p) (hbig : ¬ range < kTopValue) :
    0 < ((range >>> kNumBitModelTotalBits) * p.toUInt32).toNat ∧
      ((range >>> kNumBitModelTotalBits) * p.toUInt32).toNat < range.toNat := by
  obtain ⟨hpos, hlt⟩ := hp
  have hrange : 16777216 ≤ range.toNat := by
    have h := UInt32.not_lt.mp hbig
    have h : kTopValue.toNat ≤ range.toNat := UInt32.le_iff_toNat_le.mp h
    exact h
  have hfit := range.toNat_lt
  have hshift : (range >>> kNumBitModelTotalBits).toNat = range.toNat / 2048 := by
    rw [UInt32.toNat_shiftRight, Nat.shiftRight_eq_div_pow]
    rfl
  have hquot : range.toNat / 2048 * 2048 ≤ range.toNat := Nat.div_mul_le_self _ _
  have hone : 8192 ≤ range.toNat / 2048 := by omega
  have hprod : range.toNat / 2048 * p.toNat ≤ range.toNat / 2048 * 2047 :=
    Nat.mul_le_mul_left _ (by omega)
  have hpos' : 0 < range.toNat / 2048 * p.toNat := Nat.mul_pos (by omega) hpos
  rw [UInt32.toNat_mul, hshift, UInt16.toNat_toUInt32, Nat.mod_eq_of_lt (by omega)]
  omega

/-- Either update keeps a probability possible. -/
theorem prob_update {p : UInt16} (hp : Prob p) :
    Prob (p.toUInt32 + ((kBitModelTotal - p.toUInt32) >>> kNumMoveBits)).toUInt16 ∧
      Prob (p.toUInt32 - (p.toUInt32 >>> kNumMoveBits)).toUInt16 := by
  obtain ⟨hpos, hlt⟩ := hp
  have hv : p.toUInt32.toNat = p.toNat := UInt16.toNat_toUInt32 p
  have hle : p.toUInt32 ≤ kBitModelTotal := by
    rw [UInt32.le_iff_toNat_le, hv]
    show p.toNat ≤ 2048
    omega
  have htotal : (kBitModelTotal - p.toUInt32).toNat = 2048 - p.toNat := by
    rw [UInt32.toNat_sub_of_le _ _ hle, hv]
    rfl
  have hup : ((kBitModelTotal - p.toUInt32) >>> kNumMoveBits).toNat = (2048 - p.toNat) / 32 := by
    rw [UInt32.toNat_shiftRight, htotal, Nat.shiftRight_eq_div_pow]
    rfl
  have hdown : (p.toUInt32 >>> kNumMoveBits).toNat = p.toNat / 32 := by
    rw [UInt32.toNat_shiftRight, hv, Nat.shiftRight_eq_div_pow]
    rfl
  have hdownle : p.toUInt32 >>> kNumMoveBits ≤ p.toUInt32 := by
    rw [UInt32.le_iff_toNat_le, hdown, hv]
    omega
  have hstep : p.toNat + (2048 - p.toNat) / 32 < 2048 := by omega
  unfold Prob
  rw [UInt32.toNat_toUInt16, UInt32.toNat_add, hv, hup, UInt32.toNat_toUInt16,
    UInt32.toNat_sub_of_le _ _ hdownle, hdown, hv, Nat.mod_eq_of_lt (a := _ + _) (by omega),
    Nat.mod_eq_of_lt (by omega), Nat.mod_eq_of_lt (by omega)]
  constructor <;> omega

/-- A modelled bit takes a byte or shrinks the range, and leaves a possible probability. -/
theorem decodeBit_spec {rc rc' : RangeDecoder} {p p' : UInt16} {input rest : List Byte}
    {bit : Nat} (hp : Prob p) (h : rc.decodeBit p input = some (bit, p', rc', rest)) :
    bit < 2 ∧ Prob p' ∧ rest <:+ input ∧ input.length ≤ rest.length + 1 ∧
      (rest.length < input.length ∨ rc'.range.toNat < rc.range.toNat) := by
  obtain ⟨rc₁, hnorm⟩ := decodeBit_normalize h
  obtain ⟨hup, hdown⟩ := prob_update hp
  have hbit : bit < 2 ∧ Prob p' ∧
      (¬ rc₁.range < kTopValue → rc'.range.toNat < rc₁.range.toNat) := by
    unfold decodeBit at h
    rw [hnorm] at h
    simp only at h
    split at h
    · simp only [Option.some.injEq, Prod.mk.injEq] at h
      obtain ⟨rfl, rfl, rfl, _⟩ := h
      exact ⟨by omega, hup, fun hbig => (bound_inside hp hbig).2⟩
    · simp only [Option.some.injEq, Prod.mk.injEq] at h
      obtain ⟨rfl, rfl, rfl, _⟩ := h
      refine ⟨by omega, hdown, fun hbig => ?_⟩
      obtain ⟨hpos, hlt⟩ := bound_inside hp hbig
      have hle : (rc₁.range >>> kNumBitModelTotalBits) * p.toUInt32 ≤ rc₁.range := by
        rw [UInt32.le_iff_toNat_le]
        omega
      show (rc₁.range - (rc₁.range >>> kNumBitModelTotalBits) * p.toUInt32).toNat < _
      rw [UInt32.toNat_sub_of_le _ _ hle]
      omega
  refine ⟨hbit.1, hbit.2.1, ?_⟩
  rcases normalize_some hnorm with ⟨b, rfl⟩ | ⟨rfl, rfl, hbig⟩
  · exact ⟨List.suffix_cons _ _, by simp, .inl (by simp)⟩
  · exact ⟨List.suffix_refl _, by simp, .inr (hbit.2.2 hbig)⟩

/-- A direct bit takes a byte or halves the range. -/
theorem decodeDirectBit_spec {rc rc' : RangeDecoder} {input rest : List Byte} {bit : Nat}
    (h : rc.decodeDirectBit input = some (bit, rc', rest)) :
    rest <:+ input ∧ input.length ≤ rest.length + 1 ∧
      (rest.length < input.length ∨ rc'.range.toNat < rc.range.toNat) := by
  unfold decodeDirectBit at h
  split at h
  · exact absurd h (by simp)
  · rename_i rc₁ rest₁ hnorm
    simp only [Option.some.injEq, Prod.mk.injEq] at h
    obtain ⟨_, rfl, rfl⟩ := h
    rcases normalize_some hnorm with ⟨b, rfl⟩ | ⟨rfl, rfl, hbig⟩
    · exact ⟨List.suffix_cons _ _, by simp, .inl (by simp)⟩
    · refine ⟨List.suffix_refl _, by simp, .inr ?_⟩
      have hrange : kTopValue.toNat ≤ rc₁.range.toNat :=
        UInt32.le_iff_toNat_le.mp (UInt32.not_lt.mp hbig)
      have hrange : 16777216 ≤ rc₁.range.toNat := hrange
      show (rc₁.range >>> 1).toNat < _
      rw [UInt32.toNat_shiftRight, Nat.shiftRight_eq_div_pow]
      show rc₁.range.toNat / 2 < _
      omega

end RangeDecoder
end Iluvatar
