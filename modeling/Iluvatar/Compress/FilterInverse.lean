/-
The converters of fixed-width instructions undo their encoders.

An encoder finds the same instructions, adds the position where the converter takes it away, and
keeps an instruction one that is converted.
-/
import Iluvatar.Compress.FilterRuns
import Iluvatar.Compress.FilterBundle

namespace Iluvatar

open Sansio

namespace Filter

/-- Three bytes of an address, the last one the highest. -/
theorem armSrc_toNat (b0 b1 b2 : Byte) : ((b2.toUInt32 <<< 16 ||| b1.toUInt32 <<< 8 ||| b0.toUInt32) <<< 2).toNat =
    4 * (b2.toNat * 2 ^ 16 + b1.toNat * 2 ^ 8 + b0.toNat) := by
  have h0 := b0.toNat_lt
  have h1 := b1.toNat_lt
  have h2 := b2.toNat_lt
  have hsum : (b2.toUInt32 <<< UInt32.ofNat 16 ||| b1.toUInt32 <<< UInt32.ofNat 8 ||| b0.toUInt32).toNat =
      b2.toNat * 2 ^ 16 + b1.toNat * 2 ^ 8 + b0.toNat := by
    rw [UInt32.toNat_or, UInt32.toNat_or, byte_shifted _ (by decide), byte_shifted _ (by decide),
      UInt8.toNat_toUInt32, Nat.shiftLeft_eq, Nat.shiftLeft_eq,
      or_below (a := b2.toNat * 2 ^ 16) 16 (by omega) (by omega),
      or_below (a := b2.toNat * 2 ^ 16 + b1.toNat * 2 ^ 8) 8 (by omega) (by omega)]
  have hshift := shiftLeft_toNat (b2.toUInt32 <<< UInt32.ofNat 16 ||| b1.toUInt32 <<< UInt32.ofNat 8 |||
    b0.toUInt32) (n := 2) (by decide)
  rw [hsum] at hshift
  refine hshift.trans ?_
  omega

theorem armWord_inverse {pc : UInt32} (hpc : pc.toNat % 4 = 0) {w : List Byte} (h : w.length = 4) :
    armWord (· - ·) pc (armWord (· + ·) pc w) = w := by
  obtain ⟨b0, b1, b2, b3, rfl⟩ := four_bytes h
  unfold armWord
  by_cases hb : b3 = 0xEB
  · simp only [if_pos hb]
    have hencoded := armSrc_toNat b0 b1 b2
    generalize (b2.toUInt32 <<< 16 ||| b1.toUInt32 <<< 8 ||| b0.toUInt32) <<< 2 = src at hencoded
    have hdest : ((src + (pc + 8)) >>> 2).toNat = _ := shiftRight_toNat (src + (pc + 8)) (n := 2) (by decide)
    generalize (src + (pc + 8)) >>> 2 = dest at hdest
    have hdecoded := armSrc_toNat dest.toUInt8 (dest >>> 8).toUInt8 (dest >>> 16).toUInt8
    generalize ((dest >>> 16).toUInt8.toUInt32 <<< 16 ||| (dest >>> 8).toUInt8.toUInt32 <<< 8 |||
      dest.toUInt8.toUInt32) <<< 2 = src' at hdecoded
    have hback : ((src' - (pc + 8)) >>> 2).toNat = _ := shiftRight_toNat (src' - (pc + 8)) (n := 2) (by decide)
    generalize (src' - (pc + 8)) >>> 2 = dest' at hback
    have e0 : dest.toUInt8.toNat = _ := low_toNat dest
    have e1 : (dest >>> 8).toUInt8.toNat = _ := shifted_low_toNat dest (n := 8) (by decide)
    have e2 : (dest >>> 16).toUInt8.toNat = _ := shifted_low_toNat dest (n := 16) (by decide)
    have hpc8 : (pc + 8).toNat = (pc.toNat + 8) % 2 ^ 32 := UInt32.toNat_add pc 8
    rw [UInt32.toNat_add, hpc8] at hdest
    rw [UInt32.toNat_sub, hpc8] at hback
    rw [e0, e1, e2] at hdecoded
    have h0 := b0.toNat_lt
    have h1 := b1.toNat_lt
    have h2 := b2.toNat_lt
    have hpcLt := pc.toNat_lt
    have f0 : dest'.toUInt8 = b0 := UInt8.toNat_inj.mp (by rw [low_toNat]; omega)
    have f1 : (dest' >>> 8).toUInt8 = b1 :=
      UInt8.toNat_inj.mp ((shifted_low_toNat dest' (n := 8) (by decide)).trans (by omega))
    have f2 : (dest' >>> 16).toUInt8 = b2 :=
      UInt8.toNat_inj.mp ((shifted_low_toNat dest' (n := 16) (by decide)).trans (by omega))
    rw [f0, f1, f2]
  · simp only [if_neg hb]

theorem and_seven (b : Byte) : (b.toUInt32 &&& 7).toNat = b.toNat % 8 := by
  rw [UInt32.toNat_and, UInt8.toNat_toUInt32]
  exact Nat.and_two_pow_sub_one_eq_mod b.toNat 3

/-- The two halves of a pair's address. -/
theorem armThumbSrc_toNat (b0 b1 b2 b3 : Byte) : (((b1.toUInt32 &&& 7) <<< 19 ||| b0.toUInt32 <<< 11 |||
      (b3.toUInt32 &&& 7) <<< 8 ||| b2.toUInt32) <<< 1).toNat =
    2 * (b1.toNat % 8 * 2 ^ 19 + b0.toNat * 2 ^ 11 + b3.toNat % 8 * 2 ^ 8 + b2.toNat) := by
  have h0 := b0.toNat_lt
  have h2 := b2.toNat_lt
  have hsum : ((b1.toUInt32 &&& 7) <<< UInt32.ofNat 19 ||| b0.toUInt32 <<< UInt32.ofNat 11 |||
      (b3.toUInt32 &&& 7) <<< UInt32.ofNat 8 ||| b2.toUInt32).toNat =
      b1.toNat % 8 * 2 ^ 19 + b0.toNat * 2 ^ 11 + b3.toNat % 8 * 2 ^ 8 + b2.toNat := by
    rw [UInt32.toNat_or, UInt32.toNat_or, UInt32.toNat_or, shiftLeft_toNat _ (by decide), and_seven,
      byte_shifted _ (by decide), shiftLeft_toNat _ (by decide), and_seven, UInt8.toNat_toUInt32,
      Nat.mod_eq_of_lt (show b1.toNat % 8 * 2 ^ 19 < 2 ^ 32 by omega),
      Nat.mod_eq_of_lt (show b3.toNat % 8 * 2 ^ 8 < 2 ^ 32 by omega), Nat.shiftLeft_eq,
      or_below (a := b1.toNat % 8 * 2 ^ 19) 19 (by omega) (by omega),
      or_below (a := b1.toNat % 8 * 2 ^ 19 + b0.toNat * 2 ^ 11) 11 (by omega) (by omega),
      or_below (a := b1.toNat % 8 * 2 ^ 19 + b0.toNat * 2 ^ 11 + b3.toNat % 8 * 2 ^ 8) 8 (by omega) (by omega)]
  have hshift := shiftLeft_toNat ((b1.toUInt32 &&& 7) <<< UInt32.ofNat 19 ||| b0.toUInt32 <<< UInt32.ofNat 11 |||
    (b3.toUInt32 &&& 7) <<< UInt32.ofNat 8 ||| b2.toUInt32) (n := 1) (by decide)
  rw [hsum] at hshift
  refine hshift.trans ?_
  omega

theorem pair_first (b : Byte) : b &&& 0xF8 = 0xF0 ↔ b.toNat / 8 = 30 := by
  have hb := b.toNat_lt
  have hand : b.toNat &&& 0xF8 = _ := and_field b.toNat 5 3
  rw [← UInt8.toNat_inj, UInt8.toNat_and]
  show b.toNat &&& 0xF8 = 0xF0 ↔ _
  omega

theorem pair_second (b : Byte) : b &&& 0xF8 = 0xF8 ↔ b.toNat / 8 = 31 := by
  have hb := b.toNat_lt
  have hand : b.toNat &&& 0xF8 = _ := and_field b.toNat 5 3
  rw [← UInt8.toNat_inj, UInt8.toNat_and]
  show b.toNat &&& 0xF8 = 0xF8 ↔ _
  omega

/-- A byte of a pair that says which half it is, with three bits of the address. -/
theorem pair_byte (dest : UInt32) {n : Nat} (hn : n < 32) {c : Byte} (hc : c.toNat % 8 = 0) :
    (c ||| ((dest >>> UInt32.ofNat n) &&& 7).toUInt8).toNat = c.toNat + dest.toNat / 2 ^ n % 8 := by
  have hlow : ((dest >>> UInt32.ofNat n) &&& 7).toUInt8.toNat = dest.toNat / 2 ^ n % 8 := by
    rw [low_toNat, UInt32.toNat_and, shiftRight_toNat dest hn]
    show (dest.toNat / 2 ^ n &&& 2 ^ 3 - 1) % 256 = _
    rw [Nat.and_two_pow_sub_one_eq_mod]
    omega
  rw [UInt8.toNat_or, hlow, or_below 3 hc (by omega)]

theorem armThumbPair_pair (address : UInt32 → UInt32 → UInt32) (pc : UInt32) (b0 b2 : Byte) {b1 b3 : Byte}
    (h : b1 &&& 0xF8 = 0xF0 ∧ b3 &&& 0xF8 = 0xF8) :
    ∃ c0 c1 c2 c3, armThumbPair address pc [b0, b1, b2, b3] = [c0, c1, c2, c3] ∧ c1.toNat / 8 = 30 ∧ c3.toNat / 8 = 31 ∧
      ∃ src : UInt32, src.toNat = 2 * (b1.toNat % 8 * 2 ^ 19 + b0.toNat * 2 ^ 11 + b3.toNat % 8 * 2 ^ 8 + b2.toNat) ∧
        c1.toNat % 8 * 2 ^ 19 + c0.toNat * 2 ^ 11 + c3.toNat % 8 * 2 ^ 8 + c2.toNat =
          (address src (pc + 4)).toNat / 2 % 2 ^ 22 := by
  have hsrc := armThumbSrc_toNat b0 b1 b2 b3
  refine ⟨_, _, _, _, if_pos h, ?_⟩
  generalize ((b1.toUInt32 &&& 7) <<< 19 ||| b0.toUInt32 <<< 11 ||| (b3.toUInt32 &&& 7) <<< 8 |||
    b2.toUInt32) <<< 1 = src at hsrc
  have hdest : (address src (pc + 4) >>> 1).toNat = _ := shiftRight_toNat (address src (pc + 4)) (n := 1) (by decide)
  generalize address src (pc + 4) >>> 1 = dest at hdest
  have h1 : ((0xF0 : Byte) ||| ((dest >>> 19) &&& 7).toUInt8).toNat = 240 + _ :=
    pair_byte dest (n := 19) (by decide) (c := 0xF0) rfl
  have h3 : ((0xF8 : Byte) ||| ((dest >>> 8) &&& 7).toUInt8).toNat = 248 + _ :=
    pair_byte dest (n := 8) (by decide) (c := 0xF8) rfl
  have h0 : (dest >>> 11).toUInt8.toNat = _ := shifted_low_toNat dest (n := 11) (by decide)
  have h2 := low_toNat dest
  refine ⟨by omega, by omega, src, hsrc, ?_⟩
  omega

/-- Halfwords away and back. -/
theorem pair_back {v c d pc : Nat} (hpc : pc % 2 = 0) (hv : v < 2 ^ 22)
    (hc : c = (2 * v + (pc + 4) % 2 ^ 32) % 2 ^ 32 / 2 % 2 ^ 22)
    (hd : d = (2 ^ 32 - (pc + 4) % 2 ^ 32 + 2 * c) % 2 ^ 32 / 2 % 2 ^ 22) : d = v := by
  have hhalf : (pc + 4) % 2 ^ 32 = 2 * ((pc + 4) % 2 ^ 32 / 2) := by omega
  generalize (pc + 4) % 2 ^ 32 / 2 = p at hhalf
  rw [hhalf] at hc hd
  omega

/-- A pair is undone by a pair. -/
theorem armThumbPair_inverse {pc : UInt32} (hpc : pc.toNat % 2 = 0) (b0 b2 : Byte) {b1 b3 : Byte}
    (h : b1 &&& 0xF8 = 0xF0 ∧ b3 &&& 0xF8 = 0xF8) :
    armThumbPair (· - ·) pc (armThumbPair (· + ·) pc [b0, b1, b2, b3]) = [b0, b1, b2, b3] := by
  obtain ⟨c0, c1, c2, c3, hencoded, hc1, hc3, src, hsrc, hsum⟩ := armThumbPair_pair (· + ·) pc b0 b2 h
  obtain ⟨d0, d1, d2, d3, hdecoded, hd1, hd3, src', hsrc', hsum'⟩ :=
    armThumbPair_pair (· - ·) pc c0 c2 ⟨(pair_first c1).mpr hc1, (pair_second c3).mpr hc3⟩
  rw [hencoded, hdecoded]
  have hb1 := (pair_first b1).mp h.1
  have hb3 := (pair_second b3).mp h.2
  have hpc4 : (pc + 4).toNat = (pc.toNat + 4) % 2 ^ 32 := UInt32.toNat_add pc 4
  rw [UInt32.toNat_add, hpc4] at hsum
  rw [UInt32.toNat_sub, hpc4] at hsum'
  have h0 := b0.toNat_lt
  have h2 := b2.toNat_lt
  have g0 := c0.toNat_lt
  have g2 := c2.toNat_lt
  have k0 := d0.toNat_lt
  have k2 := d2.toNat_lt
  rw [hsrc] at hsum
  rw [hsrc'] at hsum'
  have hsame := pair_back hpc (by omega) hsum hsum'
  have f0 : d0 = b0 := UInt8.toNat_inj.mp (by omega)
  have f1 : d1 = b1 := UInt8.toNat_inj.mp (by omega)
  have f2 : d2 = b2 := UInt8.toNat_inj.mp (by omega)
  have f3 : d3 = b3 := UInt8.toNat_inj.mp (by omega)
  rw [f0, f1, f2, f3]

theorem powerPc_byte (b : Byte) : (b >>> 2 = 0x12 ↔ b.toNat / 4 = 18) ∧ (b &&& 3 = 1 ↔ b.toNat % 4 = 1) ∧
    (b.toUInt32 &&& 3).toNat = b.toNat % 4 ∧ (b.toUInt32 &&& ~~~3).toNat = b.toNat - b.toNat % 4 := by
  have hb := b.toNat_lt
  have hshift : b.toNat >>> 2 = b.toNat / 2 ^ 2 := Nat.shiftRight_eq_div_pow ..
  have hlow : b.toNat &&& 3 = b.toNat % 2 ^ 2 := Nat.and_two_pow_sub_one_eq_mod b.toNat 2
  have hhigh : b.toNat &&& 0xFFFFFFFC = _ := and_field b.toNat 30 2
  rw [← UInt8.toNat_inj, ← UInt8.toNat_inj, UInt8.toNat_shiftRight, UInt8.toNat_and, UInt32.toNat_and,
    UInt32.toNat_and, UInt8.toNat_toUInt32]
  show (b.toNat >>> 2 = 0x12 ↔ _) ∧ (b.toNat &&& 3 = 1 ↔ _) ∧ b.toNat &&& 3 = _ ∧ b.toNat &&& 0xFFFFFFFC = _
  rw [hshift, hlow, hhigh]
  refine ⟨Iff.rfl, Iff.rfl, rfl, ?_⟩
  omega

/-- The address of a branch, and that its two low bits are clear. -/
theorem powerPcSrc_toNat (b0 b1 b2 b3 : Byte) : ((b0.toUInt32 &&& 3) <<< 24 ||| b1.toUInt32 <<< 16 |||
      b2.toUInt32 <<< 8 ||| (b3.toUInt32 &&& ~~~3)).toNat =
    b0.toNat % 4 * 2 ^ 24 + b1.toNat * 2 ^ 16 + b2.toNat * 2 ^ 8 + (b3.toNat - b3.toNat % 4) := by
  have h1 := b1.toNat_lt
  have h2 := b2.toNat_lt
  have h3 := b3.toNat_lt
  obtain ⟨_, _, hlow, _⟩ := powerPc_byte b0
  obtain ⟨_, _, _, hhigh⟩ := powerPc_byte b3
  show ((b0.toUInt32 &&& 3) <<< UInt32.ofNat 24 ||| b1.toUInt32 <<< UInt32.ofNat 16 |||
    b2.toUInt32 <<< UInt32.ofNat 8 ||| (b3.toUInt32 &&& ~~~3)).toNat = _
  rw [UInt32.toNat_or, UInt32.toNat_or, UInt32.toNat_or, shiftLeft_toNat _ (by decide), hlow, hhigh,
    byte_shifted _ (by decide), byte_shifted _ (by decide), Nat.shiftLeft_eq, Nat.shiftLeft_eq,
    Nat.mod_eq_of_lt (show b0.toNat % 4 * 2 ^ 24 < 2 ^ 32 by omega),
    or_below (a := b0.toNat % 4 * 2 ^ 24) 24 (by omega) (by omega),
    or_below (a := b0.toNat % 4 * 2 ^ 24 + b1.toNat * 2 ^ 16) 16 (by omega) (by omega),
    or_below (a := b0.toNat % 4 * 2 ^ 24 + b1.toNat * 2 ^ 16 + b2.toNat * 2 ^ 8) 8 (by omega) (by omega)]

theorem powerPcWord_branch (address : UInt32 → UInt32 → UInt32) (pc : UInt32) {b0 b1 b2 b3 : Byte}
    (h : b0 >>> 2 = 0x12 ∧ b3 &&& 3 = 1) {src : UInt32}
    (hsrc : src.toNat = b0.toNat % 4 * 2 ^ 24 + b1.toNat * 2 ^ 16 + b2.toNat * 2 ^ 8 + (b3.toNat - b3.toNat % 4))
    (hdest : (address src pc).toNat % 4 = 0) :
    ∃ c0 c1 c2 c3, powerPcWord address pc [b0, b1, b2, b3] = [c0, c1, c2, c3] ∧ c0.toNat / 4 = 18 ∧ c3.toNat % 4 = 1 ∧
      c0.toNat % 4 * 2 ^ 24 + c1.toNat * 2 ^ 16 + c2.toNat * 2 ^ 8 + (c3.toNat - c3.toNat % 4) =
        (address src pc).toNat % 2 ^ 26 := by
  obtain rfl : (b0.toUInt32 &&& 3) <<< 24 ||| b1.toUInt32 <<< 16 ||| b2.toUInt32 <<< 8 |||
      (b3.toUInt32 &&& ~~~3) = src := UInt32.toNat_inj.mp ((powerPcSrc_toNat b0 b1 b2 b3).trans hsrc.symm)
  refine ⟨_, _, _, _, if_pos h, ?_⟩
  generalize address _ pc = dest at hdest ⊢
  have h0 : ((0x48 : Byte) ||| ((dest >>> 24) &&& 0x03).toUInt8).toNat = 72 + dest.toNat / 2 ^ 24 % 4 := by
    have hlow : ((dest >>> 24) &&& 0x03).toUInt8.toNat = dest.toNat / 2 ^ 24 % 4 := by
      have hshift : (dest >>> 24).toNat = _ := shiftRight_toNat dest (n := 24) (by decide)
      rw [low_toNat, UInt32.toNat_and, hshift]
      show (dest.toNat / 2 ^ 24 &&& 2 ^ 2 - 1) % 256 = _
      rw [Nat.and_two_pow_sub_one_eq_mod]
      omega
    rw [UInt8.toNat_or, hlow]
    exact or_below (a := 72) 3 rfl (by omega)
  have h3 : ((b3 &&& 0x03) ||| dest.toUInt8).toNat = dest.toNat % 256 + 1 := by
    rw [h.2, UInt8.toNat_or, low_toNat, Nat.or_comm]
    exact or_below 2 (by omega) (by decide)
  have h1 : (dest >>> 16).toUInt8.toNat = _ := shifted_low_toNat dest (n := 16) (by decide)
  have h2 : (dest >>> 8).toUInt8.toNat = _ := shifted_low_toNat dest (n := 8) (by decide)
  refine ⟨by omega, by omega, ?_⟩
  rw [h0, h1, h2, h3]
  omega

theorem away_and_back {p s : Nat} (hp : p < 2 ^ 32) (hs : s < 2 ^ 26) :
    (2 ^ 32 - p + (s + p) % 2 ^ 32 % 2 ^ 26) % 2 ^ 32 % 2 ^ 26 = s := by omega

theorem powerPcWord_inverse {pc : UInt32} (hpc : pc.toNat % 4 = 0) {w : List Byte} (h : w.length = 4) :
    powerPcWord (· - ·) pc (powerPcWord (· + ·) pc w) = w := by
  obtain ⟨b0, b1, b2, b3, rfl⟩ := four_bytes h
  by_cases hb : b0 >>> 2 = 0x12 ∧ b3 &&& 3 = 1
  · have h1 := b1.toNat_lt
    have h2 := b2.toNat_lt
    have h3 := b3.toNat_lt
    have hsrc := powerPcSrc_toNat b0 b1 b2 b3
    generalize (b0.toUInt32 &&& 3) <<< 24 ||| b1.toUInt32 <<< 16 ||| b2.toUInt32 <<< 8 |||
      (b3.toUInt32 &&& ~~~3) = src at hsrc
    have hb0 := (powerPc_byte b0).1.mp hb.1
    have hb3 := (powerPc_byte b3).2.1.mp hb.2
    obtain ⟨c0, c1, c2, c3, hencoded, hc0, hc3, hsum⟩ := powerPcWord_branch (· + ·) pc hb hsrc (by
      rw [UInt32.toNat_add]
      omega)
    have hsrc' := powerPcSrc_toNat c0 c1 c2 c3
    generalize (c0.toUInt32 &&& 3) <<< 24 ||| c1.toUInt32 <<< 16 ||| c2.toUInt32 <<< 8 |||
      (c3.toUInt32 &&& ~~~3) = src' at hsrc'
    have hpcLt := pc.toNat_lt
    obtain ⟨d0, d1, d2, d3, hdecoded, hd0, hd3, hsum'⟩ := powerPcWord_branch (· - ·) pc
      ⟨(powerPc_byte c0).1.mpr hc0, (powerPc_byte c3).2.1.mpr hc3⟩ hsrc' (by
        rw [UInt32.toNat_sub]
        omega)
    rw [hencoded, hdecoded]
    rw [UInt32.toNat_add] at hsum
    rw [UInt32.toNat_sub] at hsum'
    rw [hsum] at hsrc'
    have hsame : d0.toNat % 4 * 2 ^ 24 + d1.toNat * 2 ^ 16 + d2.toNat * 2 ^ 8 + (d3.toNat - d3.toNat % 4) =
        src.toNat := by
      have hlt : src.toNat < 2 ^ 26 := by omega
      rw [hsum', hsrc']
      exact away_and_back hpcLt hlt
    rw [hsrc] at hsame
    have k1 := d1.toNat_lt
    have k2 := d2.toNat_lt
    have k3 := d3.toNat_lt
    have f0 : d0 = b0 := UInt8.toNat_inj.mp (by omega)
    have f1 : d1 = b1 := UInt8.toNat_inj.mp (by omega)
    have f2 : d2 = b2 := UInt8.toNat_inj.mp (by omega)
    have f3 : d3 = b3 := UInt8.toNat_inj.mp (by omega)
    rw [f0, f1, f2, f3]
  · have hplain : ∀ address, powerPcWord address pc [b0, b1, b2, b3] = [b0, b1, b2, b3] := fun _ => if_neg hb
    rw [hplain, hplain]

/-- The words of a call: a sign, six or seven bits that repeat it, and 22 bits. -/
def sparcCall (v : Nat) : Nat := if v / 2 ^ 22 % 2 = 1 then 0x7FC00000 + v % 2 ^ 22 else 0x40000000 + v % 2 ^ 22

theorem sparc_byte (b : Byte) : (b &&& 0xC0 = 0 ↔ b.toNat < 64) ∧ (b &&& 0xC0 = 0xC0 ↔ 192 ≤ b.toNat) := by
  have hb := b.toNat_lt
  have hand : b.toNat &&& 0xC0 = _ := and_field b.toNat 2 6
  rw [← UInt8.toNat_inj, ← UInt8.toNat_inj, UInt8.toNat_and]
  show (b.toNat &&& 0xC0 = 0 ↔ _) ∧ (b.toNat &&& 0xC0 = 0xC0 ↔ _)
  omega

theorem beWord_inj {b0 b1 b2 b3 c0 c1 c2 c3 : Byte} (h : beWord b0 b1 b2 b3 = beWord c0 c1 c2 c3) :
    [b0, b1, b2, b3] = [c0, c1, c2, c3] := by
  unfold beWord at h
  have h1 := b1.toNat_lt
  have h2 := b2.toNat_lt
  have h3 := b3.toNat_lt
  have k1 := c1.toNat_lt
  have k2 := c2.toNat_lt
  have k3 := c3.toNat_lt
  have f0 : b0 = c0 := UInt8.toNat_inj.mp (by omega)
  have f1 : b1 = c1 := UInt8.toNat_inj.mp (by omega)
  have f2 : b2 = c2 := UInt8.toNat_inj.mp (by omega)
  have f3 : b3 = c3 := UInt8.toNat_inj.mp (by omega)
  rw [f0, f1, f2, f3]

/-- A call is a word of 23 bits, its sign repeated above them. -/
theorem sparc_call (b0 b1 b2 b3 : Byte) :
    ((b0 = 0x40 ∧ b1 &&& 0xC0 = 0x00) ∨ (b0 = 0x7F ∧ b1 &&& 0xC0 = 0xC0)) ↔
      beWord b0 b1 b2 b3 = sparcCall (beWord b0 b1 b2 b3) := by
  have h0 := b0.toNat_lt
  have h1 := b1.toNat_lt
  have h2 := b2.toNat_lt
  have h3 := b3.toNat_lt
  rw [(sparc_byte b1).1, (sparc_byte b1).2, ← UInt8.toNat_inj, ← UInt8.toNat_inj]
  show ((b0.toNat = 64 ∧ _) ∨ (b0.toNat = 127 ∧ _)) ↔ _
  unfold sparcCall beWord
  split
  · omega
  · omega

theorem sparcCall_idem (v : Nat) : sparcCall (sparcCall v) = sparcCall v := by
  unfold sparcCall
  split
  · rw [if_pos (by omega)]
    omega
  · rw [if_neg (by omega)]
    omega

/-- What the code makes of an address is the word of its low 23 bits. -/
theorem sparcDest_toNat (dest : UInt32) :
    ((((0 : UInt32) - ((dest >>> 22) &&& 1)) <<< 22 &&& 0x3FFFFFFF) ||| (dest &&& 0x3FFFFF) ||| 0x40000000).toNat =
      sparcCall dest.toNat := by
  have hbit : ((dest >>> 22) &&& 1).toNat = dest.toNat / 2 ^ 22 % 2 := by
    have hshift : (dest >>> 22).toNat = _ := shiftRight_toNat dest (n := 22) (by decide)
    rw [UInt32.toNat_and, hshift]
    exact Nat.and_one_is_mod _
  have hlow : (dest &&& 0x3FFFFF).toNat = dest.toNat % 2 ^ 22 := by
    rw [UInt32.toNat_and]
    exact Nat.and_two_pow_sub_one_eq_mod dest.toNat 22
  unfold sparcCall
  split
  · next hone =>
    have hbit : (dest >>> 22) &&& 1 = 1 := UInt32.toNat_inj.mp (hbit.trans hone)
    rw [hbit, UInt32.toNat_or, UInt32.toNat_or, hlow]
    show 0x3FC00000 ||| dest.toNat % 2 ^ 22 ||| 0x40000000 = _
    rw [or_below (a := 0x3FC00000) 22 (by decide) (by omega), Nat.or_comm,
      or_below (a := 0x40000000) 30 (by decide) (by omega)]
    omega
  · next hzero =>
    have hbit : (dest >>> 22) &&& 1 = 0 := UInt32.toNat_inj.mp (hbit.trans (show _ = 0 by omega))
    rw [hbit, UInt32.toNat_or, UInt32.toNat_or, hlow]
    show 0 ||| dest.toNat % 2 ^ 22 ||| 0x40000000 = _
    rw [Nat.zero_or, Nat.or_comm, or_below (a := 0x40000000) 30 (by decide) (by omega)]

theorem sparcWord_call (address : UInt32 → UInt32 → UInt32) (pc : UInt32) {b0 b1 b2 b3 : Byte}
    (h : beWord b0 b1 b2 b3 = sparcCall (beWord b0 b1 b2 b3)) :
    ∃ c0 c1 c2 c3 src, sparcWord address pc [b0, b1, b2, b3] = [c0, c1, c2, c3] ∧
      src.toNat = beWord b0 b1 b2 b3 * 4 % 2 ^ 32 ∧
      beWord c0 c1 c2 c3 = sparcCall ((address src pc).toNat / 4) := by
  have hsrc := shiftLeft_toNat (b0.toUInt32 <<< 24 ||| b1.toUInt32 <<< 16 ||| b2.toUInt32 <<< 8 |||
    b3.toUInt32) (n := 2) (by decide)
  rw [beSrc_toNat] at hsrc
  refine ⟨_, _, _, _, _, if_pos ((sparc_call b0 b1 b2 b3).mpr h), hsrc, ?_⟩
  have hshift : (address ((b0.toUInt32 <<< 24 ||| b1.toUInt32 <<< 16 ||| b2.toUInt32 <<< 8 |||
    b3.toUInt32) <<< 2) pc >>> 2).toNat = _ := shiftRight_toNat _ (n := 2) (by decide)
  have hword := (beWord_bytes _).trans (sparcDest_toNat (address ((b0.toUInt32 <<< 24 ||| b1.toUInt32 <<< 16 |||
    b2.toUInt32 <<< 8 ||| b3.toUInt32) <<< 2) pc >>> 2))
  exact hword.trans (congrArg sparcCall hshift)

theorem sparcCall_mod (v : Nat) : sparcCall (v % 2 ^ 23) = sparcCall v := by
  unfold sparcCall
  have hsign : v % 2 ^ 23 / 2 ^ 22 % 2 = v / 2 ^ 22 % 2 := by omega
  have hlow : v % 2 ^ 23 % 2 ^ 22 = v % 2 ^ 22 := by omega
  rw [hsign, hlow]

theorem sparcCall_low (v : Nat) : sparcCall v % 2 ^ 23 = v % 2 ^ 23 := by
  unfold sparcCall
  split <;> omega

/-- Words away and back, as far as a call shows. -/
theorem call_back {v c pc : Nat} (hpc : pc % 4 = 0) (hpcLt : pc < 2 ^ 32)
    (hc : c % 2 ^ 23 = (v * 4 % 2 ^ 32 + pc) % 2 ^ 32 / 4 % 2 ^ 23) :
    (2 ^ 32 - pc + c * 4 % 2 ^ 32) % 2 ^ 32 / 4 % 2 ^ 23 = v % 2 ^ 23 := by
  obtain ⟨p, rfl⟩ : ∃ p, pc = 4 * p := ⟨pc / 4, by omega⟩
  have hfirst : (v * 4 % 2 ^ 32 + 4 * p) % 2 ^ 32 / 4 = (v + p) % 2 ^ 30 := by omega
  have hsecond : (2 ^ 32 - 4 * p + c * 4 % 2 ^ 32) % 2 ^ 32 / 4 = (2 ^ 30 - p + c) % 2 ^ 30 := by omega
  rw [hfirst] at hc
  rw [hsecond]
  omega

theorem sparcWord_inverse {pc : UInt32} (hpc : pc.toNat % 4 = 0) {w : List Byte} (h : w.length = 4) :
    sparcWord (· - ·) pc (sparcWord (· + ·) pc w) = w := by
  obtain ⟨b0, b1, b2, b3, rfl⟩ := four_bytes h
  by_cases hcall : beWord b0 b1 b2 b3 = sparcCall (beWord b0 b1 b2 b3)
  · obtain ⟨c0, c1, c2, c3, src, hencoded, hsrc, hword⟩ := sparcWord_call (· + ·) pc hcall
    have hcall' : beWord c0 c1 c2 c3 = sparcCall (beWord c0 c1 c2 c3) := by rw [hword, sparcCall_idem]
    obtain ⟨d0, d1, d2, d3, src', hdecoded, hsrc', hword'⟩ := sparcWord_call (· - ·) pc hcall'
    rw [hencoded, hdecoded]
    refine beWord_inj ?_
    rw [UInt32.toNat_add, hsrc] at hword
    rw [UInt32.toNat_sub, hsrc'] at hword'
    have hlow : beWord c0 c1 c2 c3 % 2 ^ 23 =
        (beWord b0 b1 b2 b3 * 4 % 2 ^ 32 + pc.toNat) % 2 ^ 32 / 4 % 2 ^ 23 := by rw [hword, sparcCall_low]
    rw [hword', ← sparcCall_mod, call_back hpc pc.toNat_lt hlow, sparcCall_mod, ← hcall]
  · have hplain : ∀ address, sparcWord address pc [b0, b1, b2, b3] = [b0, b1, b2, b3] := fun _ =>
      if_neg fun hmatch => hcall ((sparc_call b0 b1 b2 b3).mp hmatch)
    rw [hplain, hplain]

/-! ## ARM64 -/

theorem and_low {x : UInt32} {m : UInt32} {n : Nat} (hm : m.toNat = 2 ^ n - 1) : (x &&& m).toNat = x.toNat % 2 ^ n := by
  rw [UInt32.toNat_and, hm, Nat.and_two_pow_sub_one_eq_mod]

theorem and_middle {x m : UInt32} {n k : Nat} (hm : m.toNat = (2 ^ n - 1) <<< k) :
    (x &&& m).toNat = x.toNat / 2 ^ k % 2 ^ n * 2 ^ k := by
  rw [UInt32.toNat_and, hm, and_field]

theorem arm64_is_call (instr : UInt32) : instr >>> 26 = 0x25 ↔ instr.toNat / 2 ^ 26 = 37 := by
  have hshift : (instr >>> 26).toNat = _ := shiftRight_toNat instr (n := 26) (by decide)
  rw [← UInt32.toNat_inj, hshift]
  exact Iff.rfl

theorem page_byte (b : Byte) : b.toNat &&& 0x9F = 0x90 ↔ b.toNat / 128 = 1 ∧ b.toNat % 32 = 16 := by
  have hb := b.toNat_lt
  have hmask : b.toNat &&& 0x9F = (b.toNat &&& (2 ^ 1 - 1) <<< 7) ||| (b.toNat &&& 2 ^ 5 - 1) := by
    rw [← Nat.and_or_distrib_left]
    rfl
  rw [hmask, and_field, Nat.and_two_pow_sub_one_eq_mod, or_below 5 (by omega) (by omega)]
  omega

theorem arm64_is_page (instr : UInt32) : instr &&& 0x9F000000 = 0x90000000 ↔
    instr.toNat / 2 ^ 31 = 1 ∧ instr.toNat / 2 ^ 24 % 32 = 16 := by
  have hinstr := instr.toNat_lt
  have hand : (instr &&& 0x9F000000).toNat = (instr.toNat / 2 ^ 24 &&& 0x9F) * 2 ^ 24 := by
    rw [UInt32.toNat_and]
    show instr.toNat &&& 0x9F <<< 24 = _
    rw [and_shifted, Nat.shiftLeft_eq, Nat.shiftRight_eq_div_pow]
  have hbyte := page_byte (UInt8.ofNat (instr.toNat / 2 ^ 24))
  have hvalue : (UInt8.ofNat (instr.toNat / 2 ^ 24)).toNat = instr.toNat / 2 ^ 24 := by
    rw [UInt8.toNat_ofNat']
    omega
  rw [hvalue] at hbyte
  rw [← UInt32.toNat_inj, hand]
  show _ * 2 ^ 24 = 0x90 * 2 ^ 24 ↔ _
  rw [Nat.mul_left_inj (by decide), hbyte]
  omega

/-- The address of a page: 21 bits in two places. -/
def pageSrc (instr : Nat) : Nat := instr / 2 ^ 29 % 4 + instr / 2 ^ 5 % 2 ^ 19 * 4

theorem pageSrc_toNat (instr : UInt32) :
    (((instr >>> 29) &&& (3 : UInt32)) ||| ((instr >>> 3) &&& (0x001FFFFC : UInt32))).toNat = pageSrc instr.toNat := by
  have hhigh : (instr >>> 29).toNat = _ := shiftRight_toNat instr (n := 29) (by decide)
  have hlow : (instr >>> 3).toNat = _ := shiftRight_toNat instr (n := 3) (by decide)
  rw [UInt32.toNat_or, and_low (n := 2) rfl, and_middle (n := 19) (k := 2) rfl, hhigh, hlow, ← Nat.shiftLeft_eq,
    or_shiftLeft (show instr.toNat / 2 ^ 29 % 2 ^ 2 < 2 ^ 2 by omega), pageSrc]
  omega

/-- A page that is near enough: 18 bits and their sign. -/
def NearPage (src : Nat) : Prop := src < 2 ^ 17 ∨ 2 ^ 21 - 2 ^ 17 ≤ src

theorem near_page {src : UInt32} (hsrc : src.toNat < 2 ^ 21) :
    (src + 0x00020000) &&& 0x001C0000 ≠ 0 ↔ ¬ NearPage src.toNat := by
  have hsum : (src + 0x00020000).toNat = src.toNat + 2 ^ 17 := by
    rw [UInt32.toNat_add]
    show (src.toNat + 131072) % 2 ^ 32 = _
    omega
  have hand : ((src + 0x00020000) &&& 0x001C0000).toNat = (src.toNat + 2 ^ 17) / 2 ^ 18 % 2 ^ 3 * 2 ^ 18 := by
    rw [and_middle (n := 3) (k := 18) rfl, hsum]
  rw [ne_eq, ← UInt32.toNat_inj, hand, NearPage]
  show ¬ _ = 0 ↔ _
  omega

theorem page_or {rd lo x b : Nat} (hrd : rd < 32) (hlo : lo < 4) (hx : x < 2 ^ 16) (hb : b < 2) :
    2 ^ 31 ||| 2 ^ 28 ||| rd ||| lo * 2 ^ 29 ||| x * 2 ^ 5 ||| b * (7 * 2 ^ 21) =
      2 ^ 31 + lo * 2 ^ 29 + 2 ^ 28 + b * (7 * 2 ^ 21) + x * 2 ^ 5 + rd := by
  have hsort : 2 ^ 31 ||| 2 ^ 28 ||| rd ||| lo * 2 ^ 29 ||| x * 2 ^ 5 ||| b * (7 * 2 ^ 21) =
      2 ^ 31 ||| lo * 2 ^ 29 ||| 2 ^ 28 ||| b * (7 * 2 ^ 21) ||| x * 2 ^ 5 ||| rd := by ac_rfl
  rw [hsort, or_below (a := 2 ^ 31) 31 rfl (by omega), or_below (a := 2 ^ 31 + lo * 2 ^ 29) 29 (by omega) (by omega),
    or_below (a := 2 ^ 31 + lo * 2 ^ 29 + 2 ^ 28) 28 (by omega) (by omega),
    or_below (a := 2 ^ 31 + lo * 2 ^ 29 + 2 ^ 28 + b * (7 * 2 ^ 21)) 21 (by omega) (by omega),
    or_below (a := 2 ^ 31 + lo * 2 ^ 29 + 2 ^ 28 + b * (7 * 2 ^ 21) + x * 2 ^ 5) 5 (by omega) hrd]

theorem arm64Word_call (address : UInt32 → UInt32 → UInt32) (pc : UInt32) {w : List Byte}
    (h : (load32Le w).toNat / 2 ^ 26 = 37) : ∃ r : UInt32, arm64Word address pc w = store32Le r ∧
      r.toNat = 37 * 2 ^ 26 + (address (load32Le w) (pc >>> 2)).toNat % 2 ^ 26 := by
  refine ⟨_, if_pos ((arm64_is_call _).mpr h), ?_⟩
  rw [UInt32.toNat_or, and_low (n := 26) rfl]
  exact or_below (a := 37 * 2 ^ 26) 26 rfl (Nat.mod_lt _ (by decide))

theorem arm64Word_page (address : UInt32 → UInt32 → UInt32) (pc : UInt32) {w : List Byte}
    (hpage : (load32Le w).toNat / 2 ^ 31 = 1 ∧ (load32Le w).toNat / 2 ^ 24 % 32 = 16)
    (hnear : NearPage (pageSrc (load32Le w).toNat)) :
    ∃ src r : UInt32, arm64Word address pc w = store32Le r ∧ src.toNat = pageSrc (load32Le w).toNat ∧
      r.toNat = 2 ^ 31 + (address src (pc >>> 12)).toNat % 4 * 2 ^ 29 + 2 ^ 28 +
        (address src (pc >>> 12)).toNat / 2 ^ 17 % 2 * (7 * 2 ^ 21) +
        (address src (pc >>> 12)).toNat / 4 % 2 ^ 16 * 2 ^ 5 + (load32Le w).toNat % 32 := by
  have hsrc := pageSrc_toNat (load32Le w)
  have hlt : pageSrc (load32Le w).toNat < 2 ^ 21 := by
    unfold pageSrc
    omega
  have hcall : ¬ load32Le w >>> 26 = 0x25 := fun hcall => by
    have := (arm64_is_call _).mp hcall
    omega
  have hpage' := (arm64_is_page _).mpr hpage
  have hbranch : arm64Word address pc w = _ := (if_neg hcall).trans ((if_pos hpage').trans (if_neg fun hfar =>
    (near_page (by omega)).mp hfar (hsrc ▸ hnear)))
  refine ⟨_, _, hbranch, hsrc, ?_⟩
  generalize address _ (pc >>> 12) = dest
  have hkept : (load32Le w &&& 0x9000001F).toNat = 2 ^ 31 ||| 2 ^ 28 ||| (load32Le w).toNat % 32 := by
    have hhigh : (load32Le w).toNat &&& 0x9F000000 = 0x90000000 := (UInt32.toNat_and _ _).symm.trans
      (congrArg UInt32.toNat hpage')
    have hmask : (load32Le w).toNat &&& 0x9000001F =
        ((load32Le w).toNat &&& 0x9F000000 &&& 0x90000000) ||| ((load32Le w).toNat &&& 2 ^ 5 - 1) := by
      rw [Nat.and_assoc, ← Nat.and_or_distrib_left]
      exact congrArg _ (by decide)
    rw [UInt32.toNat_and]
    show (load32Le w).toNat &&& 0x9000001F = _
    rw [hmask, hhigh, Nat.and_two_pow_sub_one_eq_mod]
    exact congrArg (· ||| (load32Le w).toNat % 32) (by decide)
  have hlow : ((dest &&& 3) <<< 29).toNat = dest.toNat % 4 * 2 ^ 29 := by
    have hshift : ((dest &&& 3) <<< 29).toNat = _ := shiftLeft_toNat (dest &&& 3) (n := 29) (by decide)
    rw [hshift, and_low (n := 2) rfl]
    omega
  have hmiddle : ((dest &&& 0x0003FFFC) <<< 3).toNat = dest.toNat / 4 % 2 ^ 16 * 2 ^ 5 := by
    have hshift : ((dest &&& 0x0003FFFC) <<< 3).toNat = _ := shiftLeft_toNat (dest &&& 0x0003FFFC) (n := 3) (by decide)
    rw [hshift, and_middle (n := 16) (k := 2) rfl]
    omega
  have hsign : ((0 - (dest &&& 0x00020000)) &&& 0x00E00000).toNat = dest.toNat / 2 ^ 17 % 2 * (7 * 2 ^ 21) := by
    have hbit : (dest &&& 0x00020000).toNat = dest.toNat / 2 ^ 17 % 2 ^ 1 * 2 ^ 17 := and_middle rfl
    rcases Nat.mod_two_eq_zero_or_one (dest.toNat / 2 ^ 17) with hzero | hone
    · have hclear : dest &&& 0x00020000 = 0 := UInt32.toNat_inj.mp (by
        rw [hbit, Nat.pow_one, hzero]
        rfl)
      rw [hclear, hzero]
      rfl
    · have hset : dest &&& 0x00020000 = 0x00020000 := UInt32.toNat_inj.mp (by
        rw [hbit, Nat.pow_one, hone]
        rfl)
      rw [hset, hone]
      rfl
  rw [UInt32.toNat_or, UInt32.toNat_or, UInt32.toNat_or, hkept, hlow, hmiddle, hsign]
  exact page_or (Nat.mod_lt _ (by decide)) (Nat.mod_lt _ (by decide)) (Nat.mod_lt _ (by decide))
    (Nat.mod_lt _ (by decide))

theorem call_word_back {v p : Nat} (hv : v / 2 ^ 26 = 37) (hp : p < 2 ^ 30) :
    37 * 2 ^ 26 + (37 * 2 ^ 26 + (v + p) % 2 ^ 32 % 2 ^ 26 + (2 ^ 32 - p + 0) % 2 ^ 32) % 2 ^ 32 % 2 ^ 26 = v := by
  omega

/-- The page of an instruction that was converted, and that it is near. -/
theorem page_encoded {r dest rd : Nat} (hrd : rd < 32) (hr : r = 2 ^ 31 + dest % 4 * 2 ^ 29 + 2 ^ 28 +
    dest / 2 ^ 17 % 2 * (7 * 2 ^ 21) + dest / 4 % 2 ^ 16 * 2 ^ 5 + rd) :
    r / 2 ^ 31 = 1 ∧ r / 2 ^ 24 % 32 = 16 ∧ r % 32 = rd ∧ NearPage (pageSrc r) ∧
      pageSrc r % 2 ^ 18 = dest % 2 ^ 18 := by
  have hsign : dest / 2 ^ 17 % 2 = dest / 4 % 2 ^ 16 / 2 ^ 15 := by omega
  have hdest : dest % 2 ^ 18 = dest % 4 + dest / 4 % 2 ^ 16 * 4 := by omega
  have hlo : dest % 4 < 4 := Nat.mod_lt _ (by decide)
  have hx : dest / 4 % 2 ^ 16 < 2 ^ 16 := Nat.mod_lt _ (by decide)
  rw [hsign] at hr
  rw [hdest]
  generalize dest % 4 = lo at hr hlo
  generalize dest / 4 % 2 ^ 16 = x at hr hx
  have hb : x / 2 ^ 15 < 2 := by omega
  have hsrc : pageSrc r = lo + (x + x / 2 ^ 15 * (7 * 2 ^ 16)) * 4 := by
    have htop : r / 2 ^ 29 = 4 + lo := (Nat.div_eq_iff (by decide)).mpr (by omega)
    have hfields : r / 2 ^ 5 = (2 ^ 7 + lo * 2 ^ 5 + 2 ^ 4) * 2 ^ 19 + (x + x / 2 ^ 15 * (7 * 2 ^ 16)) :=
      (Nat.div_eq_iff (by decide)).mpr (by omega)
    have hlow : r / 2 ^ 29 % 4 = lo := by omega
    have hhigh : r / 2 ^ 5 % 2 ^ 19 = x + x / 2 ^ 15 * (7 * 2 ^ 16) := by
      rw [hfields, Nat.mul_add_mod_of_lt]
      omega
    rw [pageSrc, hlow, hhigh]
  rw [hsrc]
  unfold NearPage
  have hopcode : r / 2 ^ 24 = 128 + lo * 32 + 16 := (Nat.div_eq_iff (by decide)).mpr (by omega)
  refine ⟨by omega, by omega, by omega, by omega, by omega⟩

theorem page_back {src src' p : Nat} (hp : p < 2 ^ 20)
    (h : src' % 2 ^ 18 = (src + p) % 2 ^ 32 % 2 ^ 18) : (src' + (2 ^ 32 - p + 0) % 2 ^ 32) % 2 ^ 32 % 2 ^ 18 = src % 2 ^ 18 := by
  omega

theorem page_fields {instr d : Nat} (hpage : instr / 2 ^ 31 = 1 ∧ instr / 2 ^ 24 % 32 = 16)
    (hnear : NearPage (pageSrc instr)) (hd : d % 2 ^ 18 = pageSrc instr % 2 ^ 18) :
    2 ^ 31 + d % 4 * 2 ^ 29 + 2 ^ 28 + d / 2 ^ 17 % 2 * (7 * 2 ^ 21) + d / 4 % 2 ^ 16 * 2 ^ 5 + instr % 32 = instr := by
  have hlo : instr / 2 ^ 29 % 4 < 4 := Nat.mod_lt _ (by decide)
  have hhi : instr / 2 ^ 5 % 2 ^ 19 < 2 ^ 19 := Nat.mod_lt _ (by decide)
  have hinstr : instr = 2 ^ 31 + instr / 2 ^ 29 % 4 * 2 ^ 29 + 2 ^ 28 + instr / 2 ^ 5 % 2 ^ 19 * 2 ^ 5 + instr % 32 := by
    omega
  have hlow : d % 4 = d % 2 ^ 18 % 4 := by omega
  have hmiddle : d / 4 % 2 ^ 16 = d % 2 ^ 18 / 4 := by omega
  have hsign : d / 2 ^ 17 % 2 = d % 2 ^ 18 / 2 ^ 17 := by omega
  unfold NearPage at hnear
  unfold pageSrc at hnear hd
  rw [hlow, hmiddle, hsign]
  generalize instr / 2 ^ 29 % 4 = lo at *
  generalize instr / 2 ^ 5 % 2 ^ 19 = hi at *
  generalize instr % 32 = rd at *
  have hfirst : (lo + hi * 4) % 2 ^ 18 % 4 = lo := by omega
  rw [hd, hfirst]
  omega

theorem arm64Word_inverse (pc : UInt32) {w : List Byte} (h : w.length = 4) :
    arm64Word (fun src pc => src + (0 - pc)) pc (arm64Word (· + ·) pc w) = w := by
  obtain ⟨b0, b1, b2, b3, rfl⟩ := four_bytes h
  have hpcLt := pc.toNat_lt
  by_cases hcall : (load32Le [b0, b1, b2, b3]).toNat / 2 ^ 26 = 37
  · obtain ⟨r, hencoded, hr⟩ := arm64Word_call (· + ·) pc hcall
    have hcall' : (load32Le (store32Le r)).toNat / 2 ^ 26 = 37 := by
      rw [load_store, hr]
      omega
    obtain ⟨r', hdecoded, hr'⟩ := arm64Word_call (fun src pc => src + (0 - pc)) pc hcall'
    have hpc : (pc >>> 2).toNat = _ := shiftRight_toNat pc (n := 2) (by decide)
    rw [UInt32.toNat_add, hpc] at hr
    rw [load_store, UInt32.toNat_add, UInt32.toNat_sub, hpc, hr] at hr'
    have hback := call_word_back hcall (show pc.toNat / 2 ^ 2 < 2 ^ 30 by omega)
    rw [hencoded, hdecoded, UInt32.toNat_inj.mp (hr'.trans hback), store_load]
  by_cases hpage : (load32Le [b0, b1, b2, b3]).toNat / 2 ^ 31 = 1 ∧ (load32Le [b0, b1, b2, b3]).toNat / 2 ^ 24 % 32 = 16
  · by_cases hnear : NearPage (pageSrc (load32Le [b0, b1, b2, b3]).toNat)
    · obtain ⟨src, r, hencoded, hsrc, hr⟩ := arm64Word_page (· + ·) pc hpage hnear
      obtain ⟨hpage', hpage'', hrd, hnear', hlow⟩ := page_encoded (Nat.mod_lt _ (by decide)) hr
      rw [← load_store r] at hpage' hpage'' hnear'
      obtain ⟨src', r', hdecoded, hsrc', hr'⟩ :=
        arm64Word_page (fun src pc => src + (0 - pc)) pc ⟨hpage', hpage''⟩ hnear'
      rw [load_store] at hsrc' hr'
      have hpc : (pc >>> 12).toNat = _ := shiftRight_toNat pc (n := 12) (by decide)
      rw [UInt32.toNat_add, hpc, ← hsrc'] at hlow
      have hback := page_back (show pc.toNat / 2 ^ 12 < 2 ^ 20 by omega) hlow
      have hdest : (src' + ((0 : UInt32) - (pc >>> 12))).toNat = (src'.toNat + (2 ^ 32 - pc.toNat / 2 ^ 12 + 0) % 2 ^ 32) % 2 ^ 32 := by
        rw [UInt32.toNat_add, UInt32.toNat_sub, hpc]
        rfl
      rw [hdest, hrd] at hr'
      rw [hsrc] at hback
      rw [hencoded, hdecoded, UInt32.toNat_inj.mp (hr'.trans (page_fields hpage hnear hback)), store_load]
    · have hplain : ∀ address, arm64Word address pc [b0, b1, b2, b3] = [b0, b1, b2, b3] := fun _ =>
        (if_neg fun hmatch => hcall ((arm64_is_call _).mp hmatch)).trans
          ((if_pos ((arm64_is_page _).mpr hpage)).trans (if_pos ((near_page (by
            rw [pageSrc_toNat, pageSrc]
            omega)).mpr (by
              rw [pageSrc_toNat]
              exact hnear))))
      rw [hplain, hplain]
  · have hplain : ∀ address, arm64Word address pc [b0, b1, b2, b3] = [b0, b1, b2, b3] := fun _ =>
      (if_neg fun hmatch => hcall ((arm64_is_call _).mp hmatch)).trans
        (if_neg fun hmatch => hpage ((arm64_is_page _).mp hmatch))
    rw [hplain, hplain]

/-! ## The encoders -/

/-- A converter of whole windows is undone word by word, the position being one of a window. -/
theorem wordwise_inverse {width : Nat} {hwidth : 0 < width} {dec enc : UInt32 → List Byte → List Byte}
    (hdec : ∀ pc w, w.length = width → (dec pc w).length = width)
    (henc : ∀ pc w, w.length = width → (enc pc w).length = width) (hdvd : 2 ^ 32 % width = 0) (hsmall : width < 2 ^ 32)
    (hinverse : ∀ (pc : UInt32) (w : List Byte), pc.toNat % width = 0 → w.length = width → dec pc (enc pc w) = w)
    (data : List Byte) : (wordwise width hwidth dec hdec).convert 0 ((wordwise width hwidth enc henc).convert 0 data) = data := by
  refine ((wordwise width hwidth enc henc).convert_inverse (wordwise width hwidth dec hdec) rfl
    (C := fun pc _ => pc.toNat % width = 0) (V := fun _ _ _ => True) (fun _ _ _ _ => trivial) ?_ 0 data
    (Nat.zero_mod width)).2
  intro pc data hpc hlong
  have htake : (data.take width).length = width := List.length_take_of_le hlong
  have hlength := henc pc (data.take width) htake
  have hnext : (pc + UInt32.ofNat (enc pc (data.take width)).length).toNat % width = 0 := by
    obtain ⟨k, hk⟩ := Nat.dvd_of_mod_eq_zero hdvd
    rw [hlength, UInt32.toNat_add, UInt32.toNat_ofNat', Nat.mod_eq_of_lt hsmall, hk, Nat.mod_mul_right_mod,
      Nat.add_mod_right, hpc]
  refine ⟨hnext, fun more _ _ => ⟨trivial, ?_⟩⟩
  show (dec pc ((enc pc (data.take width) ++ more).take width),
      pc + UInt32.ofNat (dec pc ((enc pc (data.take width) ++ more).take width)).length) =
    (data.take (enc pc (data.take width)).length, pc + UInt32.ofNat (enc pc (data.take width)).length)
  have hwindow : (enc pc (data.take width) ++ more).take width = enc pc (data.take width) := List.take_left' hlength
  rw [hwindow, hinverse pc _ hpc htake, htake, hlength]

/-- The second byte is the second half of a pair in both or in neither. -/
def SameHalf (data encoded : List Byte) : Prop :=
  ∀ b c, data[1]? = some b → encoded[1]? = some c → (c &&& 0xF8 = 0xF8 ↔ b &&& 0xF8 = 0xF8)

theorem armThumb_inverse (data : List Byte) :
    (armThumbBy (· - ·)).convert 0 ((armThumbBy (· + ·)).convert 0 data) = data := by
  refine ((armThumbBy (· + ·)).convert_inverse (armThumbBy (· - ·)) rfl
    (C := fun pc _ => pc.toNat % 2 = 0) (V := fun _ data encoded => SameHalf data encoded) ?_ ?_ 0 data rfl).2
  · intro pc data _ _ b c hb hc
    obtain rfl := Option.some.inj (hb.symm.trans hc)
    exact Iff.rfl
  intro pc data hpc hlong
  obtain ⟨b0, b1, b2, b3, rest, rfl⟩ := four_of_long hlong
  have hmoves : ∀ n : Nat, n % 2 = 0 → n < 2 ^ 32 → (pc + UInt32.ofNat n).toNat % 2 = 0 := by
    intro n heven hsmall
    rw [UInt32.toNat_add, UInt32.toNat_ofNat']
    omega
  by_cases hpair : b1 &&& 0xF8 = 0xF0 ∧ b3 &&& 0xF8 = 0xF8
  · obtain ⟨c0, c1, c2, c3, hencoded, hc1, hc3, _⟩ := armThumbPair_pair (· + ·) pc b0 b2 hpair
    have hback := armThumbPair_inverse hpc b0 b2 hpair
    rw [hencoded] at hback
    have hstep : (armThumbBy (· + ·)).step pc ((b0 :: b1 :: b2 :: b3 :: rest).take 4) = ([c0, c1, c2, c3], pc + 4) := by
      show (armThumbPair (· + ·) pc [b0, b1, b2, b3], pc + UInt32.ofNat (armThumbPair (· + ·) pc [b0, b1, b2, b3]).length) = _
      rw [hencoded]
      rfl
    have hwidth : (armThumbBy (· + ·)).width = 4 := rfl
    rw [hwidth, hstep]
    refine ⟨hmoves 4 rfl (by decide), fun more _ _ => ⟨?_, ?_⟩⟩
    · intro b c hb hc
      obtain rfl := Option.some.inj hb
      obtain rfl := Option.some.inj hc
      rw [pair_second, pair_second]
      have := (pair_first b1).mp hpair.1
      omega
    · show (armThumbPair (· - ·) pc [c0, c1, c2, c3], pc + UInt32.ofNat (armThumbPair (· - ·) pc [c0, c1, c2, c3]).length) = _
      rw [hback]
      rfl
  · have hplain : ∀ address, armThumbPair address pc [b0, b1, b2, b3] = [b0, b1] := fun _ => if_neg hpair
    have hstep : (armThumbBy (· + ·)).step pc ((b0 :: b1 :: b2 :: b3 :: rest).take 4) = ([b0, b1], pc + 2) := by
      show (armThumbPair (· + ·) pc [b0, b1, b2, b3], pc + UInt32.ofNat (armThumbPair (· + ·) pc [b0, b1, b2, b3]).length) = _
      rw [hplain]
      rfl
    have hwidth : (armThumbBy (· + ·)).width = 4 := rfl
    rw [hwidth, hstep]
    refine ⟨hmoves 2 rfl (by decide), fun more hlength hsame => ⟨?_, ?_⟩⟩
    · intro b c hb hc
      obtain rfl := Option.some.inj hb
      obtain rfl := Option.some.inj hc
      exact Iff.rfl
    · obtain ⟨e2, e3, more', rfl⟩ : ∃ e2 e3 more', more = e2 :: e3 :: more' := by
        match more, hlength with
        | e2 :: e3 :: more', _ => exact ⟨e2, e3, more', rfl⟩
      have hhalf := hsame b3 e3 rfl rfl
      have hpair' : ¬ (b1 &&& 0xF8 = 0xF0 ∧ e3 &&& 0xF8 = 0xF8) := fun hboth => hpair ⟨hboth.1, hhalf.mp hboth.2⟩
      have hplain' : armThumbPair (· - ·) pc [b0, b1, e2, e3] = [b0, b1] := if_neg hpair'
      show (armThumbPair (· - ·) pc [b0, b1, e2, e3], pc + UInt32.ofNat (armThumbPair (· - ·) pc [b0, b1, e2, e3]).length) = _
      rw [hplain']
      rfl

/-- The encoders of the fixed-width converters; x86 and RISC-V have their own. -/
def encode (arch : BcjArch) (buf : List Byte) : Option (List Byte) :=
  match arch with
  | .arm => some ((armBy (· + ·)).convert 0 buf)
  | .armThumb => some ((armThumbBy (· + ·)).convert 0 buf)
  | .powerPc => some ((powerPcBy (· + ·)).convert 0 buf)
  | .sparc => some ((sparcBy (· + ·)).convert 0 buf)
  | .ia64 => some ((ia64By (· + ·)).convert 0 buf)
  | .arm64 => some ((arm64By (· + ·)).convert 0 buf)
  | .x86 | .riscV => none

end Filter

namespace FilterDecompressor

open Iluvatar.Filter FilterState

/-- A positioned converter that undoes an encoder gives back what that was given. -/
theorem positioned_round_trip {S E : Scanner UInt32 Byte} {arch : BcjArch} (hwidth : S.width ≤ 16)
    (hstate : ∀ pc data, (S.run pc data).state = pc + UInt32.ofNat (S.run pc data).done.length)
    (hconvert : ∀ data pc, (FilterState.bcj arch 0 (0 - 5)).convert data pc =
      (FilterState.bcj arch 0 (0 - 5)).positioned S data pc)
    (hinverse : ∀ data, S.convert 0 (E.convert 0 data) = data) (data : List Byte) (cuts : Nat → Nat × Nat) :
    EndsAs (asCall decompress) (E.convert 0 data) cuts (bcj arch)
      { outcome := none, consumed := data.length, output := data } := by
  have hbegins := positioned_begins hwidth hstate hconvert
  have hends := feed_ends hbegins.follows (hbegins.inv (E.convert 0 data)) cuts
  rw [hinverse, E.convert_length] at hends
  exact hends

/-- Each fixed-width filter gives back what its encoder was given, in any cuts. -/
theorem fixed_width_round_trip {arch : BcjArch} (harch : arch ≠ .x86 ∧ arch ≠ .riscV) (data : List Byte)
    (cuts : Nat → Nat × Nat) : ∃ encoded, encode arch data = some encoded ∧
      EndsAs (asCall decompress) encoded cuts (bcj arch) { outcome := none, consumed := data.length, output := data } := by
  cases arch with
  | x86 => exact absurd rfl harch.1
  | riscV => exact absurd rfl harch.2
  | arm =>
    exact ⟨_, rfl, positioned_round_trip (S := arm) (by decide) positional_state (fun _ _ => rfl)
      (wordwise_inverse (fun pc _ => armWord_length _ pc) (fun pc _ => armWord_length _ pc) rfl (by decide)
        fun _ _ hpc => armWord_inverse hpc) data cuts⟩
  | armThumb =>
    exact ⟨_, rfl, positioned_round_trip (S := armThumb) (by decide) positional_state (fun _ _ => rfl)
      armThumb_inverse data cuts⟩
  | powerPc =>
    exact ⟨_, rfl, positioned_round_trip (S := powerPc) (by decide) positional_state (fun _ _ => rfl)
      (wordwise_inverse (fun pc _ => powerPcWord_length _ pc) (fun pc _ => powerPcWord_length _ pc) rfl (by decide)
        fun _ _ hpc => powerPcWord_inverse hpc) data cuts⟩
  | sparc =>
    exact ⟨_, rfl, positioned_round_trip (S := sparc) (by decide) positional_state (fun _ _ => rfl)
      (wordwise_inverse (fun pc _ => sparcWord_length _ pc) (fun pc _ => sparcWord_length _ pc) rfl (by decide)
        fun _ _ hpc => sparcWord_inverse hpc) data cuts⟩
  | ia64 =>
    exact ⟨_, rfl, positioned_round_trip (S := ia64) (by decide) positional_state (fun _ _ => rfl)
      (wordwise_inverse (fun pc _ => ia64Bundle_length _ pc) (fun pc _ => ia64Bundle_length _ pc) rfl (by decide)
        fun _ _ hpc => ia64Bundle_inverse hpc) data cuts⟩
  | arm64 =>
    exact ⟨_, rfl, positioned_round_trip (S := arm64) (by decide) positional_state (fun _ _ => rfl)
      (wordwise_inverse (fun pc _ => arm64Word_length _ pc) (fun pc _ => arm64Word_length _ pc) rfl (by decide)
        fun pc _ _ => arm64Word_inverse pc) data cuts⟩

/-- A branch with link of one word, which is encoded as the third word. -/
theorem fixed_width_round_trip_branch : encode .arm [1, 0, 0, 0xEB, 0] = some [3, 0, 0, 0xEB, 0] ∧
    EndsAs (asCall decompress) [3, 0, 0, 0xEB, 0] (fun _ => (2, 0)) (bcj .arm)
      { outcome := none, consumed := 5, output := [1, 0, 0, 0xEB, 0] } := by
  obtain ⟨encoded, hencoded, hends⟩ := @fixed_width_round_trip .arm ⟨by decide, by decide⟩ [1, 0, 0, 0xEB, 0]
    fun _ => (2, 0)
  have hbytes : encode .arm [1, 0, 0, 0xEB, 0] = some [3, 0, 0, 0xEB, 0] := by decide +kernel
  obtain rfl := Option.some.inj (hencoded.symm.trans hbytes)
  exact ⟨hbytes, hends⟩

end FilterDecompressor
end Iluvatar
