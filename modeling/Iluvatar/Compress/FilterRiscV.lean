/-
The RISC-V converter undoes its encoder.

A converted pair looks like the special form, whose register the encoder leaves free; what already
looks like the special form is turned into a pair.  The strides are the same both ways, and what a
step looks at past its stride, a few bits of the next byte, no later step changes.
-/
import Mathlib.Data.Nat.Bitwise
import Iluvatar.Compress.FilterInverse

namespace Iluvatar

open Sansio

namespace Filter

/-! ## The encoder -/

/-- The encoder of the tests, at one place. -/
def riscVEncodeInst (pc : UInt32) : List Byte → List Byte
  | [b0, b1, b2, b3, b4, b5, b6, b7] =>
    if b0 = 0xEF then
      let c1 : UInt32 := b1.toUInt32
      if c1 &&& 0x0D ≠ 0 then [b0, b1]
      else
        let c2 : UInt32 := b2.toUInt32
        let c3 : UInt32 := b3.toUInt32
        let addr : UInt32 := ((c1 &&& (0xF0 : UInt32)) <<< 8 ||| (c2 &&& (0x0F : UInt32)) <<< 16 |||
          (c2 &&& (0x10 : UInt32)) <<< 7 ||| (c2 &&& (0xE0 : UInt32)) >>> 4 ||| (c3 &&& (0x7F : UInt32)) <<< 4 |||
          (c3 &&& (0x80 : UInt32)) <<< 13) + pc
        [b0, ((c1 &&& (0x0F : UInt32)) ||| ((addr >>> 13) &&& (0xF0 : UInt32))).toUInt8, (addr >>> 9).toUInt8,
          (addr >>> 1).toUInt8]
    else if b0 &&& 0x7F = 0x17 then
      let inst : UInt32 := load32Le [b0, b1, b2, b3]
      if inst &&& 0xE80 ≠ 0 then
        let inst2 : UInt32 := load32Le [b4, b5, b6, b7]
        if notAuipcPair inst inst2 then [b0, b1, b2, b3, b4, b5]
        else
          let addr : UInt32 :=
            (inst &&& (0xFFFFF000 : UInt32)) + (inst2 >>> 20 - ((inst2 >>> 19) &&& (0x1000 : UInt32))) + pc
          let inst : UInt32 := (0x17 : UInt32) ||| (2 : UInt32) <<< 7 ||| inst2 <<< 12
          store32Le inst ++ store32Be addr
      else
        let fakeRs1 : UInt32 := inst >>> 27
        if notSpecialAuipc inst fakeRs1 then [b0, b1, b2, b3]
        else
          let fakeAddr : UInt32 := load32Le [b4, b5, b6, b7]
          let fakeInst2 : UInt32 := inst >>> 12 ||| fakeAddr <<< 20
          let inst : UInt32 := (0x17 : UInt32) ||| fakeRs1 <<< 7 ||| (fakeAddr &&& 0xFFFFF000)
          store32Le inst ++ store32Le fakeInst2
    else [b0, b1]
  | w => w

theorem eight_bytes {w : List Byte} (h : w.length = 8) :
    ∃ b0 b1 b2 b3 b4 b5 b6 b7, w = [b0, b1, b2, b3, b4, b5, b6, b7] := by
  match w, h with
  | [b0, b1, b2, b3, b4, b5, b6, b7], _ => exact ⟨b0, b1, b2, b3, b4, b5, b6, b7, rfl⟩

theorem riscVEncodeInst_moves (pc : UInt32) (w : List Byte) (h : w.length = 8) :
    0 < (riscVEncodeInst pc w).length ∧ (riscVEncodeInst pc w).length ≤ 8 := by
  obtain ⟨b0, b1, b2, b3, b4, b5, b6, b7, rfl⟩ := eight_bytes h
  unfold riscVEncodeInst
  simp only
  split
  · split
    · exact ⟨by simp, by simp⟩
    · exact ⟨by simp, by simp⟩
  · split
    · split
      · split
        · exact ⟨by simp, by simp⟩
        · exact ⟨by simp [store32Le], by simp [store32Le, store32Be]⟩
      · split
        · exact ⟨by simp, by simp⟩
        · exact ⟨by simp [store32Le], by simp [store32Le]⟩
    · exact ⟨by simp, by simp⟩

def riscVEncoder : Scanner UInt32 Byte := positional 8 riscVEncodeInst riscVEncodeInst_moves

/-! ## What is matched -/

theorem auipc_byte (b : Byte) : b &&& 0x7F = 0x17 ↔ b.toNat % 128 = 23 := by
  have hand : b.toNat &&& 0x7F = b.toNat % 128 := Nat.and_two_pow_sub_one_eq_mod b.toNat 7
  rw [← UInt8.toNat_inj, UInt8.toNat_and]
  show b.toNat &&& 0x7F = 23 ↔ _
  rw [hand]

theorem jal_byte (b : Byte) : b.toUInt32 &&& 0x0D ≠ 0 ↔ ¬ (b.toNat % 16 = 0 ∨ b.toNat % 16 = 2) := by
  have hmask : b.toNat &&& 0x0D = (b.toNat &&& (2 ^ 2 - 1) <<< 2) ||| (b.toNat &&& 2 ^ 1 - 1) := by
    rw [← Nat.and_or_distrib_left]
    rfl
  rw [ne_eq, ← UInt32.toNat_inj, UInt32.toNat_and, UInt8.toNat_toUInt32]
  show ¬ b.toNat &&& 0x0D = 0 ↔ _
  rw [hmask, and_field, Nat.and_two_pow_sub_one_eq_mod, or_below 2 (by omega) (by omega)]
  omega

/-- A register that the special form does not use. -/
def Live (rd : Nat) : Prop := ¬ (rd = 0 ∨ rd = 2)

theorem live_bits (x : Nat) : x &&& 29 ≠ 0 ↔ Live (x % 32) := by
  have hmask : x &&& 29 = x % 32 &&& 29 := by
    have hlow : x % 32 = x &&& 31 := (Nat.and_two_pow_sub_one_eq_mod x 5).symm
    rw [hlow, Nat.and_assoc]
    rfl
  have hall : ∀ r < 32, r &&& 29 ≠ 0 ↔ ¬ (r = 0 ∨ r = 2) := by decide
  rw [hmask]
  exact hall _ (Nat.mod_lt _ (by decide))

theorem live_iff (inst : UInt32) : inst &&& 0xE80 ≠ 0 ↔ Live (inst.toNat / 2 ^ 7 % 32) := by
  have hand : (inst &&& 0xE80).toNat = (inst.toNat / 2 ^ 7 &&& 29) * 2 ^ 7 := by
    rw [UInt32.toNat_and]
    show inst.toNat &&& 29 <<< 7 = _
    rw [and_shifted, Nat.shiftLeft_eq, Nat.shiftRight_eq_div_pow]
  rw [← live_bits, ne_eq, ← UInt32.toNat_inj, hand]
  show ¬ _ = 0 ↔ _
  omega

theorem pair_mask (x : Nat) : x &&& 0xF8003 = x / 2 ^ 15 % 32 * 2 ^ 15 + x % 4 := by
  have hmask : x &&& 0xF8003 = (x &&& (2 ^ 5 - 1) <<< 15) ||| (x &&& 2 ^ 2 - 1) := by
    rw [← Nat.and_or_distrib_left]
    rfl
  have hhigh : x &&& (2 ^ 5 - 1) <<< 15 = x / 2 ^ 15 % 32 * 2 ^ 15 := and_field x 5 15
  have hlow : x &&& 2 ^ 2 - 1 = x % 4 := Nat.and_two_pow_sub_one_eq_mod x 2
  rw [hmask, hhigh, hlow, or_below 2 (by omega) (by omega)]

/-- A pair uses the register that the first of it loads. -/
theorem pair_iff (auipc inst2 : UInt32) : ¬ notAuipcPair auipc inst2 ↔
    inst2.toNat % 4 = 3 ∧ inst2.toNat / 2 ^ 15 % 32 = auipc.toNat / 2 ^ 7 % 32 := by
  have hauipc := auipc.toNat_lt
  have hinst2 := inst2.toNat_lt
  have hshift : (auipc <<< 8).toNat = _ := shiftLeft_toNat auipc (n := 8) (by decide)
  have hsub : (inst2 - 3).toNat = (2 ^ 32 - 3 + inst2.toNat) % 2 ^ 32 := UInt32.toNat_sub inst2 3
  have hboth : (((auipc <<< 8) ^^^ (inst2 - 3)) &&& 0xF8003).toNat =
      ((auipc <<< 8).toNat &&& 0xF8003) ^^^ ((inst2 - 3).toNat &&& 0xF8003) := by
    rw [UInt32.toNat_and, UInt32.toNat_xor]
    exact Nat.and_xor_distrib_right ..
  unfold notAuipcPair
  rw [ne_eq, not_not, ← UInt32.toNat_inj, hboth, pair_mask, pair_mask, hshift, hsub]
  show _ ^^^ _ = 0 ↔ _
  rw [Nat.xor_eq_zero_iff]
  omega

theorem special_iff (inst rs1 : UInt32) (hrs1 : rs1.toNat < 32) : ¬ notSpecialAuipc inst rs1 ↔
    inst.toNat % 2 ^ 14 = 0x3117 ∧ Live rs1.toNat := by
  have hinst := inst.toNat_lt
  have hsub : (inst - 0x3117).toNat = (2 ^ 32 - 0x3117 + inst.toNat) % 2 ^ 32 := UInt32.toNat_sub inst 0x3117
  have hshift : ((inst - 0x3117) <<< 18).toNat = _ := shiftLeft_toNat (inst - 0x3117) (n := 18) (by decide)
  have hand : (rs1 &&& 0x1D).toNat = rs1.toNat &&& 29 := UInt32.toNat_and rs1 0x1D
  have hle : rs1.toNat &&& 29 ≤ 29 := Nat.and_le_right
  have hlive := live_bits rs1.toNat
  rw [Nat.mod_eq_of_lt hrs1] at hlive
  unfold notSpecialAuipc
  rw [UInt32.le_iff_toNat_le, hand, hshift, hsub, ← hlive]
  generalize rs1.toNat &&& 29 = r at hle
  omega

/-! ## Jumps -/

/-- The offset of a jump, in the order of its bits. -/
def jalOffset (b1 b2 b3 : Nat) : Nat :=
  b3 / 128 * 2 ^ 20 + b2 % 16 * 2 ^ 16 + b1 / 16 * 2 ^ 12 + b2 / 16 % 2 * 2 ^ 11 + b3 % 128 * 2 ^ 4 + b2 / 32 * 2

/-- The fields of an offset, from what it is modulo the jump's reach. -/
theorem offset_fields {d u v w x y z : Nat} (hu : u < 2) (hv : v < 16) (hw : w < 16) (hx : x < 2) (hy : y < 128)
    (hz : z < 8)
    (h : d % 2 ^ 21 = u * 2 ^ 20 + v * 2 ^ 16 + w * 2 ^ 12 + x * 2 ^ 11 + y * 2 ^ 4 + z * 2) :
    (d / 2 ^ 20 % 2 = u ∧ d / 2 ^ 16 % 16 = v ∧ d / 2 ^ 12 % 16 = w) ∧
      (d / 2 ^ 11 % 2 = x ∧ d / 2 ^ 4 % 128 = y ∧ d / 2 % 8 = z) := by
  have hdiv := Nat.div_add_mod d (2 ^ 21)
  rw [h] at hdiv
  generalize d / 2 ^ 21 = q at hdiv
  have h20 : d / 2 ^ 20 = q * 2 + u := by omega
  have h16 : d / 2 ^ 16 = (q * 2 + u) * 2 ^ 4 + v := by omega
  have h12 : d / 2 ^ 12 = ((q * 2 + u) * 2 ^ 4 + v) * 2 ^ 4 + w := by omega
  have h11 : d / 2 ^ 11 = (((q * 2 + u) * 2 ^ 4 + v) * 2 ^ 4 + w) * 2 + x := by omega
  have h4 : d / 2 ^ 4 = ((((q * 2 + u) * 2 ^ 4 + v) * 2 ^ 4 + w) * 2 + x) * 2 ^ 7 + y := by omega
  have h1 : d / 2 = (((((q * 2 + u) * 2 ^ 4 + v) * 2 ^ 4 + w) * 2 + x) * 2 ^ 7 + y) * 2 ^ 3 + z := by omega
  clear hdiv h
  omega

theorem jal_or {u v w x y z : Nat} (hv : v < 16) (hw : w < 16) (hx : x < 2) (hy : y < 128) (hz : z < 8) :
    w * 2 ^ 12 ||| v * 2 ^ 16 ||| x * 2 ^ 11 ||| z * 2 ||| y * 2 ^ 4 ||| u * 2 ^ 20 =
      u * 2 ^ 20 + v * 2 ^ 16 + w * 2 ^ 12 + x * 2 ^ 11 + y * 2 ^ 4 + z * 2 := by
  have hsort : w * 2 ^ 12 ||| v * 2 ^ 16 ||| x * 2 ^ 11 ||| z * 2 ||| y * 2 ^ 4 ||| u * 2 ^ 20 =
      u * 2 ^ 20 ||| v * 2 ^ 16 ||| w * 2 ^ 12 ||| x * 2 ^ 11 ||| y * 2 ^ 4 ||| z * 2 := by ac_rfl
  rw [hsort, or_below (a := u * 2 ^ 20) 20 (by omega) (by omega),
    or_below (a := u * 2 ^ 20 + v * 2 ^ 16) 16 (by omega) (by omega),
    or_below (a := u * 2 ^ 20 + v * 2 ^ 16 + w * 2 ^ 12) 12 (by omega) (by omega),
    or_below (a := u * 2 ^ 20 + v * 2 ^ 16 + w * 2 ^ 12 + x * 2 ^ 11) 11 (by omega) (by omega),
    or_below (a := u * 2 ^ 20 + v * 2 ^ 16 + w * 2 ^ 12 + x * 2 ^ 11 + y * 2 ^ 4) 4 (by omega) (by omega)]

theorem jalOffset_toNat (b1 b2 b3 : Byte) : ((b1.toUInt32 &&& (0xF0 : UInt32)) <<< 8 |||
      (b2.toUInt32 &&& (0x0F : UInt32)) <<< 16 ||| (b2.toUInt32 &&& (0x10 : UInt32)) <<< 7 |||
      (b2.toUInt32 &&& (0xE0 : UInt32)) >>> 4 ||| (b3.toUInt32 &&& (0x7F : UInt32)) <<< 4 |||
      (b3.toUInt32 &&& (0x80 : UInt32)) <<< 13).toNat = jalOffset b1.toNat b2.toNat b3.toNat := by
  have h1 := b1.toNat_lt
  have h2 := b2.toNat_lt
  have h3 := b3.toNat_lt
  have e1 : ((b1.toUInt32 &&& (0xF0 : UInt32)) <<< 8).toNat = _ :=
    shiftLeft_toNat (b1.toUInt32 &&& 0xF0) (n := 8) (by decide)
  have e2 : ((b2.toUInt32 &&& (0x0F : UInt32)) <<< 16).toNat = _ :=
    shiftLeft_toNat (b2.toUInt32 &&& 0x0F) (n := 16) (by decide)
  have e3 : ((b2.toUInt32 &&& (0x10 : UInt32)) <<< 7).toNat = _ :=
    shiftLeft_toNat (b2.toUInt32 &&& 0x10) (n := 7) (by decide)
  have e4 : ((b2.toUInt32 &&& (0xE0 : UInt32)) >>> 4).toNat = _ :=
    shiftRight_toNat (b2.toUInt32 &&& 0xE0) (n := 4) (by decide)
  have e5 : ((b3.toUInt32 &&& (0x7F : UInt32)) <<< 4).toNat = _ :=
    shiftLeft_toNat (b3.toUInt32 &&& 0x7F) (n := 4) (by decide)
  have e6 : ((b3.toUInt32 &&& (0x80 : UInt32)) <<< 13).toNat = _ :=
    shiftLeft_toNat (b3.toUInt32 &&& 0x80) (n := 13) (by decide)
  rw [and_middle (m := 0xF0) (n := 4) (k := 4) rfl, UInt8.toNat_toUInt32] at e1
  rw [and_low (m := 0x0F) (n := 4) rfl, UInt8.toNat_toUInt32] at e2
  rw [and_middle (m := 0x10) (n := 1) (k := 4) rfl, UInt8.toNat_toUInt32] at e3
  rw [and_middle (m := 0xE0) (n := 3) (k := 5) rfl, UInt8.toNat_toUInt32] at e4
  rw [and_low (m := 0x7F) (n := 7) rfl, UInt8.toNat_toUInt32] at e5
  rw [and_middle (m := 0x80) (n := 1) (k := 7) rfl, UInt8.toNat_toUInt32] at e6
  have f1 : b1.toNat / 2 ^ 4 % 2 ^ 4 * 2 ^ 4 * 2 ^ 8 % 2 ^ 32 = b1.toNat / 16 * 2 ^ 12 := by omega
  have f2 : b2.toNat % 2 ^ 4 * 2 ^ 16 % 2 ^ 32 = b2.toNat % 2 ^ 4 * 2 ^ 16 := Nat.mod_eq_of_lt (by omega)
  have f3 : b2.toNat / 2 ^ 4 % 2 ^ 1 * 2 ^ 4 * 2 ^ 7 % 2 ^ 32 = b2.toNat / 16 % 2 * 2 ^ 11 := by omega
  have f4 : b2.toNat / 2 ^ 5 % 2 ^ 3 * 2 ^ 5 / 2 ^ 4 = b2.toNat / 32 * 2 := by omega
  have f5 : b3.toNat % 2 ^ 7 * 2 ^ 4 % 2 ^ 32 = b3.toNat % 128 * 2 ^ 4 := by omega
  have htop : b3.toNat / 2 ^ 7 % 2 ^ 1 * 2 ^ 7 = b3.toNat / 128 * 2 ^ 7 := by omega
  have f6 : b3.toNat / 128 * 2 ^ 7 * 2 ^ 13 % 2 ^ 32 = b3.toNat / 128 * 2 ^ 7 * 2 ^ 13 := Nat.mod_eq_of_lt (by omega)
  rw [UInt32.toNat_or, UInt32.toNat_or, UInt32.toNat_or, UInt32.toNat_or, UInt32.toNat_or, e1, e2, e3, e4, e5, e6,
    f1, f2, f3, f4, f5, htop, f6, Nat.mul_assoc (b3.toNat / 128)]
  exact jal_or (by omega) (by omega) (by omega) (by omega) (by omega)

/-- What the decoder makes of the three bytes of an address. -/
theorem jalAddr_toNat (b1 b2 b3 : Byte) :
    ((b1.toUInt32 &&& 0xF0) <<< 13 ||| b2.toUInt32 <<< 9 ||| b3.toUInt32 <<< 1).toNat =
      b1.toNat / 16 * 2 ^ 17 + b2.toNat * 2 ^ 9 + b3.toNat * 2 := by
  have h1 := b1.toNat_lt
  have h2 := b2.toNat_lt
  have h3 := b3.toNat_lt
  have e1 : ((b1.toUInt32 &&& 0xF0) <<< 13).toNat = _ := shiftLeft_toNat (b1.toUInt32 &&& 0xF0) (n := 13) (by decide)
  have e2 : (b2.toUInt32 <<< 9).toNat = _ := shiftLeft_toNat b2.toUInt32 (n := 9) (by decide)
  have e3 : (b3.toUInt32 <<< 1).toNat = _ := shiftLeft_toNat b3.toUInt32 (n := 1) (by decide)
  rw [and_middle (m := 0xF0) (n := 4) (k := 4) rfl, UInt8.toNat_toUInt32] at e1
  rw [UInt8.toNat_toUInt32] at e2 e3
  have htop : b1.toNat / 2 ^ 4 % 2 ^ 4 = b1.toNat / 16 := by omega
  rw [htop, Nat.mul_assoc, Nat.mod_eq_of_lt (by omega)] at e1
  rw [Nat.mod_eq_of_lt (by omega)] at e2 e3
  rw [UInt32.toNat_or, UInt32.toNat_or, e1, e2, e3]
  show b1.toNat / 16 * 2 ^ 17 ||| b2.toNat * 2 ^ 9 ||| b3.toNat * 2 = _
  rw [or_below (a := b1.toNat / 16 * 2 ^ 17) 17 (by omega) (by omega),
    or_below (a := b1.toNat / 16 * 2 ^ 17 + b2.toNat * 2 ^ 9) 9 (by omega) (by omega)]

/-- The first byte of an address keeps its low half. -/
theorem jalFirst_toNat (b : Byte) (x : UInt32) {n : Nat} (hn : n < 32) :
    ((b.toUInt32 &&& (0x0F : UInt32)) ||| ((x >>> UInt32.ofNat n) &&& (0xF0 : UInt32))).toUInt8.toNat =
      b.toNat % 16 + x.toNat / 2 ^ n / 16 % 16 * 16 := by
  rw [low_toNat, UInt32.toNat_or, and_low (n := 4) rfl, and_middle (n := 4) (k := 4) rfl, UInt8.toNat_toUInt32,
    shiftRight_toNat x hn, Nat.or_comm, or_below (a := x.toNat / 2 ^ n / 2 ^ 4 % 2 ^ 4 * 2 ^ 4) 4 (by omega) (by omega)]
  omega

theorem jalSecond_toNat (x : UInt32) : (((x >>> 16) &&& (0x0F : UInt32)) ||| ((x >>> 7) &&& (0x10 : UInt32)) |||
      ((x <<< 4) &&& (0xE0 : UInt32))).toUInt8.toNat =
    x.toNat / 2 ^ 16 % 16 + x.toNat / 2 ^ 11 % 2 * 16 + x.toNat / 2 % 8 * 32 := by
  have hx := x.toNat_lt
  have e1 : (x >>> 16).toNat = _ := shiftRight_toNat x (n := 16) (by decide)
  have e2 : (x >>> 7).toNat = _ := shiftRight_toNat x (n := 7) (by decide)
  have e3 : (x <<< 4).toNat = _ := shiftLeft_toNat x (n := 4) (by decide)
  have hsort : ∀ u v w : Nat, u ||| v ||| w = w ||| v ||| u := fun u v w => by ac_rfl
  have f2 : x.toNat / 2 ^ 7 / 2 ^ 4 % 2 ^ 1 * 2 ^ 4 = x.toNat / 2 ^ 11 % 2 * 16 := by omega
  have f3 : x.toNat * 2 ^ 4 % 2 ^ 32 / 2 ^ 5 % 2 ^ 3 * 2 ^ 5 = x.toNat / 2 % 8 * 32 := by omega
  rw [low_toNat, UInt32.toNat_or, UInt32.toNat_or, and_low (n := 4) rfl, and_middle (n := 1) (k := 4) rfl,
    and_middle (n := 3) (k := 5) rfl, e1, e2, e3, hsort, f2, f3,
    or_below (a := x.toNat / 2 % 8 * 32) 5 (by omega) (by omega),
    or_below (a := x.toNat / 2 % 8 * 32 + x.toNat / 2 ^ 11 % 2 * 16) 4 (by omega) (by omega)]
  omega

theorem jalThird_toNat (x : UInt32) :
    (((x >>> 4) &&& (0x7F : UInt32)) ||| ((x >>> 13) &&& (0x80 : UInt32))).toUInt8.toNat =
      x.toNat / 2 ^ 4 % 128 + x.toNat / 2 ^ 20 % 2 * 128 := by
  have e1 : (x >>> 4).toNat = _ := shiftRight_toNat x (n := 4) (by decide)
  have e2 : (x >>> 13).toNat = _ := shiftRight_toNat x (n := 13) (by decide)
  have f2 : x.toNat / 2 ^ 13 / 2 ^ 7 % 2 ^ 1 * 2 ^ 7 = x.toNat / 2 ^ 20 % 2 * 128 := by omega
  rw [low_toNat, UInt32.toNat_or, and_low (n := 7) rfl, and_middle (n := 1) (k := 7) rfl, e1, e2, f2, Nat.or_comm,
    or_below (a := x.toNat / 2 ^ 20 % 2 * 128) 7 (by omega) (by omega)]
  omega

/-- The bits of an address from the second to the 21st, away and back. -/
theorem jal_back {s p a d : Nat} (hs : s < 2 ^ 21) (heven : s % 2 = 0) (hp : p % 2 = 0) (hlt : p < 2 ^ 32)
    (ha : a = (s + p) % 2 ^ 32) (hd : d = (2 ^ 32 - p + a % 2 ^ 21 / 2 * 2) % 2 ^ 32) : d % 2 ^ 21 = s := by
  omega

/-- A jump, the bytes after it left alone. -/
theorem jal_inverse {pc : UInt32} (hpc : pc.toNat % 2 = 0) {b0 b1 : Byte} (b2 b3 b4 b5 b6 b7 : Byte) (hjal : b0 = 0xEF)
    (h : ¬ b1.toUInt32 &&& 0x0D ≠ 0) :
    ∃ c1 c2 c3, riscVEncodeInst pc [b0, b1, b2, b3, b4, b5, b6, b7] = [b0, c1, c2, c3] ∧
      ∀ e4 e5 e6 e7, riscVInst pc [b0, c1, c2, c3, e4, e5, e6, e7] = [b0, b1, b2, b3] := by
  have hpcLt := pc.toNat_lt
  have h1 := b1.toNat_lt
  have h2 := b2.toNat_lt
  have h3 := b3.toNat_lt
  refine ⟨_, _, _, (if_pos hjal).trans (if_neg h), ?_⟩
  intro e4 e5 e6 e7
  have hoffset := jalOffset_toNat b1 b2 b3
  generalize ((b1.toUInt32 &&& (0xF0 : UInt32)) <<< 8 ||| (b2.toUInt32 &&& (0x0F : UInt32)) <<< 16 |||
    (b2.toUInt32 &&& (0x10 : UInt32)) <<< 7 ||| (b2.toUInt32 &&& (0xE0 : UInt32)) >>> 4 |||
    (b3.toUInt32 &&& (0x7F : UInt32)) <<< 4 ||| (b3.toUInt32 &&& (0x80 : UInt32)) <<< 13) = offset at hoffset ⊢
  have haddr : (offset + pc).toNat = (offset.toNat + pc.toNat) % 2 ^ 32 := UInt32.toNat_add offset pc
  generalize offset + pc = addr at haddr ⊢
  have k1 : ((b1.toUInt32 &&& (0x0F : UInt32)) ||| ((addr >>> 13) &&& (0xF0 : UInt32))).toUInt8.toNat = _ :=
    jalFirst_toNat b1 addr (n := 13) (by decide)
  have k2 : (addr >>> 9).toUInt8.toNat = _ := shifted_low_toNat addr (n := 9) (by decide)
  have k3 : (addr >>> 1).toUInt8.toNat = _ := shifted_low_toNat addr (n := 1) (by decide)
  generalize ((b1.toUInt32 &&& (0x0F : UInt32)) ||| ((addr >>> 13) &&& (0xF0 : UInt32))).toUInt8 = c1 at k1 ⊢
  generalize (addr >>> 9).toUInt8 = c2 at k2 ⊢
  generalize (addr >>> 1).toUInt8 = c3 at k3 ⊢
  have hsame : ¬ c1.toUInt32 &&& 0x0D ≠ 0 := by
    rw [jal_byte] at h ⊢
    rwa [show c1.toNat % 16 = b1.toNat % 16 by omega]
  refine (if_pos hjal).trans ((if_neg hsame).trans ?_)
  dsimp only
  have hraw := jalAddr_toNat c1 c2 c3
  generalize ((c1.toUInt32 &&& 0xF0) <<< 13 ||| c2.toUInt32 <<< 9 ||| c3.toUInt32 <<< 1) = raw at hraw ⊢
  have hdest : (raw - pc).toNat = (2 ^ 32 - pc.toNat + raw.toNat) % 2 ^ 32 := UInt32.toNat_sub raw pc
  generalize raw - pc = dest at hdest ⊢
  have hrawAddr : raw.toNat = addr.toNat % 2 ^ 21 / 2 * 2 := by omega
  rw [hrawAddr] at hdest
  have hlow : jalOffset b1.toNat b2.toNat b3.toNat < 2 ^ 21 ∧ jalOffset b1.toNat b2.toNat b3.toNat % 2 = 0 := by
    unfold jalOffset
    omega
  rw [hoffset] at haddr
  have hback := jal_back hlow.1 hlow.2 hpc hpcLt haddr hdest
  have g1 : ((c1.toUInt32 &&& (0x0F : UInt32)) ||| ((dest >>> 8) &&& (0xF0 : UInt32))).toUInt8.toNat = _ :=
    jalFirst_toNat c1 dest (n := 8) (by decide)
  have g2 := jalSecond_toNat dest
  have g3 := jalThird_toNat dest
  obtain ⟨⟨d20, d16, d12⟩, d11, d4, d1⟩ :=
    offset_fields (by omega) (by omega) (by omega) (by omega) (by omega) (by omega) hback
  have d12' : dest.toNat / 2 ^ 8 / 16 % 16 = b1.toNat / 16 := by
    rw [Nat.div_div_eq_div_mul]
    exact d12
  have hlow1 : c1.toNat % 16 = b1.toNat % 16 := by omega
  have f1 : ((c1.toUInt32 &&& (0x0F : UInt32)) ||| ((dest >>> 8) &&& (0xF0 : UInt32))).toUInt8 = b1 :=
    UInt8.toNat_inj.mp (by rw [g1, hlow1, d12']; omega)
  have f2 : (((dest >>> 16) &&& (0x0F : UInt32)) ||| ((dest >>> 7) &&& (0x10 : UInt32)) |||
      ((dest <<< 4) &&& (0xE0 : UInt32))).toUInt8 = b2 := UInt8.toNat_inj.mp (by rw [g2, d16, d11, d1]; omega)
  have f3 : (((dest >>> 4) &&& (0x7F : UInt32)) ||| ((dest >>> 13) &&& (0x80 : UInt32))).toUInt8 = b3 :=
    UInt8.toNat_inj.mp (by rw [g3, d4, d20]; omega)
  rw [f1, f2, f3]

/-! ## Pairs -/

theorem auipc_or {r x : Nat} (hr : r < 32) : 23 ||| r * 2 ^ 7 ||| x * 2 ^ 12 = 23 + r * 2 ^ 7 + x * 2 ^ 12 := by
  have hsort : 23 ||| r * 2 ^ 7 ||| x * 2 ^ 12 = x * 2 ^ 12 ||| r * 2 ^ 7 ||| 23 := by ac_rfl
  rw [hsort, or_below (a := x * 2 ^ 12) 12 (by omega) (by omega),
    or_below (a := x * 2 ^ 12 + r * 2 ^ 7) 7 (by omega) (by omega)]
  omega

/-- The first word of the special form. -/
theorem special_toNat (x : UInt32) : ((0x17 : UInt32) ||| (2 : UInt32) <<< 7 ||| x <<< 12).toNat =
    23 + 2 * 2 ^ 7 + x.toNat % 2 ^ 20 * 2 ^ 12 := by
  have hshift : (x <<< 12).toNat = _ := shiftLeft_toNat x (n := 12) (by decide)
  have hwrap : x.toNat * 2 ^ 12 % 2 ^ 32 = x.toNat % 2 ^ 20 * 2 ^ 12 := by omega
  rw [UInt32.toNat_or, UInt32.toNat_or, hshift, hwrap]
  exact auipc_or (r := 2) (by decide)

/-- The first word of a pair. -/
theorem auipc_toNat {rd : UInt32} (hrd : rd.toNat < 32) (x : UInt32) :
    ((0x17 : UInt32) ||| rd <<< 7 ||| (x &&& 0xFFFFF000)).toNat = 23 + rd.toNat * 2 ^ 7 + x.toNat / 2 ^ 12 * 2 ^ 12 := by
  have hx := x.toNat_lt
  have hshift : (rd <<< 7).toNat = _ := shiftLeft_toNat rd (n := 7) (by decide)
  have hwrap : rd.toNat * 2 ^ 7 % 2 ^ 32 = rd.toNat * 2 ^ 7 := by omega
  have htop : x.toNat / 2 ^ 12 % 2 ^ 20 = x.toNat / 2 ^ 12 := by omega
  rw [UInt32.toNat_or, UInt32.toNat_or, hshift, hwrap, and_middle (n := 20) (k := 12) rfl, htop]
  exact auipc_or hrd

/-- The second word of a pair. -/
theorem second_toNat (x y : UInt32) : (x >>> 12 ||| y <<< 20).toNat = x.toNat / 2 ^ 12 + y.toNat % 2 ^ 12 * 2 ^ 20 := by
  have hx := x.toNat_lt
  have hright : (x >>> 12).toNat = _ := shiftRight_toNat x (n := 12) (by decide)
  have hleft : (y <<< 20).toNat = _ := shiftLeft_toNat y (n := 20) (by decide)
  have hwrap : y.toNat * 2 ^ 20 % 2 ^ 32 = y.toNat % 2 ^ 12 * 2 ^ 20 := by omega
  rw [UInt32.toNat_or, hright, hleft, hwrap, Nat.or_comm,
    or_below (a := y.toNat % 2 ^ 12 * 2 ^ 20) 20 (Nat.mul_mod_left _ _) (by omega), Nat.add_comm]

/-- A word whose first byte is that of AUIPC. -/
theorem auipc_first {u : UInt32} (hu : u.toNat % 128 = 23) : u.toUInt8 ≠ 0xEF ∧ u.toUInt8 &&& 0x7F = 0x17 := by
  have hlow := low_toNat u
  refine ⟨fun hjal => ?_, (auipc_byte _).mpr (by omega)⟩
  have hvalue : u.toUInt8.toNat = 0xEF := congrArg UInt8.toNat hjal
  omega

theorem riscVInst_pair {u v : UInt32} (hu : u.toNat % 128 = 23) (hlive : Live (u.toNat / 2 ^ 7 % 32))
    (hpair : ¬ notAuipcPair u v) (pc : UInt32) : riscVInst pc (store32Le u ++ store32Le v) =
      store32Le ((0x17 : UInt32) ||| (2 : UInt32) <<< 7 ||| v <<< 12) ++
        store32Le ((u &&& (0xFFFFF000 : UInt32)) + v >>> 20) := by
  obtain ⟨hjal, hauipc⟩ := auipc_first hu
  have hloadU := load_store u
  have hloadV := load_store v
  unfold store32Le at hloadU hloadV
  refine (if_neg hjal).trans ((if_pos hauipc).trans ?_)
  rw [hloadU, hloadV, if_pos ((live_iff u).mpr hlive), if_neg hpair]

theorem riscVInst_special {u : UInt32} (hu : u.toNat % 128 = 23) (hfree : ¬ Live (u.toNat / 2 ^ 7 % 32))
    (hspecial : ¬ notSpecialAuipc u (u >>> 27)) (addr pc : UInt32) :
    riscVInst pc (store32Le u ++ store32Be addr) =
      store32Le ((0x17 : UInt32) ||| (u >>> 27) <<< 7 ||| ((addr - pc + 0x800) &&& 0xFFFFF000)) ++
        store32Le (u >>> 12 ||| (addr - pc) <<< 20) := by
  obtain ⟨hjal, hauipc⟩ := auipc_first hu
  have hloadU := load_store u
  have hloadAddr := load_store_be addr
  unfold store32Le at hloadU
  unfold store32Be at hloadAddr
  refine (if_neg hjal).trans ((if_pos hauipc).trans ?_)
  rw [hloadU, hloadAddr, if_neg (fun h => hfree ((live_iff u).mp h)), if_neg hspecial]

theorem riscVEncodeInst_pair {u v : UInt32} (hu : u.toNat % 128 = 23) (hlive : Live (u.toNat / 2 ^ 7 % 32))
    (hpair : ¬ notAuipcPair u v) (pc : UInt32) : riscVEncodeInst pc (store32Le u ++ store32Le v) =
      store32Le ((0x17 : UInt32) ||| (2 : UInt32) <<< 7 ||| v <<< 12) ++
        store32Be ((u &&& (0xFFFFF000 : UInt32)) + (v >>> 20 - ((v >>> 19) &&& (0x1000 : UInt32))) + pc) := by
  obtain ⟨hjal, hauipc⟩ := auipc_first hu
  have hloadU := load_store u
  have hloadV := load_store v
  unfold store32Le at hloadU hloadV
  refine (if_neg hjal).trans ((if_pos hauipc).trans ?_)
  rw [hloadU, hloadV, if_pos ((live_iff u).mpr hlive), if_neg hpair]

theorem riscVEncodeInst_special {u : UInt32} (hu : u.toNat % 128 = 23) (hfree : ¬ Live (u.toNat / 2 ^ 7 % 32))
    (hspecial : ¬ notSpecialAuipc u (u >>> 27)) (fake pc : UInt32) :
    riscVEncodeInst pc (store32Le u ++ store32Le fake) =
      store32Le ((0x17 : UInt32) ||| (u >>> 27) <<< 7 ||| (fake &&& 0xFFFFF000)) ++
        store32Le (u >>> 12 ||| fake <<< 20) := by
  obtain ⟨hjal, hauipc⟩ := auipc_first hu
  have hloadU := load_store u
  have hloadFake := load_store fake
  unfold store32Le at hloadU hloadFake
  refine (if_neg hjal).trans ((if_pos hauipc).trans ?_)
  rw [hloadU, hloadFake, if_neg (fun h => hfree ((live_iff u).mp h)), if_neg hspecial]

/-- The address of a pair, whose second word adds a number with a sign. -/
theorem pairAddr_toNat (u v : UInt32) :
    ((u &&& (0xFFFFF000 : UInt32)) + (v >>> 20 - ((v >>> 19) &&& (0x1000 : UInt32)))).toNat =
      (u.toNat / 2 ^ 12 * 2 ^ 12 + (2 ^ 32 - v.toNat / 2 ^ 31 * 2 ^ 12 + v.toNat / 2 ^ 20) % 2 ^ 32) % 2 ^ 32 := by
  have hu := u.toNat_lt
  have hv := v.toNat_lt
  have h20 : (v >>> 20).toNat = _ := shiftRight_toNat v (n := 20) (by decide)
  have h19 : (v >>> 19).toNat = _ := shiftRight_toNat v (n := 19) (by decide)
  have hsign : v.toNat / 2 ^ 19 / 2 ^ 12 % 2 ^ 1 * 2 ^ 12 = v.toNat / 2 ^ 31 * 2 ^ 12 := by omega
  have htop : u.toNat / 2 ^ 12 % 2 ^ 20 = u.toNat / 2 ^ 12 := by omega
  rw [UInt32.toNat_add, UInt32.toNat_sub, and_middle (n := 20) (k := 12) rfl, and_middle (n := 1) (k := 12) rfl,
    h20, h19, hsign, htop]

/-- What a pair loads, taken apart into its two words again. -/
theorem pair_address_back {u v a : Nat} (hu : u < 2 ^ 32) (hv : v < 2 ^ 32)
    (ha : a = (u / 2 ^ 12 * 2 ^ 12 + (2 ^ 32 - v / 2 ^ 31 * 2 ^ 12 + v / 2 ^ 20) % 2 ^ 32) % 2 ^ 32) :
    a % 2 ^ 12 = v / 2 ^ 20 ∧ (a + 0x800) % 2 ^ 32 / 2 ^ 12 = u / 2 ^ 12 := by
  omega

/-- A pair comes back from the special form. -/
theorem pair_inverse {u v : UInt32} (hu : u.toNat % 128 = 23) (hlive : Live (u.toNat / 2 ^ 7 % 32))
    (hpair : ¬ notAuipcPair u v) (pc : UInt32) :
    riscVInst pc (riscVEncodeInst pc (store32Le u ++ store32Le v)) = store32Le u ++ store32Le v := by
  have huLt := u.toNat_lt
  have hvLt := v.toNat_lt
  rw [riscVEncodeInst_pair hu hlive hpair]
  obtain ⟨hlow, hrd⟩ := (pair_iff u v).mp hpair
  have hfirst := special_toNat v
  have haddr := pairAddr_toNat u v
  generalize (0x17 : UInt32) ||| (2 : UInt32) <<< 7 ||| v <<< 12 = first at hfirst ⊢
  generalize (u &&& (0xFFFFF000 : UInt32)) + (v >>> 20 - ((v >>> 19) &&& (0x1000 : UInt32))) = addr at haddr ⊢
  have hrs1 : (first >>> 27).toNat = _ := shiftRight_toNat first (n := 27) (by decide)
  have hrd' : (first >>> 27).toNat = u.toNat / 2 ^ 7 % 32 := by omega
  have hrdLt : (first >>> 27).toNat < 32 := by omega
  have hfree : ¬ Live (first.toNat / 2 ^ 7 % 32) := by
    rw [show first.toNat / 2 ^ 7 % 32 = 2 by omega]
    exact fun h => h (.inr rfl)
  have hspecial : ¬ notSpecialAuipc first (first >>> 27) := by
    rw [special_iff first _ hrdLt, hrd']
    exact ⟨by omega, hlive⟩
  rw [riscVInst_special (by omega) hfree hspecial, UInt32.add_sub_cancel]
  obtain ⟨hrest, hbase⟩ := pair_address_back huLt hvLt haddr
  have hadd : (addr + 0x800).toNat = (addr.toNat + 0x800) % 2 ^ 32 := UInt32.toNat_add addr 0x800
  have hback : (0x17 : UInt32) ||| (first >>> 27) <<< 7 ||| ((addr + 0x800) &&& 0xFFFFF000) = u := by
    refine UInt32.toNat_inj.mp ?_
    rw [auipc_toNat hrdLt, hadd, hbase, hrd']
    omega
  have hback' : first >>> 12 ||| addr <<< 20 = v := by
    refine UInt32.toNat_inj.mp ?_
    rw [second_toNat, hrest]
    omega
  rw [hback, hback']

/-- What already looked like the special form comes back from a pair. -/
theorem special_inverse {u : UInt32} (hu : u.toNat % 128 = 23) (hfree : ¬ Live (u.toNat / 2 ^ 7 % 32))
    (hspecial : ¬ notSpecialAuipc u (u >>> 27)) (fake pc : UInt32) :
    riscVInst pc (riscVEncodeInst pc (store32Le u ++ store32Le fake)) = store32Le u ++ store32Le fake := by
  have huLt := u.toNat_lt
  have hfakeLt := fake.toNat_lt
  rw [riscVEncodeInst_special hu hfree hspecial]
  have hrs1 : (u >>> 27).toNat = _ := shiftRight_toNat u (n := 27) (by decide)
  have hrs1Lt : (u >>> 27).toNat < 32 := by omega
  obtain ⟨hlow, hlive⟩ := (special_iff u _ hrs1Lt).mp hspecial
  have hfirst := auipc_toNat hrs1Lt fake
  have hsecond := second_toNat u fake
  generalize (0x17 : UInt32) ||| (u >>> 27) <<< 7 ||| (fake &&& 0xFFFFF000) = first at hfirst ⊢
  generalize u >>> 12 ||| fake <<< 20 = second at hsecond ⊢
  have hrd : first.toNat / 2 ^ 7 % 32 = (u >>> 27).toNat := by omega
  have hpair : ¬ notAuipcPair first second := by
    rw [pair_iff, hrd]
    omega
  rw [riscVInst_pair (by omega) (by rwa [hrd]) hpair]
  have htop : (second >>> 20).toNat = _ := shiftRight_toNat second (n := 20) (by decide)
  have hback : (0x17 : UInt32) ||| (2 : UInt32) <<< 7 ||| second <<< 12 = u := by
    refine UInt32.toNat_inj.mp ?_
    rw [special_toNat]
    omega
  have hback' : (first &&& (0xFFFFF000 : UInt32)) + second >>> 20 = fake := by
    refine UInt32.toNat_inj.mp ?_
    rw [UInt32.toNat_add, and_middle (n := 20) (k := 12) rfl, htop]
    omega
  rw [hback, hback']

/-! ## Whole inputs -/

/-- The low half of the first byte, which a pair looks at from six bytes before. -/
def SameLow (data encoded : List Byte) : Prop :=
  ∀ b c, data[0]? = some b → encoded[0]? = some c → c.toNat % 16 = b.toNat % 16

/-- What one step of the encoder leaves: its first byte keeps its low half, it takes an even number
of bytes, and the decoder gives them back before any bytes that keep theirs. -/
structure Undone (pc : UInt32) (w : List Byte) : Prop where
  low : SameLow w (riscVEncodeInst pc w)
  even : (riscVEncodeInst pc w).length % 2 = 0
  back : ∀ tail, tail.length = 8 - (riscVEncodeInst pc w).length →
    SameLow (w.drop (riscVEncodeInst pc w).length) tail →
      riscVInst pc (riscVEncodeInst pc w ++ tail) = w.take (riscVEncodeInst pc w).length

variable {pc : UInt32} {b0 b1 b2 b3 b4 b5 b6 b7 : Byte}

/-- Bytes passed as they are. -/
theorem Undone.passed {w : List Byte} (hlength : w.length = 8) {n : Nat} (hn : 0 < n ∧ n ≤ 8 ∧ n % 2 = 0)
    (hencoded : riscVEncodeInst pc w = w.take n)
    (hback : ∀ tail, tail.length = 8 - n → SameLow (w.drop n) tail → riscVInst pc (w.take n ++ tail) = w.take n) :
    Undone pc w := by
  have htaken : (w.take n).length = n := List.length_take_of_le (hlength ▸ hn.2.1)
  refine ⟨?_, ?_, ?_⟩
  · rw [hencoded]
    intro b c hb hc
    rw [List.getElem?_take_of_lt hn.1, hb] at hc
    rw [Option.some.inj hc]
  · rw [hencoded, htaken]
    exact hn.2.2
  · rw [hencoded, htaken]
    exact hback

/-- Eight bytes that come back from what they were turned into. -/
theorem Undone.turned {w : List Byte} (hlength : w.length = 8) (hturned : (riscVEncodeInst pc w).length = 8)
    (hlow : SameLow w (riscVEncodeInst pc w)) (hback : riscVInst pc (riscVEncodeInst pc w) = w) : Undone pc w := by
  refine ⟨hlow, by rw [hturned], ?_⟩
  rw [hturned]
  intro tail htail _
  rw [List.length_eq_zero_iff.mp htail, List.append_nil, hback, List.take_of_length_le (Nat.le_of_eq hlength)]

theorem two_left {tail : List Byte} (h : tail.length = 2) : ∃ e0 e1, tail = [e0, e1] := by
  match tail, h with
  | [e0, e1], _ => exact ⟨e0, e1, rfl⟩

theorem six_left {tail : List Byte} (h : tail.length = 6) : ∃ e0 e1 e2 e3 e4 e5, tail = [e0, e1, e2, e3, e4, e5] := by
  match tail, h with
  | [e0, e1, e2, e3, e4, e5], _ => exact ⟨e0, e1, e2, e3, e4, e5, rfl⟩

theorem jal_undone (hpc : pc.toNat % 2 = 0) (hjal : b0 = 0xEF) : Undone pc [b0, b1, b2, b3, b4, b5, b6, b7] := by
  by_cases hreg : b1.toUInt32 &&& 0x0D ≠ 0
  · refine Undone.passed (n := 2) rfl (by decide) ((if_pos hjal).trans (if_pos hreg)) ?_
    intro tail htail _
    obtain ⟨e2, e3, e4, e5, e6, e7, rfl⟩ := six_left htail
    exact (if_pos hjal).trans (if_pos hreg)
  · obtain ⟨c1, c2, c3, hencoded, hback⟩ := jal_inverse hpc b2 b3 b4 b5 b6 b7 hjal hreg
    have hlength : (riscVEncodeInst pc [b0, b1, b2, b3, b4, b5, b6, b7]).length = 4 := by
      rw [hencoded]
      rfl
    refine ⟨?_, ?_, ?_⟩
    · rw [hencoded]
      intro b c hb hc
      rw [← Option.some.inj hb, ← Option.some.inj hc]
    · rw [hlength]
    · rw [hlength, hencoded]
      intro tail htail _
      obtain ⟨e4, e5, e6, e7, rfl⟩ := four_bytes htail
      exact hback e4 e5 e6 e7

theorem other_undone (hjal : b0 ≠ 0xEF) (hauipc : ¬ b0 &&& 0x7F = 0x17) :
    Undone pc [b0, b1, b2, b3, b4, b5, b6, b7] := by
  refine Undone.passed (n := 2) rfl (by decide) ((if_neg hjal).trans (if_neg hauipc)) ?_
  intro tail htail _
  obtain ⟨e2, e3, e4, e5, e6, e7, rfl⟩ := six_left htail
  exact (if_neg hjal).trans (if_neg hauipc)

/-- Whether two words are a pair shows in the first 20 bits of the second. -/
theorem pair_congr {u v v' : UInt32} (h : v'.toNat % 2 ^ 20 = v.toNat % 2 ^ 20) :
    notAuipcPair u v' ↔ notAuipcPair u v := by
  rw [← not_iff_not, pair_iff, pair_iff]
  omega

/-- Two words that are no pair: the decoder sees that they are none before the second is complete. -/
theorem apart_undone (hjal : b0 ≠ 0xEF) (hauipc : b0 &&& 0x7F = 0x17)
    (hlive : load32Le [b0, b1, b2, b3] &&& 0xE80 ≠ 0)
    (hpair : notAuipcPair (load32Le [b0, b1, b2, b3]) (load32Le [b4, b5, b6, b7])) :
    Undone pc [b0, b1, b2, b3, b4, b5, b6, b7] := by
  refine Undone.passed (n := 6) rfl (by decide)
    ((if_neg hjal).trans ((if_pos hauipc).trans ((if_pos hlive).trans (if_pos hpair)))) ?_
  intro tail htail hsame
  obtain ⟨e6, e7, rfl⟩ := two_left htail
  have hhalf : e6.toNat % 16 = b6.toNat % 16 := hsame b6 e6 rfl rfl
  have hpair' : notAuipcPair (load32Le [b0, b1, b2, b3]) (load32Le [b4, b5, e6, e7]) := by
    refine (pair_congr ?_).mpr hpair
    rw [load32Le_toNat, load32Le_toNat]
    omega
  exact (if_neg hjal).trans ((if_pos hauipc).trans ((if_pos hlive).trans (if_pos hpair')))

theorem plain_undone (hjal : b0 ≠ 0xEF) (hauipc : b0 &&& 0x7F = 0x17)
    (hfree : ¬ load32Le [b0, b1, b2, b3] &&& 0xE80 ≠ 0)
    (hspecial : notSpecialAuipc (load32Le [b0, b1, b2, b3]) (load32Le [b0, b1, b2, b3] >>> 27)) :
    Undone pc [b0, b1, b2, b3, b4, b5, b6, b7] := by
  refine Undone.passed (n := 4) rfl (by decide)
    ((if_neg hjal).trans ((if_pos hauipc).trans ((if_neg hfree).trans (if_pos hspecial)))) ?_
  intro tail htail _
  obtain ⟨e4, e5, e6, e7, rfl⟩ := four_bytes htail
  exact (if_neg hjal).trans ((if_pos hauipc).trans ((if_neg hfree).trans (if_pos hspecial)))

/-- A word that ends as AUIPC does, in place of another. -/
theorem words_low {u u' : UInt32} (hu : u.toNat % 128 = 23) (hu' : u'.toNat % 128 = 23) (v v' : List Byte) :
    SameLow (store32Le u ++ v) (store32Le u' ++ v') := by
  intro b c hb hc
  have hlow := low_toNat u
  have hlow' := low_toNat u'
  rw [← Option.some.inj hb, ← Option.some.inj hc]
  omega

theorem pair_undone {u v : UInt32} (hu : u.toNat % 128 = 23) (hlive : Live (u.toNat / 2 ^ 7 % 32))
    (hpair : ¬ notAuipcPair u v) : Undone pc (store32Le u ++ store32Le v) := by
  refine Undone.turned rfl ?_ ?_ (pair_inverse hu hlive hpair pc)
  · rw [riscVEncodeInst_pair hu hlive hpair]
    rfl
  · rw [riscVEncodeInst_pair hu hlive hpair]
    exact words_low hu (by rw [special_toNat]; omega) _ _

theorem special_undone {u : UInt32} (hu : u.toNat % 128 = 23) (hfree : ¬ Live (u.toNat / 2 ^ 7 % 32))
    (hspecial : ¬ notSpecialAuipc u (u >>> 27)) (fake : UInt32) : Undone pc (store32Le u ++ store32Le fake) := by
  have hrs1 : (u >>> 27).toNat = _ := shiftRight_toNat u (n := 27) (by decide)
  have hrs1Lt : (u >>> 27).toNat < 32 := by
    have := u.toNat_lt
    omega
  refine Undone.turned rfl ?_ ?_ (special_inverse hu hfree hspecial fake pc)
  · rw [riscVEncodeInst_special hu hfree hspecial]
    rfl
  · rw [riscVEncodeInst_special hu hfree hspecial]
    exact words_low hu (by rw [auipc_toNat hrs1Lt]; omega) _ _

theorem riscV_undone (hpc : pc.toNat % 2 = 0) {w : List Byte} (h : w.length = 8) : Undone pc w := by
  obtain ⟨b0, b1, b2, b3, b4, b5, b6, b7, rfl⟩ := eight_bytes h
  by_cases hjal : b0 = 0xEF
  · exact jal_undone hpc hjal
  by_cases hauipc : b0 &&& 0x7F = 0x17
  · have hfirst := (auipc_byte b0).mp hauipc
    have hwords : [b0, b1, b2, b3, b4, b5, b6, b7] =
        store32Le (load32Le [b0, b1, b2, b3]) ++ store32Le (load32Le [b4, b5, b6, b7]) := by
      rw [store_load, store_load]
      rfl
    have hu : (load32Le [b0, b1, b2, b3]).toNat % 128 = 23 := by
      rw [load32Le_toNat]
      omega
    by_cases hlive : load32Le [b0, b1, b2, b3] &&& 0xE80 ≠ 0
    · by_cases hpair : notAuipcPair (load32Le [b0, b1, b2, b3]) (load32Le [b4, b5, b6, b7])
      · exact apart_undone hjal hauipc hlive hpair
      · rw [hwords]
        exact pair_undone hu ((live_iff _).mp hlive) hpair
    · by_cases hspecial : notSpecialAuipc (load32Le [b0, b1, b2, b3]) (load32Le [b0, b1, b2, b3] >>> 27)
      · exact plain_undone hjal hauipc hlive hspecial
      · rw [hwords]
        exact special_undone hu (fun hfree => hlive ((live_iff _).mpr hfree)) hspecial _
  · exact other_undone hjal hauipc

theorem riscV_inverse (data : List Byte) : riscV.convert 0 (riscVEncoder.convert 0 data) = data := by
  refine (riscVEncoder.convert_inverse riscV (Eq.refl 8) (C := fun pc _ => pc.toNat % 2 = 0)
    (V := fun _ data encoded => SameLow data encoded) ?_ ?_ 0 data rfl).2
  · intro pc data _ _ b c hb hc
    rw [Option.some.inj (hb.symm.trans hc)]
  intro pc data hpc hlong
  have htaken : (data.take 8).length = 8 := List.length_take_of_le hlong
  have hundone := riscV_undone hpc htaken
  have hmoves := riscVEncodeInst_moves pc (data.take 8) htaken
  show (pc + UInt32.ofNat (riscVEncodeInst pc (data.take 8)).length).toNat % 2 = 0 ∧
    ∀ more, more.length = data.length - (riscVEncodeInst pc (data.take 8)).length →
      SameLow (data.drop (riscVEncodeInst pc (data.take 8)).length) more →
        SameLow data (riscVEncodeInst pc (data.take 8) ++ more) ∧
          (riscVInst pc ((riscVEncodeInst pc (data.take 8) ++ more).take 8),
            pc + UInt32.ofNat (riscVInst pc ((riscVEncodeInst pc (data.take 8) ++ more).take 8)).length) =
          (data.take (riscVEncodeInst pc (data.take 8)).length,
            pc + UInt32.ofNat (riscVEncodeInst pc (data.take 8)).length)
  obtain ⟨hlow, heven, hback⟩ := hundone
  generalize riscVEncodeInst pc (data.take 8) = encoded at hmoves hlow heven hback ⊢
  refine ⟨?_, fun more hlength hsame => ⟨?_, ?_⟩⟩
  · rw [UInt32.toNat_add, UInt32.toNat_ofNat']
    omega
  · intro b c hb hc
    rw [List.getElem?_append_left hmoves.1] at hc
    exact hlow b c ((List.getElem?_take_of_lt (by decide)).trans hb) hc
  · have hwindow : (encoded ++ more).take 8 = encoded ++ more.take (8 - encoded.length) := by
      rw [List.take_append, List.take_of_length_le hmoves.2]
    have htail : (more.take (8 - encoded.length)).length = 8 - encoded.length := by
      have hwidth : riscVEncoder.width = 8 := rfl
      rw [List.length_take]
      omega
    have hsame' : SameLow ((data.take 8).drop encoded.length) (more.take (8 - encoded.length)) := by
      intro b c hb hc
      rw [List.getElem?_drop, List.getElem?_take] at hb
      rw [List.getElem?_take] at hc
      split at hb
      · split at hc
        · exact hsame b c (by rwa [List.getElem?_drop]) hc
        · cases hc
      · cases hb
    rw [hwindow, hback _ htail hsame', List.take_take, Nat.min_eq_left hmoves.2,
      List.length_take_of_le (by have hwidth : riscVEncoder.width = 8 := rfl; omega)]

end Filter

namespace FilterDecompressor

open Iluvatar.Filter

/-- The RISC-V filter gives back what the encoder was given, in any cuts. -/
theorem riscV_round_trip (data : List Byte) (cuts : Nat → Nat × Nat) :
    EndsAs (asCall decompress) (riscVEncoder.convert 0 data) cuts (bcj .riscV)
      { outcome := none, consumed := data.length, output := data } :=
  positioned_round_trip (S := riscV) (E := riscVEncoder) (by decide) positional_state (fun _ _ => rfl) riscV_inverse data
    cuts

end FilterDecompressor
end Iluvatar
