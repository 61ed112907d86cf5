/-
Words and the bytes they are made of.
-/
import Iluvatar.Compress.Filter
import Iluvatar.Zstd.Bits

namespace Iluvatar

namespace Filter

/-- A byte of a word, the lowest first. -/
def byteAt (x : UInt32) (i : Nat) : Byte := (x >>> UInt32.ofNat (8 * i)).toUInt8

theorem byteAt_toNat (x : UInt32) {i : Nat} (hi : i ≤ 3) : (byteAt x i).toNat = x.toNat / 2 ^ (8 * i) % 256 := by
  have hshift : (UInt32.ofNat (8 * i)).toNat % 32 = 8 * i := by
    rw [UInt32.toNat_ofNat']
    omega
  unfold byteAt
  rw [UInt32.toNat_toUInt8, UInt32.toNat_shiftRight, hshift, Nat.shiftRight_eq_div_pow]

/-- Bits over bits that are all below them. -/
theorem or_shiftLeft {a n : Nat} (h : a < 2 ^ n) (b : Nat) : a ||| b <<< n = a + b * 2 ^ n := by
  rw [Nat.or_comm, ← Nat.shiftLeft_add_eq_or_of_lt h, Nat.shiftLeft_eq, Nat.add_comm]

/-- A byte at its place in a word. -/
theorem byte_shifted (b : Byte) {n : Nat} (h : n ≤ 24) :
    (b.toUInt32 <<< UInt32.ofNat n).toNat = b.toNat <<< n := by
  have hb := b.toNat_lt
  have hshift : (UInt32.ofNat n).toNat % 32 = n := by
    rw [UInt32.toNat_ofNat']
    omega
  have hpow : 2 ^ n ≤ 2 ^ 24 := Nat.pow_le_pow_right (by decide) h
  rw [UInt32.toNat_shiftLeft, hshift, UInt8.toNat_toUInt32]
  refine Nat.mod_eq_of_lt ?_
  rw [Nat.shiftLeft_eq]
  calc b.toNat * 2 ^ n ≤ 255 * 2 ^ 24 := Nat.mul_le_mul (by omega) hpow
    _ < 2 ^ 32 := by decide

theorem load32Le_toNat (b0 b1 b2 b3 : Byte) : (load32Le [b0, b1, b2, b3]).toNat =
    b0.toNat + b1.toNat * 2 ^ 8 + b2.toNat * 2 ^ 16 + b3.toNat * 2 ^ 24 := by
  have h0 := b0.toNat_lt
  have h1 := b1.toNat_lt
  have h2 := b2.toNat_lt
  show (b0.toUInt32 ||| b1.toUInt32 <<< UInt32.ofNat 8 ||| b2.toUInt32 <<< UInt32.ofNat 16 |||
    b3.toUInt32 <<< UInt32.ofNat 24).toNat = _
  rw [UInt32.toNat_or, UInt32.toNat_or, UInt32.toNat_or, byte_shifted _ (by decide), byte_shifted _ (by decide),
    byte_shifted _ (by decide), UInt8.toNat_toUInt32, or_shiftLeft (show b0.toNat < 2 ^ 8 by omega),
    or_shiftLeft (show b0.toNat + b1.toNat * 2 ^ 8 < 2 ^ 16 by omega),
    or_shiftLeft (show b0.toNat + b1.toNat * 2 ^ 8 + b2.toNat * 2 ^ 16 < 2 ^ 24 by omega)]

theorem store32Le_eq (x : UInt32) : store32Le x = [byteAt x 0, byteAt x 1, byteAt x 2, byteAt x 3] := by
  have hzero : byteAt x 0 = x.toUInt8 := by
    refine UInt8.toNat_inj.mp ?_
    rw [byteAt_toNat x (by decide), UInt32.toNat_toUInt8, Nat.mul_zero, Nat.pow_zero, Nat.div_one]
  rw [hzero]
  rfl

/-- The bytes of a word loaded are the bytes it was loaded from. -/
theorem byteAt_load (b0 b1 b2 b3 : Byte) : byteAt (load32Le [b0, b1, b2, b3]) 0 = b0 ∧
    byteAt (load32Le [b0, b1, b2, b3]) 1 = b1 ∧ byteAt (load32Le [b0, b1, b2, b3]) 2 = b2 ∧
    byteAt (load32Le [b0, b1, b2, b3]) 3 = b3 := by
  have h0 := b0.toNat_lt
  have h1 := b1.toNat_lt
  have h2 := b2.toNat_lt
  have h3 := b3.toNat_lt
  refine ⟨UInt8.toNat_inj.mp ?_, UInt8.toNat_inj.mp ?_, UInt8.toNat_inj.mp ?_, UInt8.toNat_inj.mp ?_⟩
  · rw [byteAt_toNat _ (by decide), load32Le_toNat]
    omega
  · rw [byteAt_toNat _ (by decide), load32Le_toNat]
    omega
  · rw [byteAt_toNat _ (by decide), load32Le_toNat]
    omega
  · rw [byteAt_toNat _ (by decide), load32Le_toNat]
    omega

theorem store_load (b0 b1 b2 b3 : Byte) : store32Le (load32Le [b0, b1, b2, b3]) = [b0, b1, b2, b3] := by
  obtain ⟨h0, h1, h2, h3⟩ := byteAt_load b0 b1 b2 b3
  rw [store32Le_eq, h0, h1, h2, h3]

theorem load_store (x : UInt32) : load32Le (store32Le x) = x := by
  have hx := x.toNat_lt
  refine UInt32.toNat_inj.mp ?_
  rw [store32Le_eq, load32Le_toNat, byteAt_toNat x (by decide), byteAt_toNat x (by decide),
    byteAt_toNat x (by decide), byteAt_toNat x (by decide)]
  omega

/-- Bits below bits. -/
theorem or_below {a b : Nat} (n : Nat) (ha : a % 2 ^ n = 0) (hb : b < 2 ^ n) : a ||| b = a + b := by
  have hsplit : a = 2 ^ n * (a / 2 ^ n) := by
    have := Nat.div_add_mod a (2 ^ n)
    omega
  rw [hsplit, Nat.two_pow_add_eq_or_of_lt hb]

/-- Bits in the middle of a number. -/
theorem and_shifted (x m n : Nat) : x &&& m <<< n = ((x >>> n) &&& m) <<< n := by
  refine Nat.eq_of_testBit_eq fun i => ?_
  rw [Nat.testBit_and, Nat.testBit_shiftLeft, Nat.testBit_shiftLeft, Nat.testBit_and, Nat.testBit_shiftRight]
  by_cases hi : n ≤ i
  · rw [Nat.add_sub_cancel' hi]
    simp [hi]
  · simp [hi]

/-- A field of a number, under a mask. -/
theorem and_field (x n k : Nat) : x &&& (2 ^ n - 1) <<< k = x / 2 ^ k % 2 ^ n * 2 ^ k := by
  rw [and_shifted, Nat.and_two_pow_sub_one_eq_mod, Nat.shiftLeft_eq, Nat.shiftRight_eq_div_pow]

theorem shiftRight_toNat (x : UInt32) {n : Nat} (h : n < 32) : (x >>> UInt32.ofNat n).toNat = x.toNat / 2 ^ n := by
  have hshift : (UInt32.ofNat n).toNat % 32 = n := by
    rw [UInt32.toNat_ofNat']
    omega
  rw [UInt32.toNat_shiftRight, hshift, Nat.shiftRight_eq_div_pow]

theorem shiftLeft_toNat (x : UInt32) {n : Nat} (h : n < 32) :
    (x <<< UInt32.ofNat n).toNat = x.toNat * 2 ^ n % 2 ^ 32 := by
  have hshift : (UInt32.ofNat n).toNat % 32 = n := by
    rw [UInt32.toNat_ofNat']
    omega
  rw [UInt32.toNat_shiftLeft, hshift, Nat.shiftLeft_eq]

theorem low_toNat (x : UInt32) : x.toUInt8.toNat = x.toNat % 256 := UInt32.toNat_toUInt8 x

theorem shifted_low_toNat (x : UInt32) {n : Nat} (h : n < 32) :
    (x >>> UInt32.ofNat n).toUInt8.toNat = x.toNat / 2 ^ n % 256 := by
  rw [low_toNat, shiftRight_toNat x h]

/-- The four bytes of a word, the highest first. -/
def beWord (b0 b1 b2 b3 : Byte) : Nat := b0.toNat * 2 ^ 24 + b1.toNat * 2 ^ 16 + b2.toNat * 2 ^ 8 + b3.toNat

theorem beSrc_toNat (b0 b1 b2 b3 : Byte) : (b0.toUInt32 <<< 24 ||| b1.toUInt32 <<< 16 ||| b2.toUInt32 <<< 8 |||
    b3.toUInt32).toNat = beWord b0 b1 b2 b3 := by
  have h1 := b1.toNat_lt
  have h2 := b2.toNat_lt
  have h3 := b3.toNat_lt
  show (b0.toUInt32 <<< UInt32.ofNat 24 ||| b1.toUInt32 <<< UInt32.ofNat 16 |||
    b2.toUInt32 <<< UInt32.ofNat 8 ||| b3.toUInt32).toNat = _
  rw [UInt32.toNat_or, UInt32.toNat_or, UInt32.toNat_or, byte_shifted _ (by decide),
    byte_shifted _ (by decide), byte_shifted _ (by decide), UInt8.toNat_toUInt32, Nat.shiftLeft_eq,
    Nat.shiftLeft_eq, Nat.shiftLeft_eq, or_below (a := b0.toNat * 2 ^ 24) 24 (by omega) (by omega),
    or_below (a := b0.toNat * 2 ^ 24 + b1.toNat * 2 ^ 16) 16 (by omega) (by omega),
    or_below (a := b0.toNat * 2 ^ 24 + b1.toNat * 2 ^ 16 + b2.toNat * 2 ^ 8) 8 (by omega) (by omega)]
  rfl

theorem beWord_bytes (word : UInt32) :
    beWord (word >>> 24).toUInt8 (word >>> 16).toUInt8 (word >>> 8).toUInt8 word.toUInt8 = word.toNat := by
  have hword := word.toNat_lt
  have h0 : (word >>> 24).toUInt8.toNat = _ := shifted_low_toNat word (n := 24) (by decide)
  have h1 : (word >>> 16).toUInt8.toNat = _ := shifted_low_toNat word (n := 16) (by decide)
  have h2 : (word >>> 8).toUInt8.toNat = _ := shifted_low_toNat word (n := 8) (by decide)
  rw [beWord, h0, h1, h2, low_toNat]
  omega

theorem load_store_be (x : UInt32) : load32Be (store32Be x) = x :=
  UInt32.toNat_inj.mp ((beSrc_toNat _ _ _ _).trans (beWord_bytes x))

theorem four_of_long {data : List Byte} (h : 4 ≤ data.length) : ∃ b0 b1 b2 b3 rest, data = b0 :: b1 :: b2 :: b3 :: rest := by
  match data, h with
  | b0 :: b1 :: b2 :: b3 :: rest, _ => exact ⟨b0, b1, b2, b3, rest, rfl⟩

/-! ## Bytes as numbers, up to eight -/

theorem littleEndian_lt (bs : List Byte) : littleEndian bs < 2 ^ (8 * bs.length) := by
  induction bs with
  | nil => exact Nat.one_pos
  | cons b bs ih =>
    have hb := b.toNat_lt
    rw [littleEndian, List.length_cons, Nat.mul_succ, Nat.pow_add]
    omega

theorem littleEndian_append (as bs : List Byte) :
    littleEndian (as ++ bs) = littleEndian as + 2 ^ (8 * as.length) * littleEndian bs := by
  induction as with
  | nil =>
    show littleEndian bs = 0 + 2 ^ 0 * littleEndian bs
    omega
  | cons a as ih =>
    rw [List.cons_append, littleEndian, littleEndian, ih, List.length_cons, Nat.mul_succ, Nat.pow_add, Nat.mul_add,
      ← Nat.mul_assoc, Nat.mul_comm (2 ^ (8 * as.length)) (2 ^ 8)]
    omega

theorem littleEndian_inj : ∀ {as bs : List Byte}, as.length = bs.length → littleEndian as = littleEndian bs → as = bs
  | [], [], _, _ => rfl
  | a :: as, b :: bs, hlength, h => by
    have ha := a.toNat_lt
    have hb := b.toNat_lt
    rw [littleEndian, littleEndian] at h
    have hhead : a = b := UInt8.toNat_inj.mp (by omega)
    rw [hhead, littleEndian_inj (Nat.succ.inj hlength) (by omega)]

theorem shiftRight64_toNat (x : UInt64) {n : Nat} (h : n < 64) : (x >>> UInt64.ofNat n).toNat = x.toNat / 2 ^ n := by
  have hshift : (UInt64.ofNat n).toNat % 64 = n := by
    rw [UInt64.toNat_ofNat']
    omega
  rw [UInt64.toNat_shiftRight, hshift, Nat.shiftRight_eq_div_pow]

theorem shiftLeft64_toNat (x : UInt64) {n : Nat} (h : n < 64) (hfits : x.toNat * 2 ^ n < 2 ^ 64) :
    (x <<< UInt64.ofNat n).toNat = x.toNat * 2 ^ n := by
  have hshift : (UInt64.ofNat n).toNat % 64 = n := by
    rw [UInt64.toNat_ofNat']
    omega
  rw [UInt64.toNat_shiftLeft, hshift, Nat.shiftLeft_eq, Nat.mod_eq_of_lt hfits]

theorem loadLe_toNat : ∀ {bs : List Byte}, bs.length ≤ 8 → (loadLe bs).toNat = littleEndian bs
  | [], _ => rfl
  | b :: bs, h => by
    have hb := b.toNat_lt
    have hrest := littleEndian_lt bs
    have hpow : 2 ^ (8 * bs.length) ≤ 2 ^ 56 := Nat.pow_le_pow_right (by decide) (by
      rw [List.length_cons] at h
      omega)
    have hload := loadLe_toNat (Nat.le_of_succ_le h)
    have hshift : (loadLe bs <<< 8).toNat = _ := shiftLeft64_toNat (loadLe bs) (n := 8) (by decide) (by omega)
    rw [loadLe, UInt64.toNat_or, UInt8.toNat_toUInt64, hshift, hload, ← Nat.shiftLeft_eq,
      or_shiftLeft (show b.toNat < 2 ^ 8 by omega), littleEndian, Nat.mul_comm]

theorem storeLe_value (n : Nat) (x : UInt64) : littleEndian (storeLe n x) = x.toNat % 2 ^ (8 * n) := by
  induction n generalizing x with
  | zero =>
    rw [Nat.mul_zero, Nat.pow_zero, Nat.mod_one]
    rfl
  | succ n ih =>
    have hshift : (x >>> 8).toNat = _ := shiftRight64_toNat x (n := 8) (by decide)
    rw [storeLe, littleEndian, ih, hshift, UInt64.toNat_toUInt8, Nat.mul_succ, Nat.add_comm (8 * n), Nat.pow_add,
      Nat.mod_mul]

end Filter
end Iluvatar
