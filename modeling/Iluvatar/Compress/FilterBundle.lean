/-
IA-64 bundles: sixteen bytes as one number, with a template and three slots of 41 bits.

A slot of a bundle is a field of that number.  The converter replaces one field at a time and
leaves the rest, so it is undone field by field.
-/
import Iluvatar.Compress.FilterWords

namespace Iluvatar

namespace Filter

/-! ## Fields -/

/-- The 41 bits from bit `p` on. -/
def field (p N : Nat) : Nat := N / 2 ^ p % 2 ^ 41

/-- `N` with `v` in those bits. -/
def putField (p v N : Nat) : Nat := N % 2 ^ p + 2 ^ p * (v + 2 ^ 41 * (N / 2 ^ (p + 41)))

theorem field_lt (p N : Nat) : field p N < 2 ^ 41 := Nat.mod_lt _ (Nat.two_pow_pos 41)

theorem putField_mod {p q v N : Nat} (h : q ≤ p) : putField p v N % 2 ^ q = N % 2 ^ q := by
  obtain ⟨d, rfl⟩ := Nat.exists_eq_add_of_le h
  rw [putField, Nat.pow_add, Nat.mul_assoc, Nat.add_mul_mod_self_left, Nat.mod_mul_right_mod]

theorem putField_div_low {p v N : Nat} : putField p v N / 2 ^ p = v + 2 ^ 41 * (N / 2 ^ (p + 41)) := by
  rw [putField, Nat.add_mul_div_left _ _ (Nat.two_pow_pos p), Nat.div_eq_of_lt (Nat.mod_lt _ (Nat.two_pow_pos p)),
    Nat.zero_add]

theorem field_putField {p v N : Nat} (hv : v < 2 ^ 41) : field p (putField p v N) = v := by
  rw [field, putField_div_low, Nat.add_mul_mod_self_left, Nat.mod_eq_of_lt hv]

/-- A field below is not touched. -/
theorem field_putField_above {p q v N : Nat} (h : q + 41 ≤ p) : field q (putField p v N) = field q N := by
  have hboth : ∀ M : Nat, M / 2 ^ q % 2 ^ 41 = M % 2 ^ (q + 41) / 2 ^ q := by
    intro M
    rw [Nat.pow_add, Nat.mod_mul_right_div_self]
  rw [field, field, hboth, hboth, putField_mod h]

/-- A field above is not touched. -/
theorem field_putField_below {p q v N : Nat} (hv : v < 2 ^ 41) (h : p + 41 ≤ q) :
    field q (putField p v N) = field q N := by
  obtain ⟨d, rfl⟩ := Nat.exists_eq_add_of_le h
  have hsame : putField p v N / 2 ^ (p + 41) = N / 2 ^ (p + 41) := by
    rw [Nat.pow_add, ← Nat.div_div_eq_div_mul, putField_div_low, Nat.add_mul_div_left _ _ (Nat.two_pow_pos 41),
      Nat.div_eq_of_lt hv, Nat.zero_add, Nat.pow_add]
  rw [field, field, Nat.pow_add 2 (p + 41) d, ← Nat.div_div_eq_div_mul, ← Nat.div_div_eq_div_mul, hsame]

/-- A bundle is its template and its slots. -/
theorem bundle_ext {M N : Nat} (hM : M < 2 ^ 128) (hN : N < 2 ^ 128) (htemplate : M % 2 ^ 5 = N % 2 ^ 5)
    (hfields : ∀ i < 3, field (5 + 41 * i) M = field (5 + 41 * i) N) : M = N := by
  have h0 := hfields 0 (by decide)
  have h1 := hfields 1 (by decide)
  have h2 := hfields 2 (by decide)
  have hmod : ∀ {p : Nat}, field p M = field p N → M % 2 ^ p = N % 2 ^ p → M % 2 ^ (p + 41) = N % 2 ^ (p + 41) := by
    intro p hfield hlow
    rw [Nat.pow_add, Nat.mod_mul, Nat.mod_mul, hlow]
    exact congrArg (N % 2 ^ p + 2 ^ p * ·) hfield
  have hall := hmod h2 (hmod h1 (hmod h0 htemplate))
  rwa [Nat.mod_eq_of_lt hM, Nat.mod_eq_of_lt hN] at hall

/-! ## Slots -/

/-- The address of a branch: 20 bits, and one apart from them. -/
def slotSrc (F : Nat) : Nat := F / 2 ^ 13 % 2 ^ 20 + F / 2 ^ 36 % 2 * 2 ^ 20

/-- A branch with another address. -/
def slotPut (d F : Nat) : Nat :=
  F % 2 ^ 13 + d % 2 ^ 20 * 2 ^ 13 + F / 2 ^ 33 % 8 * 2 ^ 33 + d / 2 ^ 20 % 2 * 2 ^ 36 + F / 2 ^ 37 * 2 ^ 37

def IsBranch (F : Nat) : Prop := F / 2 ^ 37 % 16 = 5 ∧ F / 2 ^ 9 % 8 = 0

instance (F : Nat) : Decidable (IsBranch F) := inferInstanceAs (Decidable (_ ∧ _))

def slotDest (address : UInt32 → UInt32 → UInt32) (pc : UInt32) (F : Nat) : Nat :=
  (address (UInt32.ofNat (slotSrc F * 16)) pc).toNat / 16

/-- What a slot becomes. -/
def slotConvert (address : UInt32 → UInt32 → UInt32) (pc : UInt32) (F : Nat) : Nat :=
  if IsBranch F then slotPut (slotDest address pc F) F else F

/-- The branch as the code rewrites it. -/
def slotWord (address : UInt32 → UInt32 → UInt32) (pc : UInt32) (instNorm : UInt64) : UInt64 :=
  let src : UInt32 := ((instNorm >>> 13) &&& 0xFFFFF).toUInt32
  let src : UInt32 := src ||| ((instNorm >>> 36) &&& 1).toUInt32 <<< 20
  let src : UInt32 := src <<< 4
  let dest : UInt32 := address src pc >>> 4
  let instNorm : UInt64 := instNorm &&& ~~~((0x8FFFFF : UInt64) <<< 13)
  let instNorm : UInt64 := instNorm ||| (dest &&& 0xFFFFF).toUInt64 <<< 13
  instNorm ||| (dest &&& 0x100000).toUInt64 <<< (36 - 20)

theorem slot_or {a d0 b d1 c : Nat} (ha : a < 2 ^ 13) (hd0 : d0 < 2 ^ 20) (hb : b < 8) (hd1 : d1 < 2) :
    a ||| b * 2 ^ 33 ||| c * 2 ^ 37 ||| d0 * 2 ^ 13 ||| d1 * 2 ^ 36 =
      a + d0 * 2 ^ 13 + b * 2 ^ 33 + d1 * 2 ^ 36 + c * 2 ^ 37 := by
  have hsort : a ||| b * 2 ^ 33 ||| c * 2 ^ 37 ||| d0 * 2 ^ 13 ||| d1 * 2 ^ 36 =
      c * 2 ^ 37 ||| d1 * 2 ^ 36 ||| b * 2 ^ 33 ||| d0 * 2 ^ 13 ||| a := by ac_rfl
  rw [hsort, or_below (a := c * 2 ^ 37) 37 (by omega) (by omega),
    or_below (a := c * 2 ^ 37 + d1 * 2 ^ 36) 36 (by omega) (by omega),
    or_below (a := c * 2 ^ 37 + d1 * 2 ^ 36 + b * 2 ^ 33) 33 (by omega) (by omega),
    or_below (a := c * 2 ^ 37 + d1 * 2 ^ 36 + b * 2 ^ 33 + d0 * 2 ^ 13) 13 (by omega) ha]
  omega

/-- The bits of an instruction that are no part of its address. -/
theorem slot_kept (x : UInt64) : (x &&& ~~~((0x8FFFFF : UInt64) <<< 13)).toNat =
    x.toNat % 2 ^ 13 ||| x.toNat / 2 ^ 33 % 8 * 2 ^ 33 ||| x.toNat / 2 ^ 37 * 2 ^ 37 := by
  have hx := x.toNat_lt
  have hmask : (~~~((0x8FFFFF : UInt64) <<< 13)).toNat = (2 ^ 13 - 1) ||| (2 ^ 3 - 1) <<< 33 ||| (2 ^ 27 - 1) <<< 37 := by
    decide
  rw [UInt64.toNat_and, hmask, Nat.and_or_distrib_left, Nat.and_or_distrib_left, and_shifted, and_shifted,
    Nat.and_two_pow_sub_one_eq_mod, Nat.and_two_pow_sub_one_eq_mod, Nat.and_two_pow_sub_one_eq_mod,
    Nat.shiftLeft_eq, Nat.shiftLeft_eq, Nat.shiftRight_eq_div_pow, Nat.shiftRight_eq_div_pow,
    Nat.mod_eq_of_lt (show x.toNat / 2 ^ 37 < 2 ^ 27 by omega)]

theorem slotSrc_ofNat {s : Nat} (h : s < 2 ^ 21) : (UInt32.ofNat (s * 16)).toNat = s * 16 := by
  rw [UInt32.toNat_ofNat']
  omega

theorem slotSrc_word (x : UInt64) :
    (((x >>> 13) &&& 0xFFFFF).toUInt32 ||| ((x >>> 36) &&& 1).toUInt32 <<< 20) <<< 4 =
      UInt32.ofNat (slotSrc x.toNat * 16) := by
  have hlow : ((x >>> 13) &&& 0xFFFFF).toUInt32.toNat = x.toNat / 2 ^ 13 % 2 ^ 20 := by
    have hshift : (x >>> 13).toNat = _ := shiftRight64_toNat x (n := 13) (by decide)
    rw [UInt64.toNat_toUInt32, UInt64.toNat_and, hshift]
    show (x.toNat / 2 ^ 13 &&& 2 ^ 20 - 1) % 2 ^ 32 = _
    rw [Nat.and_two_pow_sub_one_eq_mod]
    omega
  have hbit : ((x >>> 36) &&& 1).toUInt32.toNat = x.toNat / 2 ^ 36 % 2 := by
    have hshift : (x >>> 36).toNat = _ := shiftRight64_toNat x (n := 36) (by decide)
    rw [UInt64.toNat_toUInt32, UInt64.toNat_and, hshift]
    show (x.toNat / 2 ^ 36 &&& 2 ^ 1 - 1) % 2 ^ 32 = _
    rw [Nat.and_two_pow_sub_one_eq_mod]
    omega
  have hhigh : (((x >>> 36) &&& 1).toUInt32 <<< 20).toNat = _ :=
    shiftLeft_toNat ((x >>> 36) &&& 1).toUInt32 (n := 20) (by decide)
  rw [hbit, Nat.mod_eq_of_lt (by omega)] at hhigh
  have hsum : (((x >>> 13) &&& 0xFFFFF).toUInt32 ||| ((x >>> 36) &&& 1).toUInt32 <<< 20).toNat = slotSrc x.toNat := by
    rw [UInt32.toNat_or, hlow, hhigh, ← Nat.shiftLeft_eq, or_shiftLeft (Nat.mod_lt _ (Nat.two_pow_pos 20))]
    rfl
  have hlt : slotSrc x.toNat < 2 ^ 21 := by
    unfold slotSrc
    omega
  have hshift : ((((x >>> 13) &&& 0xFFFFF).toUInt32 ||| ((x >>> 36) &&& 1).toUInt32 <<< 20) <<< 4).toNat = _ :=
    shiftLeft_toNat (((x >>> 13) &&& 0xFFFFF).toUInt32 ||| ((x >>> 36) &&& 1).toUInt32 <<< 20) (n := 4) (by decide)
  refine UInt32.toNat_inj.mp (hshift.trans ?_)
  rw [hsum, slotSrc_ofNat hlt]
  omega

theorem slotWord_toNat (address : UInt32 → UInt32 → UInt32) (pc : UInt32) (x : UInt64) :
    (slotWord address pc x).toNat = slotPut (slotDest address pc x.toNat) x.toNat := by
  unfold slotWord slotDest
  simp only
  rw [slotSrc_word]
  have hdest : (address (UInt32.ofNat (slotSrc x.toNat * 16)) pc >>> 4).toNat =
      (address (UInt32.ofNat (slotSrc x.toNat * 16)) pc).toNat / 16 :=
    shiftRight_toNat (address (UInt32.ofNat (slotSrc x.toNat * 16)) pc) (n := 4) (by decide)
  rw [← hdest]
  generalize address (UInt32.ofNat (slotSrc x.toNat * 16)) pc >>> 4 = dest
  have hlow : (dest &&& 0xFFFFF).toUInt64.toNat = dest.toNat % 2 ^ 20 := by
    rw [UInt32.toNat_toUInt64, UInt32.toNat_and]
    exact Nat.and_two_pow_sub_one_eq_mod dest.toNat 20
  have hhigh : (dest &&& 0x100000).toUInt64.toNat = dest.toNat / 2 ^ 20 % 2 * 2 ^ 20 := by
    rw [UInt32.toNat_toUInt64, UInt32.toNat_and]
    show dest.toNat &&& (2 ^ 1 - 1) <<< 20 = _
    rw [and_shifted, Nat.and_two_pow_sub_one_eq_mod, Nat.shiftLeft_eq, Nat.shiftRight_eq_div_pow]
  have hlow' : ((dest &&& 0xFFFFF).toUInt64 <<< 13).toNat = _ :=
    shiftLeft64_toNat (dest &&& 0xFFFFF).toUInt64 (n := 13) (by decide) (by omega)
  have hhigh' : ((dest &&& 0x100000).toUInt64 <<< (36 - 20)).toNat = _ :=
    shiftLeft64_toNat (dest &&& 0x100000).toUInt64 (n := 16) (by decide) (by omega)
  rw [UInt64.toNat_or, UInt64.toNat_or, slot_kept, hlow', hhigh', hlow, hhigh, Nat.mul_assoc, ← Nat.pow_add,
    slot_or (Nat.mod_lt _ (Nat.two_pow_pos 13)) (Nat.mod_lt _ (Nat.two_pow_pos 20)) (Nat.mod_lt _ (by decide))
      (Nat.mod_lt _ (by decide)), slotPut]

theorem isBranch_word (x : UInt64) : (x >>> 37) &&& 0xF = 0x5 ∧ (x >>> 9) &&& 0x7 = 0 ↔ IsBranch x.toNat := by
  have hopcode : ((x >>> 37) &&& 0xF).toNat = x.toNat / 2 ^ 37 % 16 := by
    have hshift : (x >>> 37).toNat = _ := shiftRight64_toNat x (n := 37) (by decide)
    rw [UInt64.toNat_and, hshift]
    exact Nat.and_two_pow_sub_one_eq_mod _ 4
  have htype : ((x >>> 9) &&& 0x7).toNat = x.toNat / 2 ^ 9 % 8 := by
    have hshift : (x >>> 9).toNat = _ := shiftRight64_toNat x (n := 9) (by decide)
    rw [UInt64.toNat_and, hshift]
    exact Nat.and_two_pow_sub_one_eq_mod _ 3
  rw [← UInt64.toNat_inj, ← UInt64.toNat_inj, hopcode, htype]
  exact Iff.rfl

/-- A field that begins `r` bits into 48 of them. -/
theorem putField_bytes {q r A M C X v : Nat} (hA : A < 2 ^ (8 * q)) (hM : M < 2 ^ 48) (hr : r = 5 ∨ r = 6 ∨ r = 7)
    (hX : X = v + 2 ^ 41 * (M / 2 ^ r / 2 ^ 41)) :
    A + 2 ^ (8 * q) * (M % 2 ^ r + 2 ^ r * X + 2 ^ 48 * C) =
      putField (8 * q + r) v (A + 2 ^ (8 * q) * (M + 2 ^ 48 * C)) := by
  have hdiv : (A + 2 ^ (8 * q) * (M + 2 ^ 48 * C)) / 2 ^ (8 * q) = M + 2 ^ 48 * C := by
    rw [Nat.add_mul_div_left _ _ (Nat.two_pow_pos _), Nat.div_eq_of_lt hA, Nat.zero_add]
  have hmod : (A + 2 ^ (8 * q) * (M + 2 ^ 48 * C)) % 2 ^ (8 * q) = A := by
    rw [Nat.add_mul_mod_self_left, Nat.mod_eq_of_lt hA]
  rw [putField, Nat.add_assoc (8 * q) r 41, Nat.pow_add 2 (8 * q) (r + 41), ← Nat.div_div_eq_div_mul, hdiv, Nat.pow_add 2 (8 * q) r,
    Nat.mod_mul, hmod, hdiv, Nat.mul_assoc, Nat.add_assoc A, ← Nat.mul_add]
  refine congrArg (A + 2 ^ (8 * q) * ·) ?_
  rcases hr with rfl | rfl | rfl <;> omega

theorem field_bytes {q r A M C : Nat} (hA : A < 2 ^ (8 * q)) (hr : r = 5 ∨ r = 6 ∨ r = 7) :
    field (8 * q + r) (A + 2 ^ (8 * q) * (M + 2 ^ 48 * C)) = M / 2 ^ r % 2 ^ 41 := by
  rw [field, Nat.pow_add, ← Nat.div_div_eq_div_mul, Nat.add_mul_div_left _ _ (Nat.two_pow_pos _), Nat.div_eq_of_lt hA,
    Nat.zero_add]
  rcases hr with rfl | rfl | rfl <;> omega

/-- A slot is converted by its 41 bits; those past it stay. -/
theorem slotConvert_low (address : UInt32 → UInt32 → UInt32) (pc : UInt32) (X : Nat) :
    slotConvert address pc X = slotConvert address pc (X % 2 ^ 41) + 2 ^ 41 * (X / 2 ^ 41) := by
  have hbranch : IsBranch (X % 2 ^ 41) ↔ IsBranch X := by
    unfold IsBranch
    have hopcode : X % 2 ^ 41 / 2 ^ 37 % 16 = X / 2 ^ 37 % 16 := by omega
    have htype : X % 2 ^ 41 / 2 ^ 9 % 8 = X / 2 ^ 9 % 8 := by omega
    rw [hopcode, htype]
  have hsrc : slotSrc (X % 2 ^ 41) = slotSrc X := by
    unfold slotSrc
    have hlow : X % 2 ^ 41 / 2 ^ 13 % 2 ^ 20 = X / 2 ^ 13 % 2 ^ 20 := by omega
    have hbit : X % 2 ^ 41 / 2 ^ 36 % 2 = X / 2 ^ 36 % 2 := by omega
    rw [hlow, hbit]
  have hdest : slotDest address pc (X % 2 ^ 41) = slotDest address pc X := by rw [slotDest, slotDest, hsrc]
  unfold slotConvert
  by_cases h : IsBranch X
  · rw [if_pos h, if_pos (hbranch.mpr h), hdest]
    unfold slotPut
    have h13 : X % 2 ^ 41 % 2 ^ 13 = X % 2 ^ 13 := by omega
    have h33 : X % 2 ^ 41 / 2 ^ 33 % 8 = X / 2 ^ 33 % 8 := by omega
    rw [h13, h33]
    omega
  · rw [if_neg h, if_neg fun hlow => h (hbranch.mp hlow)]
    omega

/-- What is left of a branch when its address is replaced. -/
theorem slotPut_fields {F d : Nat} : slotPut d F % 2 ^ 13 = F % 2 ^ 13 ∧ slotPut d F / 2 ^ 33 % 8 = F / 2 ^ 33 % 8 ∧
    slotPut d F / 2 ^ 37 = F / 2 ^ 37 ∧ slotSrc (slotPut d F) = d % 2 ^ 21 := by
  have hlow : F % 2 ^ 13 < 2 ^ 13 := Nat.mod_lt _ (by decide)
  have hkept : F / 2 ^ 33 % 8 < 8 := Nat.mod_lt _ (by decide)
  have hd0 : d % 2 ^ 20 < 2 ^ 20 := Nat.mod_lt _ (by decide)
  have hd1 : d / 2 ^ 20 % 2 < 2 := Nat.mod_lt _ (by decide)
  have hd : d % 2 ^ 21 = d % 2 ^ 20 + d / 2 ^ 20 % 2 * 2 ^ 20 := by omega
  unfold slotSrc
  rw [hd]
  unfold slotPut
  generalize F % 2 ^ 13 = a at *
  generalize F / 2 ^ 33 % 8 = b at *
  generalize F / 2 ^ 37 = c at *
  generalize d % 2 ^ 20 = d0 at *
  generalize d / 2 ^ 20 % 2 = d1 at *
  have h13 : (a + d0 * 2 ^ 13 + b * 2 ^ 33 + d1 * 2 ^ 36 + c * 2 ^ 37) / 2 ^ 13 =
      (b + d1 * 2 ^ 3 + c * 2 ^ 4) * 2 ^ 20 + d0 := (Nat.div_eq_iff (by decide)).mpr (by omega)
  have h33 : (a + d0 * 2 ^ 13 + b * 2 ^ 33 + d1 * 2 ^ 36 + c * 2 ^ 37) / 2 ^ 33 = (d1 + c * 2) * 8 + b :=
    (Nat.div_eq_iff (by decide)).mpr (by omega)
  have h36 : (a + d0 * 2 ^ 13 + b * 2 ^ 33 + d1 * 2 ^ 36 + c * 2 ^ 37) / 2 ^ 36 = c * 2 + d1 :=
    (Nat.div_eq_iff (by decide)).mpr (by omega)
  have h37 : (a + d0 * 2 ^ 13 + b * 2 ^ 33 + d1 * 2 ^ 36 + c * 2 ^ 37) / 2 ^ 37 = c :=
    (Nat.div_eq_iff (by decide)).mpr (by omega)
  rw [h13, h33, h36, h37]
  exact ⟨by omega, by omega, rfl, by omega⟩

theorem slotPut_lt {F d : Nat} (h : F < 2 ^ 41) : slotPut d F < 2 ^ 41 := by
  have htop := (slotPut_fields (F := F) (d := d)).2.2.1
  omega

theorem slotConvert_lt (address : UInt32 → UInt32 → UInt32) (pc : UInt32) {F : Nat} (h : F < 2 ^ 41) :
    slotConvert address pc F < 2 ^ 41 := by
  unfold slotConvert
  split
  · exact slotPut_lt h
  · exact h

theorem slotPut_branch {F d : Nat} (h : IsBranch F) : IsBranch (slotPut d F) := by
  obtain ⟨hlow, _, htop, _⟩ := slotPut_fields (F := F) (d := d)
  obtain ⟨hopcode, htype⟩ := h
  refine ⟨by rw [htop, hopcode], ?_⟩
  omega

theorem slot_join (F : Nat) : F % 2 ^ 13 + F / 2 ^ 13 % 2 ^ 20 * 2 ^ 13 + F / 2 ^ 33 % 8 * 2 ^ 33 +
    F / 2 ^ 36 % 2 * 2 ^ 36 + F / 2 ^ 37 * 2 ^ 37 = F := by
  have h33 : F / 2 ^ 13 / 2 ^ 20 = F / 2 ^ 33 := by omega
  have h36 : F / 2 ^ 33 / 8 = F / 2 ^ 36 := by omega
  have h37 : F / 2 ^ 36 / 2 = F / 2 ^ 37 := by omega
  omega

/-- The address a branch had, put back. -/
theorem slotPut_back {F d d' : Nat} (h : d' % 2 ^ 21 = slotSrc F) : slotPut d' (slotPut d F) = F := by
  obtain ⟨hlow, hkept, htop, _⟩ := slotPut_fields (F := F) (d := d)
  have h0 : d' % 2 ^ 20 = F / 2 ^ 13 % 2 ^ 20 := by
    unfold slotSrc at h
    omega
  have h1 : d' / 2 ^ 20 % 2 = F / 2 ^ 36 % 2 := by
    unfold slotSrc at h
    omega
  rw [slotPut, hlow, hkept, htop, h0, h1]
  exact slot_join F

theorem slot_away {p s : Nat} (hp : p < 2 ^ 28) (hs : s < 2 ^ 21) :
    (2 ^ 32 - 16 * p + (s * 16 + 16 * p) % 2 ^ 32 / 16 % 2 ^ 21 * 16) % 2 ^ 32 / 16 % 2 ^ 21 = s := by
  have hfirst : (s * 16 + 16 * p) % 2 ^ 32 / 16 = (s + p) % 2 ^ 28 := by omega
  rw [hfirst]
  have hsecond : ∀ d, (2 ^ 32 - 16 * p + d * 16) % 2 ^ 32 / 16 = (2 ^ 28 - p + d) % 2 ^ 28 := by
    intro d
    omega
  rw [hsecond]
  omega

theorem slotSrc_lt (F : Nat) : slotSrc F < 2 ^ 21 := by
  unfold slotSrc
  omega

theorem slotConvert_inverse {pc : UInt32} (hpc : pc.toNat % 16 = 0) (F : Nat) :
    slotConvert (· - ·) pc (slotConvert (· + ·) pc F) = F := by
  by_cases h : IsBranch F
  · have hencoded : slotConvert (· + ·) pc F = slotPut (slotDest (· + ·) pc F) F := if_pos h
    have hpcLt := pc.toNat_lt
    have hsrc := (slotPut_fields (F := F) (d := slotDest (· + ·) pc F)).2.2.2
    have hdecoded : slotConvert (· - ·) pc (slotPut (slotDest (· + ·) pc F) F) = _ := if_pos (slotPut_branch h)
    rw [hencoded, hdecoded]
    refine slotPut_back ?_
    obtain ⟨p, hp⟩ : ∃ p, pc.toNat = 16 * p := ⟨pc.toNat / 16, by omega⟩
    have hdest : slotDest (· + ·) pc F = (slotSrc F * 16 + 16 * p) % 2 ^ 32 / 16 := by
      rw [slotDest, UInt32.toNat_add, slotSrc_ofNat (slotSrc_lt F), hp]
    rw [slotDest, hsrc, UInt32.toNat_sub, slotSrc_ofNat (Nat.mod_lt _ (by decide)), hp, hdest]
    exact slot_away (by omega) (slotSrc_lt F)
  · have hplain : ∀ address, slotConvert address pc F = F := fun _ => if_neg h
    rw [hplain, hplain]

/-! ## Bundles -/

theorem low_mask {r : Nat} (hr : r = 5 ∨ r = 6 ∨ r = 7) (x : UInt64) :
    (x &&& ((1 <<< UInt64.ofNat r) - 1)).toNat = x.toNat % 2 ^ r := by
  have hmask : ((1 <<< UInt64.ofNat r) - 1 : UInt64).toNat = 2 ^ r - 1 := by
    rcases hr with rfl | rfl | rfl <;> decide
  rw [UInt64.toNat_and, hmask, Nat.and_two_pow_sub_one_eq_mod]

/-- A slot is converted in its place. -/
theorem ia64Slot_value (address : UInt32 → UInt32 → UInt32) (pc : UInt32) {bitPos q r : Nat} (hq : bitPos >>> 3 = q)
    (hr : bitPos &&& 7 = r) (hpos : bitPos = 8 * q + r) (hres : r = 5 ∨ r = 6 ∨ r = 7) (hfit : q + 6 ≤ 16)
    {w : List Byte} (h : w.length = 16) : littleEndian (ia64Slot address pc bitPos w) =
      putField bitPos (slotConvert address pc (field bitPos (littleEndian w))) (littleEndian w) := by
  have ha : (w.take q).length = q := List.length_take_of_le (by omega)
  have hm : ((w.drop q).take 6).length = 6 := List.length_take_of_le (by
    rw [List.length_drop]
    omega)
  have hw : w = w.take q ++ ((w.drop q).take 6 ++ w.drop (q + 6)) := by
    rw [← List.drop_drop, List.take_append_drop, List.take_append_drop]
  have hvalue : ∀ m : List Byte, m.length = 6 → littleEndian (w.take q ++ (m ++ w.drop (q + 6))) =
      littleEndian (w.take q) + 2 ^ (8 * q) * (littleEndian m + 2 ^ 48 * littleEndian (w.drop (q + 6))) := by
    intro m hm
    rw [littleEndian_append, littleEndian_append, ha, hm]
  have hA := littleEndian_lt (w.take q)
  have hM := littleEndian_lt ((w.drop q).take 6)
  have hwhole := hvalue _ hm
  rw [← hw] at hwhole
  rw [ha] at hA
  rw [hm] at hM
  generalize hload : (w.drop q).take 6 = m at *
  have hword : (loadLe m).toNat = littleEndian m := loadLe_toNat (by omega)
  have hrlt : r < 64 := by omega
  have hnorm := shiftRight64_toNat (loadLe m) hrlt
  rw [hword] at hnorm
  have hlow := slotConvert_low address pc (littleEndian m / 2 ^ r)
  have hconverted : slotConvert address pc (littleEndian m / 2 ^ r % 2 ^ 41) < 2 ^ 41 :=
    slotConvert_lt address pc (Nat.mod_lt _ (Nat.two_pow_pos 41))
  have hunfold : ia64Slot address pc bitPos w =
      if (loadLe m >>> UInt64.ofNat r >>> 37) &&& 0xF = 0x5 ∧ (loadLe m >>> UInt64.ofNat r >>> 9) &&& 0x7 = 0 then
        w.take q ++ storeLe 6 ((loadLe m &&& ((1 <<< UInt64.ofNat r) - 1)) |||
          slotWord address pc (loadLe m >>> UInt64.ofNat r) <<< UInt64.ofNat r) ++ w.drop (q + 6)
      else w := by
    unfold ia64Slot
    simp only [hq, hr]
    rw [hload]
    rfl
  rw [hunfold, hwhole, hpos, field_bytes hA hres]
  by_cases hbranch : IsBranch (littleEndian m / 2 ^ r)
  · have hplaced : slotConvert address pc (littleEndian m / 2 ^ r) =
        (slotWord address pc (loadLe m >>> UInt64.ofNat r)).toNat := by
      rw [slotWord_toNat, hnorm]
      exact if_pos hbranch
    rw [← hnorm] at hbranch
    rw [if_pos ((isBranch_word _).mpr hbranch), List.append_assoc, hvalue _ (storeLe_length 6 _), storeLe_value]
    have hsmall : slotConvert address pc (littleEndian m / 2 ^ r) * 2 ^ r + littleEndian m % 2 ^ r < 2 ^ 48 := by
      rcases hres with rfl | rfl | rfl <;> omega
    have hmodlt : littleEndian m % 2 ^ r < 2 ^ r := Nat.mod_lt _ (Nat.two_pow_pos r)
    have hshifted := shiftLeft64_toNat (slotWord address pc (loadLe m >>> UInt64.ofNat r)) hrlt (by
      rw [← hplaced]
      omega)
    have hjoined : ((loadLe m &&& ((1 <<< UInt64.ofNat r) - 1)) |||
        slotWord address pc (loadLe m >>> UInt64.ofNat r) <<< UInt64.ofNat r).toNat % 2 ^ (8 * 6) =
          littleEndian m % 2 ^ r + 2 ^ r * slotConvert address pc (littleEndian m / 2 ^ r) := by
      rw [UInt64.toNat_or, low_mask hres, hword, hshifted, ← hplaced, ← Nat.shiftLeft_eq, or_shiftLeft hmodlt,
        Nat.mul_comm (2 ^ r)]
      exact Nat.mod_eq_of_lt (by omega)
    rw [hjoined]
    exact putField_bytes hA hM hres hlow
  · have hplain : slotConvert address pc (littleEndian m / 2 ^ r) = littleEndian m / 2 ^ r := if_neg hbranch
    rw [← hnorm] at hbranch
    rw [if_neg fun hmatch => hbranch ((isBranch_word _).mp hmatch), hwhole]
    rw [hplain] at hlow
    rw [← putField_bytes hA hM hres hlow, Nat.mod_add_div]

theorem ia64Slot_fields (address : UInt32 → UInt32 → UInt32) (pc : UInt32) {i : Nat} (hi : i < 3) {w : List Byte}
    (h : w.length = 16) : littleEndian (ia64Slot address pc (5 + 41 * i) w) =
      putField (5 + 41 * i) (slotConvert address pc (field (5 + 41 * i) (littleEndian w))) (littleEndian w) := by
  match i, hi with
  | 0, _ => exact ia64Slot_value address pc (q := 0) (r := 5) rfl rfl rfl (.inl rfl) (by decide) h
  | 1, _ => exact ia64Slot_value address pc (q := 5) (r := 6) rfl rfl rfl (.inr (.inl rfl)) (by decide) h
  | 2, _ => exact ia64Slot_value address pc (q := 10) (r := 7) rfl rfl rfl (.inr (.inr rfl)) (by decide) h

/-- The slots that a template opens. -/
def opens (w : List Byte) (i : Nat) : Prop :=
  (branchTable.getD ((w.headD 0 &&& 0x1F).toNat) 0 >>> UInt32.ofNat i) &&& 1 ≠ 0

instance (w : List Byte) (i : Nat) : Decidable (opens w i) := inferInstanceAs (Decidable (_ ≠ _))

theorem opens_congr {w w' : List Byte} (h : w.length = 16) (h' : w'.length = 16)
    (hsame : littleEndian w % 2 ^ 5 = littleEndian w' % 2 ^ 5) (i : Nat) : opens w i ↔ opens w' i := by
  have htemplate : ∀ {w : List Byte}, w.length = 16 → (w.headD 0 &&& 0x1F).toNat = littleEndian w % 2 ^ 5 := by
    intro w h
    match w, h with
    | b :: bs, _ =>
      show (b &&& 0x1F).toNat = (b.toNat + 2 ^ 8 * littleEndian bs) % 2 ^ 5
      rw [UInt8.toNat_and]
      show b.toNat &&& 2 ^ 5 - 1 = _
      rw [Nat.and_two_pow_sub_one_eq_mod]
      omega
  unfold opens
  rw [htemplate h, htemplate h', hsame]

/-- What a bundle becomes, slot by slot. -/
structure Converted (address : UInt32 → UInt32 → UInt32) (pc : UInt32) (w w' : List Byte) (n : Nat) : Prop where
  length : w'.length = 16
  template : littleEndian w' % 2 ^ 5 = littleEndian w % 2 ^ 5
  slots : ∀ j < 3, field (5 + 41 * j) (littleEndian w') =
    if j < n ∧ opens w j then slotConvert address pc (field (5 + 41 * j) (littleEndian w))
    else field (5 + 41 * j) (littleEndian w)

theorem Converted.step {address : UInt32 → UInt32 → UInt32} {pc : UInt32} {w w' : List Byte} {n : Nat}
    (hn : n < 3) (h : Converted address pc w w' n) :
    Converted address pc w (if opens w n then ia64Slot address pc (5 + 41 * n) w' else w') (n + 1) := by
  by_cases hopen : opens w n
  · rw [if_pos hopen]
    have hvalue := ia64Slot_fields address pc hn h.length
    refine ⟨ia64Slot_length address pc (ia64_slots hn) h.length, ?_, fun j hj => ?_⟩
    · rw [hvalue, putField_mod (Nat.le_add_right 5 _)]
      exact h.template
    · have hslot := h.slots j hj
      have hconverted := slotConvert_lt address pc (field_lt (5 + 41 * n) (littleEndian w'))
      rw [hvalue]
      rcases Nat.lt_trichotomy j n with hless | rfl | hmore
      · rw [field_putField_above (by omega), hslot]
        by_cases hjopen : opens w j
        · rw [if_pos ⟨hless, hjopen⟩, if_pos ⟨Nat.lt_succ_of_lt hless, hjopen⟩]
        · rw [if_neg fun hboth => hjopen hboth.2, if_neg fun hboth => hjopen hboth.2]
      · rw [field_putField hconverted, hslot, if_neg fun hboth => Nat.lt_irrefl _ hboth.1,
          if_pos ⟨Nat.lt_succ_self _, hopen⟩]
      · rw [field_putField_below hconverted (by omega), hslot, if_neg fun hboth => by omega,
          if_neg fun hboth => by omega]
  · rw [if_neg hopen]
    refine ⟨h.length, h.template, fun j hj => ?_⟩
    rw [h.slots j hj]
    by_cases hjopen : opens w j
    · have hne : j ≠ n := fun hsame => hopen (hsame ▸ hjopen)
      by_cases hless : j < n
      · rw [if_pos ⟨hless, hjopen⟩, if_pos ⟨Nat.lt_succ_of_lt hless, hjopen⟩]
      · rw [if_neg fun hboth => hless hboth.1, if_neg fun hboth => by omega]
    · rw [if_neg fun hboth => hjopen hboth.2, if_neg fun hboth => hjopen hboth.2]

theorem ia64Bundle_converted (address : UInt32 → UInt32 → UInt32) (pc : UInt32) {w : List Byte} (h : w.length = 16) :
    Converted address pc w (ia64Bundle address pc w) 3 := by
  have hbegin : Converted address pc w w 0 :=
    ⟨h, rfl, fun j _ => (if_neg fun hboth => Nat.not_lt_zero j hboth.1).symm⟩
  exact ((hbegin.step (by decide)).step (by decide)).step (by decide)

/-- A bundle is undone slot by slot. -/
theorem ia64Bundle_inverse {pc : UInt32} (hpc : pc.toNat % 16 = 0) {w : List Byte} (h : w.length = 16) :
    ia64Bundle (· - ·) pc (ia64Bundle (· + ·) pc w) = w := by
  have hencoded := ia64Bundle_converted (· + ·) pc h
  have hdecoded := ia64Bundle_converted (· - ·) pc hencoded.length
  have hlt : ∀ {w : List Byte}, w.length = 16 → littleEndian w < 2 ^ 128 := by
    intro w h
    have hvalue := littleEndian_lt w
    rwa [h] at hvalue
  refine littleEndian_inj (hdecoded.length.trans h.symm) (bundle_ext (hlt hdecoded.length) (hlt h)
    (hdecoded.template.trans hencoded.template) fun j hj => ?_)
  have hopens := opens_congr hencoded.length h hencoded.template j
  rw [hdecoded.slots j hj, hencoded.slots j hj]
  by_cases hopen : opens w j
  · rw [if_pos ⟨hj, hopens.mpr hopen⟩, if_pos ⟨hj, hopen⟩, slotConvert_inverse hpc]
  · rw [if_neg fun hboth => hopen (hopens.mp hboth.2), if_neg fun hboth => hopen hboth.2]

end Filter
end Iluvatar
