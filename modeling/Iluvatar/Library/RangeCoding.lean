/-
Range coding: nested intervals, and digits with a carry held back.

An encoder narrows an interval of numbers and scales it by a digit when it has become small; the
number it writes lies in every one of them.  It writes a digit only once no carry can reach it:
a last digit is held back, with the digits 255 that follow it.
-/
import Mathlib.Data.Nat.Init
import Mathlib.Tactic.Ring

namespace RangeCoding

/-! ## Numbers by their digits -/

/-- The number that digits stand for, the high end first. -/
def value (ds : List UInt8) : Nat := ds.foldl (fun v d => v * 256 + d.toNat) 0

theorem value_foldl (ds : List UInt8) (v : Nat) :
    ds.foldl (fun v d => v * 256 + d.toNat) v = v * 256 ^ ds.length + value ds := by
  induction ds generalizing v with
  | nil => simp [value]
  | cons d ds ih =>
    rw [value, List.foldl_cons, List.foldl_cons, ih, ih, List.length_cons, Nat.pow_succ]
    ring

theorem value_append (as bs : List UInt8) : value (as ++ bs) = value as * 256 ^ bs.length + value bs := by
  rw [value, List.foldl_append]
  exact value_foldl bs _

theorem value_cons (d : UInt8) (ds : List UInt8) : value (d :: ds) = d.toNat * 256 ^ ds.length + value ds := by
  rw [value, List.foldl_cons, value_foldl, Nat.zero_mul, Nat.zero_add]

theorem value_lt (ds : List UInt8) : value ds < 256 ^ ds.length := by
  induction ds with
  | nil => exact Nat.one_pos
  | cons d ds ih =>
    have hd := d.toNat_lt
    rw [value_cons, List.length_cons, Nat.pow_succ, Nat.mul_comm _ 256]
    have hmul := Nat.mul_le_mul_right (256 ^ ds.length) (show d.toNat + 1 ≤ 256 by omega)
    rw [Nat.add_mul, Nat.one_mul] at hmul
    omega

theorem value_take (ds : List UInt8) (m : Nat) :
    value (ds.take m) = value ds / 256 ^ (ds.length - m) := by
  have hsplit := value_append (ds.take m) (ds.drop m)
  have hrest := value_lt (ds.drop m)
  rw [List.take_append_drop, List.length_drop] at hsplit
  rw [List.length_drop] at hrest
  rw [hsplit, Nat.mul_comm, Nat.mul_add_div (Nat.pow_pos (by decide)), Nat.div_eq_of_lt hrest, Nat.add_zero]

theorem value_next {ds : List UInt8} {m : Nat} {d : UInt8} (h : ds[m]? = some d) :
    value (ds.take (m + 1)) = value (ds.take m) * 256 + d.toNat := by
  rw [List.take_add_one, h, value_append]
  show _ * 256 + (0 * 256 + d.toNat) = _
  omega

theorem value_full (n : Nat) : value (List.replicate n 255) + 1 = 256 ^ n := by
  induction n with
  | zero => rfl
  | succ n ih =>
    rw [List.replicate_succ, value_cons, List.length_replicate, Nat.pow_succ]
    show 255 * 256 ^ n + _ + 1 = _
    omega

theorem value_zero (n : Nat) : value (List.replicate n 0) = 0 := by
  induction n with
  | zero => rfl
  | succ n ih =>
    rw [List.replicate_succ, value_cons, ih]
    show 0 * _ + 0 = 0
    omega

/-! ## Intervals -/

/-- With `m` digits known, the number lies in the interval from `low` on, `range` wide. -/
structure Within (ds : List UInt8) (m low range : Nat) : Prop where
  known : m ≤ ds.length
  lower : low * 256 ^ (ds.length - m) ≤ value ds
  upper : value ds < (low + range) * 256 ^ (ds.length - m)

variable {ds : List UInt8} {m low range : Nat}

/-- The digits known lie in the interval. -/
theorem Within.digits (h : Within ds m low range) : low ≤ value (ds.take m) ∧ value (ds.take m) < low + range := by
  have hpos : 0 < 256 ^ (ds.length - m) := Nat.pow_pos (by decide)
  rw [value_take]
  exact ⟨(Nat.le_div_iff_mul_le hpos).mpr h.lower, (Nat.div_lt_iff_lt_mul hpos).mpr h.upper⟩

/-- An interval within another. -/
theorem Within.widen {low' range' : Nat} (h : Within ds m low' range') (hlow : low ≤ low')
    (hhigh : low' + range' ≤ low + range) : Within ds m low range :=
  ⟨h.known, Nat.le_trans (Nat.mul_le_mul_right _ hlow) h.lower,
    Nat.lt_of_lt_of_le h.upper (Nat.mul_le_mul_right _ hhigh)⟩

/-- An interval before it is scaled. -/
theorem Within.unscale (h : Within ds (m + 1) (low * 256) (range * 256)) : Within ds m low range := by
  have hknown := h.known
  have hpow : 256 ^ (ds.length - m) = 256 * 256 ^ (ds.length - (m + 1)) := by
    rw [← Nat.pow_succ']
    exact congrArg (256 ^ ·) (by omega)
  refine ⟨Nat.le_of_succ_le hknown, ?_, ?_⟩
  · rw [hpow, ← Nat.mul_assoc]
    exact h.lower
  · rw [hpow, ← Nat.mul_assoc, Nat.add_mul]
    exact h.upper

/-! ## Carries -/

/-- The digits written, the digit held back with `n` digits 255, and 32 bits more with a carry, for
a number `N` that still grows by less than `range`. -/
structure HoldsBack (out : List UInt8) (cache : UInt8) (n low N range : Nat) : Prop where
  number : N = (value out * 256 ^ (n + 1) + cache.toNat * 256 ^ n + (256 ^ n - 1)) * 2 ^ 32 + low
  final : N + range ≤ (value out + 1) * 256 ^ (n + 1) * 2 ^ 32
  low_le : low + range ≤ 2 ^ 33
  range_pos : 0 < range

variable {out : List UInt8} {cache : UInt8} {n N : Nat}

theorem HoldsBack.narrow (h : HoldsBack out cache n low N range) {d range' : Nat} (hpos : 0 < range') (hle : d + range' ≤ range) :
    HoldsBack out cache n (low + d) (N + d) range' where
  number := by
    rw [h.number, Nat.add_assoc]
  final := by
    have := h.final
    omega
  low_le := by
    have := h.low_le
    omega
  range_pos := hpos

theorem HoldsBack.shrink (h : HoldsBack out cache n low N range) {range' : Nat} (hpos : 0 < range') (hle : range' ≤ range) :
    HoldsBack out cache n low N range' := by
  have hsame := h.narrow (d := 0) hpos (by omega)
  rwa [Nat.add_zero, Nat.add_zero] at hsame

/-- The digit held back is written, with the carry. -/
theorem HoldsBack.write (h : HoldsBack out cache n low N range) (hrange : range ≤ 2 ^ 24)
    (hclear : low % 2 ^ 32 < 0xFF000000 ∨ low / 2 ^ 32 ≠ 0) :
    HoldsBack (out ++ (cache + UInt8.ofNat (low / 2 ^ 32)) :: List.replicate n (0xFF + UInt8.ofNat (low / 2 ^ 32)))
      (UInt8.ofNat (low / 2 ^ 24)) 0 (low % 2 ^ 24 * 256) (N * 256) (range * 256) := by
  have hpos := h.range_pos
  have hlow := h.low_le
  have hpow : 0 < 256 ^ n := Nat.pow_pos (by decide)
  have hnumber := h.number
  have hfinal := h.final
  have hcache := cache.toNat_lt
  have hwritten : value (out ++ (cache + UInt8.ofNat (low / 2 ^ 32)) ::
      List.replicate n (0xFF + UInt8.ofNat (low / 2 ^ 32))) =
        value out * 256 ^ (n + 1) + cache.toNat * 256 ^ n + (256 ^ n - 1) + low / 2 ^ 32 := by
    rw [value_append, value_cons, List.length_cons, List.length_replicate]
    have hcarry : low / 2 ^ 32 = 0 ∨ low / 2 ^ 32 = 1 := by omega
    rcases hcarry with hzero | hone
    · have hfull := value_full n
      rw [hzero]
      show value out * 256 ^ (n + 1) + ((cache + 0).toNat * 256 ^ n + value (List.replicate n 255)) = _
      rw [UInt8.add_zero]
      omega
    · -- the carry stops at the digit held back, for the number ends before it would reach `out`
      have hstop : cache.toNat ≠ 255 := by
        intro hmax
        rw [hmax] at hnumber
        have hall : value out * 256 ^ (n + 1) + 255 * 256 ^ n + (256 ^ n - 1) + 1 = (value out + 1) * 256 ^ (n + 1) := by
          rw [Nat.add_mul, Nat.pow_succ]
          omega
        rw [← hall] at hfinal
        omega
      have hnext : (cache + 1).toNat = cache.toNat + 1 := by
        rw [UInt8.toNat_add]
        show (cache.toNat + 1) % 256 = _
        omega
      rw [hone]
      show value out * 256 ^ (n + 1) + ((cache + 1).toNat * 256 ^ n + value (List.replicate n 0)) = _
      rw [hnext, value_zero, Nat.add_mul]
      omega
  have hdigit : (UInt8.ofNat (low / 2 ^ 24)).toNat = low / 2 ^ 24 % 256 := UInt8.toNat_ofNat'
  -- with the digit and the carry written, `low` is left with 32 bits
  have hroom : low % 2 ^ 32 + range ≤ 2 ^ 32 := by omega
  generalize value out * 256 ^ (n + 1) + cache.toNat * 256 ^ n + (256 ^ n - 1) = written at hnumber hwritten
  refine ⟨?_, ?_, by omega, by omega⟩
  · rw [hwritten, hdigit, hnumber, Nat.zero_add, Nat.pow_one, Nat.pow_zero]
    omega
  · rw [hwritten, hnumber, Nat.zero_add, Nat.pow_one]
    omega

/-- A digit 255 more is held back. -/
theorem HoldsBack.hold (h : HoldsBack out cache n low N range) (hrange : range ≤ 2 ^ 24)
    (hfull : ¬ (low % 2 ^ 32 < 0xFF000000 ∨ low / 2 ^ 32 ≠ 0)) :
    HoldsBack out cache (n + 1) (low % 2 ^ 24 * 256) (N * 256) (range * 256) := by
  have hpos := h.range_pos
  have hpow : 0 < 256 ^ n := Nat.pow_pos (by decide)
  have hnumber := h.number
  have hfinal := h.final
  have hout : value out * 256 ^ (n + 1 + 1) = value out * 256 ^ (n + 1) * 256 := by rw [Nat.pow_succ, Nat.mul_assoc]
  have hheld : cache.toNat * 256 ^ (n + 1) = cache.toNat * 256 ^ n * 256 := by rw [Nat.pow_succ, Nat.mul_assoc]
  have hfulls : 256 ^ (n + 1) = 256 ^ n * 256 := Nat.pow_succ 256 n
  have hend : (value out + 1) * 256 ^ (n + 1 + 1) * 2 ^ 32 = (value out + 1) * 256 ^ (n + 1) * 2 ^ 32 * 256 := by
    rw [Nat.pow_succ]
    ring
  refine ⟨?_, ?_, by omega, by omega⟩
  · rw [hnumber, hout, hheld]
    generalize value out * 256 ^ (n + 1) = a
    generalize cache.toNat * 256 ^ n = b
    rw [hfulls]
    clear hnumber hfinal hout hheld hfulls hend
    generalize 256 ^ n = c at hpow ⊢
    omega
  · rw [hend]
    omega

end RangeCoding
