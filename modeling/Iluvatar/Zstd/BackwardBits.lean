/-
The bits of a backward bitstream one at a time, and what the cache holds of them.

Bit `k` of the stream is the one `k` places before the leading 1 of the last byte, and zero
from the start of the data on.
-/
import Iluvatar.Zstd.Bits

namespace Iluvatar

/-- Bit `i` of the data, counted from the low end of the first byte. -/
def dataBit (data : List Byte) (i : Nat) : Bool :=
  match data[i / 8]? with
  | none => false
  | some b => b.toNat.testBit (i % 8)

/-- A reader of single bits, `taken` of the `total` bits of the stream being read. -/
structure PlainReader where
  data : List Byte
  total : Nat
  taken : Nat
  deriving DecidableEq, Repr

namespace PlainReader

/-- The bit `k` places on. -/
def bit (p : PlainReader) (k : Nat) : Bool :=
  decide (p.taken + k < p.total) && dataBit p.data (p.total - 1 - (p.taken + k))

def skip (p : PlainReader) (n : Nat) : PlainReader := { p with taken := p.taken + n }

/-- Read `n` bits one after the other, the high end first. -/
def read (p : PlainReader) : Nat → Nat × PlainReader
  | 0 => (0, p)
  | n + 1 => (2 * (p.read n).1 + (p.bit n).toNat, (p.read n).2.skip 1)

/-- Whether more bits were read than the stream holds. -/
def overread (p : PlainReader) : Bool := decide (p.total < p.taken)

theorem skip_skip (p : PlainReader) (m n : Nat) : (p.skip m).skip n = p.skip (m + n) := by
  rw [skip, skip, skip, Nat.add_assoc]

theorem skip_bit (p : PlainReader) (m k : Nat) : (p.skip m).bit k = p.bit (m + k) := by
  rw [bit, bit, skip, Nat.add_assoc]

theorem read_snd (p : PlainReader) (n : Nat) : (p.read n).2 = p.skip n := by
  induction n with
  | zero => rfl
  | succ n ih =>
    show (p.read n).2.skip 1 = p.skip (n + 1)
    rw [ih, skip_skip]

/-- The bits of a value read. -/
theorem read_testBit (p : PlainReader) (n j : Nat) :
    (p.read n).1.testBit j = (decide (j < n) && p.bit (n - 1 - j)) := by
  induction n generalizing j with
  | zero => simp [read]
  | succ n ih =>
    have hbit : (p.bit n).toNat < 2 ^ 1 := by
      cases p.bit n <;> decide
    have hread : (p.read (n + 1)).1 = 2 ^ 1 * (p.read n).1 + (p.bit n).toNat := rfl
    rw [hread, Nat.testBit_two_pow_mul_add _ hbit]
    cases j with
    | zero =>
      rw [if_pos (by decide), Nat.add_sub_cancel, Nat.sub_zero]
      cases p.bit n <;> simp
    | succ j =>
      rw [if_neg (by omega), Nat.add_sub_cancel, ih]
      have hlt : (j < n) = (j + 1 < n + 1) := propext (by omega)
      rw [show n - 1 - j = n + 1 - 1 - (j + 1) by omega]
      simp only [hlt]

theorem read_lt (p : PlainReader) (n : Nat) : (p.read n).1 < 2 ^ n := by
  refine Nat.lt_pow_two_of_testBit _ fun j hj => ?_
  rw [read_testBit]
  simp [Nat.not_lt.mpr hj]

end PlainReader

/-- The bits of the data in a load. -/
theorem littleEndian_testBit (bs : List Byte) (j : Nat) :
    (littleEndian bs).testBit j = dataBit bs j := by
  induction bs generalizing j with
  | nil =>
    rw [littleEndian, Nat.zero_testBit]
    rfl
  | cons b bs ih =>
    have hbyte : b.toNat < 2 ^ 8 := b.toNat_lt
    rw [littleEndian, Nat.add_comm, Nat.testBit_two_pow_mul_add _ hbyte, dataBit]
    by_cases hlow : j < 8
    · have hfirst : j / 8 = 0 := by omega
      have hmod : j % 8 = j := by omega
      rw [if_pos hlow, hfirst, List.getElem?_cons_zero, hmod]
    · have hnext : j / 8 = (j - 8) / 8 + 1 := by omega
      have hmod : j % 8 = (j - 8) % 8 := by omega
      rw [if_neg hlow, ih, hnext, List.getElem?_cons_succ, hmod, dataBit]

theorem loadU64Le_testBit {data : List Byte} {lo j : Nat} (hj : lo % 8 + j < 64) :
    (loadU64Le data (lo >>> 3)).testBit ((lo &&& 7) + j) = dataBit data (lo + j) := by
  have hdiv : lo >>> 3 = lo / 8 := Nat.shiftRight_eq_div_pow lo 3
  have hmod : lo &&& 7 = lo % 8 := Nat.and_two_pow_sub_one_eq_mod lo 3
  rw [loadU64Le, littleEndian_testBit, dataBit, dataBit, hdiv, hmod, List.getElem?_take_of_lt (by omega),
    List.getElem?_drop]
  have hbyte : lo / 8 + (lo % 8 + j) / 8 = (lo + j) / 8 := by omega
  have hbit : (lo % 8 + j) % 8 = (lo + j) % 8 := by omega
  rw [hbyte, hbit]

theorem extractBits_testBit {data : List Byte} {lo n j : Nat} (hn : n ≤ 56) :
    (extractBits data lo n).testBit j = (decide (j < n) && dataBit data (lo + j)) := by
  rw [extractBits]
  by_cases hzero : n = 0
  · subst hzero
    simp
  · rw [if_neg hzero, Nat.testBit_and, Nat.testBit_two_pow_sub_one, Nat.testBit_shiftRight]
    by_cases hj : j < n
    · rw [@loadU64Le_testBit data lo j (by omega), Bool.and_comm]
    · simp [hj]

namespace SeqBitReader

/-- The reader stands where the plain one does; its cache holds the next `cbits` bits. -/
structure Holds (r : SeqBitReader) (p : PlainReader) : Prop where
  data : r.data = p.data
  rem : r.rem = (p.total : Int) - p.taken
  cache : r.cache < 2 ^ 64
  cbits : r.cbits ≤ 56
  bits : ∀ i < r.cbits, r.cache.testBit (63 - i) = p.bit i

theorem refill_holds {r : SeqBitReader} {p : PlainReader} (hdata : r.data = p.data)
    (hrem : r.rem = (p.total : Int) - p.taken) : r.refill.Holds p := by
  refine
    { data := hdata
      rem := hrem
      cache := ?_
      cbits := Nat.le_refl _
      bits := ?_ }
  · show (if 56 ≤ r.rem then _ else _) < 2 ^ 64
    by_cases hfull : 56 ≤ r.rem
    · rw [if_pos hfull]
      exact Nat.mod_lt _ (by decide)
    · rw [if_neg hfull, tailCache]
      by_cases hpast : r.rem ≤ 0
      · rw [if_pos hpast]
        decide
      · rw [if_neg hpast]
        exact Nat.mod_lt _ (by decide)
  · intro i hi
    have hi : i < 56 := hi
    show (if 56 ≤ r.rem then _ else _ : Nat).testBit (63 - i) = _
    by_cases hfull : 56 ≤ r.rem
    · have htotal : p.taken + i < p.total := by omega
      have hindex : (r.rem - 56).toNat + (55 - i) = p.total - 1 - (p.taken + i) := by omega
      have hload := @loadU64Le_testBit r.data (r.rem - 56).toNat (55 - i) (by omega)
      rw [if_pos hfull, Nat.testBit_mod_two_pow, Nat.testBit_shiftLeft, Nat.testBit_shiftRight,
        show 63 - i - 8 = 55 - i by omega, hload, hindex, hdata, PlainReader.bit]
      simp only [htotal, decide_true, Bool.true_and, show 63 - i < 64 by omega, show 63 - i ≥ 8 by omega]
    · rw [if_neg hfull, tailCache, PlainReader.bit]
      by_cases hpast : r.rem ≤ 0
      · have htotal : ¬ p.taken + i < p.total := by omega
        rw [if_pos hpast, Nat.zero_testBit]
        simp only [htotal, decide_false, Bool.false_and]
      · rw [if_neg hpast, Nat.testBit_mod_two_pow, Nat.testBit_shiftLeft, extractBits_testBit (by omega),
          Nat.zero_add, hdata]
        by_cases hin : p.taken + i < p.total
        · have hindex : 63 - i - (64 - r.rem.toNat) = p.total - 1 - (p.taken + i) := by omega
          rw [hindex]
          simp only [hin, show 63 - i < 64 by omega, show 63 - i ≥ 64 - r.rem.toNat by omega,
            show p.total - 1 - (p.taken + i) < r.rem.toNat by omega, decide_true, Bool.true_and]
        · simp only [hin, show ¬ 63 - i ≥ 64 - r.rem.toNat by omega, decide_false, Bool.false_and,
            Bool.and_false]

namespace Holds

variable {r : SeqBitReader} {p : PlainReader}

theorem refill (h : r.Holds p) : r.refill.Holds p := refill_holds h.data h.rem

theorem peekAt (h : r.Holds p) (skip n : Nat) (hfits : skip + n ≤ r.cbits) :
    r.peekAt skip n = .ok ((p.skip skip).read n).1 := by
  have hcbits := h.cbits
  rw [SeqBitReader.peekAt, if_neg (by omega)]
  congr 1
  refine Nat.eq_of_testBit_eq fun j => ?_
  rw [PlainReader.read_testBit, Nat.testBit_shiftRight, Nat.testBit_shiftRight, Nat.testBit_mod_two_pow,
    Nat.testBit_shiftLeft, PlainReader.skip_bit]
  by_cases hj : j < n
  · have hbit := h.bits (skip + (n - 1 - j)) (by omega)
    rw [show 1 + (63 - n + j) - skip = 63 - (skip + (n - 1 - j)) by omega, hbit]
    simp only [hj, show 1 + (63 - n + j) < 64 by omega, show 1 + (63 - n + j) ≥ skip by omega, decide_true,
      Bool.true_and]
  · simp only [hj, show ¬ 1 + (63 - n + j) < 64 by omega, decide_false, Bool.false_and]

theorem consume (h : r.Holds p) (n : Nat) (hfits : n ≤ r.cbits) :
    ∃ r', r.consume n = .ok r' ∧ r'.Holds (p.skip n) ∧ r'.cbits = r.cbits - n := by
  have hcbits := h.cbits
  refine ⟨_, if_neg (by omega), ?_, rfl⟩
  refine
    { data := h.data
      rem := ?_
      cache := Nat.mod_lt _ (by decide)
      cbits := ?_
      bits := ?_ }
  · show r.rem - n = (p.total : Int) - (p.taken + n : Nat)
    have hrem := h.rem
    omega
  · show r.cbits - n ≤ 56
    omega
  · intro i hi
    have hi : i < r.cbits - n := hi
    have hbit := h.bits (n + i) (by omega)
    show (r.cache <<< n % 2 ^ 64).testBit (63 - i) = (p.skip n).bit i
    rw [Nat.testBit_mod_two_pow, Nat.testBit_shiftLeft, PlainReader.skip_bit,
      show 63 - i - n = 63 - (n + i) by omega, hbit]
    simp only [show 63 - i < 64 by omega, show 63 - i ≥ n by omega, decide_true, Bool.true_and]

theorem read (h : r.Holds p) (n : Nat) (hfits : n ≤ r.cbits) :
    ∃ r', r.read n = .ok ((p.read n).1, r') ∧ r'.Holds (p.skip n) ∧ r'.cbits = r.cbits - n := by
  obtain ⟨r', hconsume, hholds, hcbits⟩ := h.consume n hfits
  refine ⟨r', ?_, hholds, hcbits⟩
  rw [SeqBitReader.read, h.peekAt 0 n (by omega), hconsume]
  rfl

theorem isOverflowed (h : r.Holds p) : r.isOverflowed = p.overread := by
  have hrem := h.rem
  rw [SeqBitReader.isOverflowed, PlainReader.overread]
  exact decide_eq_decide.mpr (by omega)

end Holds

/-- A reader over a stream of `total` bits. -/
theorem new_holds {data : List Byte} {total : Nat} (h : streamBits data = .ok total) :
    ∃ r, SeqBitReader.new data = .ok r ∧ r.Holds { data, total, taken := 0 } ∧ r.cbits = 56 := by
  refine ⟨_, ?_, refill_holds (r := { data, rem := total, cache := 0, cbits := 0 }) rfl ?_, rfl⟩
  · rw [SeqBitReader.new, h]
    rfl
  · show (total : Int) = total - (0 : Nat)
    omega

end SeqBitReader

end Iluvatar
