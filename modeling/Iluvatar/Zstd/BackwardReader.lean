/-
Backward reads of any widths, and the bits taken one at a time.

The bits of a stream are those of its bytes, read from the end towards the first byte, after the
leading 1 of the last byte.  A padded read goes on with zeros where they end.
-/
import Mathlib.Data.List.GetD
import Mathlib.Data.List.Induction
import Iluvatar.Compress.FilterWords
import Iluvatar.Zstd.BackwardBits
import Iluvatar.Zstd.Weights

namespace Iluvatar

/-! ## Bits in order -/

/-- The bits of a byte, the lowest first. -/
def byteBits (b : Byte) : List Bool := (List.range 8).map b.toNat.testBit

/-- The bits of a backward stream, in the order they are read. -/
def backwardBits (data : List Byte) : List Bool :=
  ((data.flatMap byteBits).reverse.dropWhile (!·)).tail

/-- The number that bits stand for, the most significant first. -/
def bitsValue (bits : List Bool) : Nat := bits.foldl (fun v b => 2 * v + b.toNat) 0

/-- The next `n` bits, with zeros where they have ended. -/
def paddedTo (n : Nat) (bits : List Bool) : List Bool := bits.take n ++ List.replicate (n - bits.length) false

theorem paddedTo_length (n : Nat) (bits : List Bool) : (paddedTo n bits).length = n := by
  rw [paddedTo, List.length_append, List.length_take, List.length_replicate]
  omega

theorem paddedTo_getElem? (n : Nat) (bits : List Bool) {k : Nat} (hk : k < n) :
    (paddedTo n bits)[k]? = some (bits.getD k false) := by
  by_cases hin : k < bits.length
  · have htake : k < (bits.take n).length := by
      rw [List.length_take]
      omega
    rw [paddedTo, List.getElem?_append_left htake, List.getElem?_take_of_lt hk, List.getD_eq_getElem?_getD,
      List.getElem?_eq_getElem hin]
    rfl
  · have htake : (bits.take n).length = bits.length := by
      rw [List.length_take]
      omega
    rw [paddedTo, List.getElem?_append_right (by omega), htake, List.getElem?_replicate, if_pos (by omega),
      List.getD_eq_getElem?_getD, List.getElem?_eq_none (by omega)]
    rfl

theorem bitsValue_append (bits : List Bool) (b : Bool) : bitsValue (bits ++ [b]) = 2 * bitsValue bits + b.toNat := by
  rw [bitsValue, List.foldl_append]
  rfl

theorem bitsValue_testBit (bits : List Bool) (j : Nat) :
    (bitsValue bits).testBit j = (decide (j < bits.length) && bits.getD (bits.length - 1 - j) false) := by
  induction bits using List.reverseRecOn generalizing j with
  | nil => simp [bitsValue]
  | append_singleton bits b ih =>
    have hbit : b.toNat < 2 ^ 1 := by
      cases b <;> decide
    have hvalue : bitsValue (bits ++ [b]) = 2 ^ 1 * bitsValue bits + b.toNat := bitsValue_append bits b
    rw [hvalue, Nat.testBit_two_pow_mul_add _ hbit, List.length_append, List.length_singleton]
    cases j with
    | zero =>
      rw [if_pos (by decide), Nat.add_sub_cancel, Nat.sub_zero, List.getD_eq_getElem?_getD, List.getElem?_concat_length]
      cases b <;> simp
    | succ j =>
      rw [if_neg (by omega), Nat.add_sub_cancel, ih]
      have hlt : (j < bits.length) = (j + 1 < bits.length + 1) := propext (by omega)
      by_cases hj : j < bits.length
      · rw [show bits.length + 1 - 1 - (j + 1) = bits.length - 1 - j by omega, List.getD_append _ _ _ _ (by omega)]
        simp only [hlt]
      · simp [hj]

/-! ## The bits of a stream -/

theorem byteBits_length (b : Byte) : (byteBits b).length = 8 := by
  rw [byteBits, List.length_map, List.length_range]

theorem flatMap_byteBits_length (data : List Byte) : (data.flatMap byteBits).length = 8 * data.length := by
  induction data with
  | nil => rfl
  | cons b data ih =>
    rw [List.flatMap_cons, List.length_append, byteBits_length, ih, List.length_cons]
    omega

theorem flatMap_byteBits_getElem? (data : List Byte) {i : Nat} (hi : i < 8 * data.length) :
    (data.flatMap byteBits)[i]? = some (dataBit data i) := by
  induction data generalizing i with
  | nil => exact absurd hi (Nat.not_lt_zero i)
  | cons b data ih =>
    rw [List.flatMap_cons, dataBit]
    by_cases hlow : i < 8
    · have hfirst : i / 8 = 0 := by omega
      have hmod : i % 8 = i := by omega
      rw [List.getElem?_append_left (by rw [byteBits_length]; exact hlow), hfirst, hmod, byteBits, List.getElem?_map,
        List.getElem?_range hlow]
      rfl
    · have hnext : i / 8 = (i - 8) / 8 + 1 := by omega
      have hmod : i % 8 = (i - 8) % 8 := by omega
      rw [List.length_cons] at hi
      rw [List.getElem?_append_right (by rw [byteBits_length]; omega), byteBits_length, ih (by omega), hnext, hmod]
      rfl

/-- The last byte has its leading 1, and zeros above it. -/
theorem byteBits_leading {b : Byte} (hb : b ≠ 0) :
    byteBits b = (byteBits b).take (Nat.log2 b.toNat) ++ true :: List.replicate (7 - Nat.log2 b.toNat) false := by
  have hne : b.toNat ≠ 0 := fun h => hb (UInt8.toNat_inj.mp h)
  have hlog : Nat.log2 b.toNat < 8 := (Nat.log2_lt hne).mpr b.toNat_lt
  have hrest : (byteBits b).drop (Nat.log2 b.toNat) = true :: List.replicate (7 - Nat.log2 b.toNat) false := by
    refine List.ext_getElem ?_ fun i hi _ => ?_
    · rw [List.length_drop, byteBits_length, List.length_cons, List.length_replicate]
      omega
    · simp only [byteBits, List.getElem_drop, List.getElem_map, List.getElem_range]
      cases i with
      | zero => exact Nat.testBit_log2 hne
      | succ i =>
        rw [List.getElem_cons_succ, List.getElem_replicate]
        refine Nat.testBit_lt_two_pow (Nat.lt_of_lt_of_le Nat.lt_log2_self ?_)
        exact Nat.pow_le_pow_right (by decide) (by omega)
  rw [← hrest, List.take_append_drop]

/-- The stream is what lies below the leading 1, backwards. -/
theorem backwardBits_eq {data : List Byte} {total : Nat} (h : streamBits data = .ok total) :
    backwardBits data = ((data.flatMap byteBits).take total).reverse ∧ total ≤ 8 * data.length := by
  unfold streamBits at h
  cases hlast : data.getLast? with
  | none =>
    rw [hlast] at h
    cases h
  | some last =>
    rw [hlast] at h
    simp only at h
    split at h
    · cases h
    · next hb =>
      injection h with h
      obtain ⟨before, rfl⟩ := List.getLast?_eq_some_iff.mp hlast
      have hlog : Nat.log2 last.toNat < 8 := by
        have hbyte := last.toNat_lt
        have hne : last.toNat ≠ 0 := fun hzero => hb (UInt8.toNat_inj.mp hzero)
        exact (Nat.log2_lt hne).mpr hbyte
      have hbefore := flatMap_byteBits_length before
      have hleading := byteBits_leading hb
      have htotal : total = 8 * before.length + Nat.log2 last.toNat := by
        rw [← h, List.length_append, List.length_singleton]
        omega
      have htake : ((before ++ [last]).flatMap byteBits).take total =
          before.flatMap byteBits ++ (byteBits last).take (Nat.log2 last.toNat) := by
        rw [List.flatMap_append, List.flatMap_singleton, htotal, ← hbefore, List.take_length_add_append]
      refine ⟨?_, ?_⟩
      · rw [htake, backwardBits, List.flatMap_append, List.flatMap_singleton]
        conv_lhs => rw [hleading]
        rw [← List.append_assoc, List.reverse_append, List.reverse_cons, List.reverse_replicate, List.append_assoc,
          List.dropWhile_append_of_pos (by simp), List.singleton_append, List.dropWhile_cons_of_neg (by simp),
          List.tail_cons]
      · rw [List.length_append, List.length_singleton]
        omega

theorem backwardBits_length {data : List Byte} {total : Nat} (h : streamBits data = .ok total) :
    (backwardBits data).length = total := by
  obtain ⟨heq, hle⟩ := backwardBits_eq h
  rw [heq, List.length_reverse, List.length_take, flatMap_byteBits_length]
  omega

theorem backwardBits_getD {data : List Byte} {total : Nat} (h : streamBits data = .ok total) (k : Nat) :
    (backwardBits data).getD k false = (decide (k < total) && dataBit data (total - 1 - k)) := by
  obtain ⟨heq, hle⟩ := backwardBits_eq h
  have hlength := backwardBits_length h
  by_cases hk : k < total
  · have htake : ((data.flatMap byteBits).take total).length = total := by
      rw [List.length_take, flatMap_byteBits_length]
      omega
    rw [List.getD_eq_getElem?_getD, heq, List.getElem?_reverse (by omega), htake, List.getElem?_take_of_lt (by omega),
      flatMap_byteBits_getElem? data (by omega)]
    simp [hk]
  · rw [List.getD_eq_getElem?_getD, List.getElem?_eq_none (by omega)]
    simp [hk]

/-! ## Reads -/

namespace BackwardBitReader

/-- A read, refused or not where too few bits are left. -/
inductive Read where
  | exact (n : Nat)
  | padded (n : Nat)

def Read.width : Read → Nat
  | .exact n | .padded n => n

/-- What a read answers, and what is then said of the stream. -/
structure Answer where
  value : Except ZstdFault Nat
  remaining : Nat
  overflowed : Bool

/-- One read of the reader. -/
def answer (r : BackwardBitReader) (read : Read) : Answer × BackwardBitReader :=
  match read with
  | .exact n =>
    match r.readBits n with
    | .ok (v, r) => ({ value := .ok v, remaining := r.bitsRemaining, overflowed := r.isOverflowed }, r)
    | .error e => ({ value := .error e, remaining := r.bitsRemaining, overflowed := r.isOverflowed }, r)
  | .padded n =>
    let (v, r) := r.readBitsPadded n
    ({ value := .ok v, remaining := r.bitsRemaining, overflowed := r.isOverflowed }, r)

def answers (r : BackwardBitReader) : List Read → List Answer
  | [] => []
  | read :: reads => (r.answer read).1 :: (r.answer read).2.answers reads

/-- The same of the bits themselves: `bits` are left of a stream that `past` bits were read beyond. -/
def plainAnswer (bits : List Bool) (past : Nat) (read : Read) : Answer × List Bool × Nat :=
  match read with
  | .exact n =>
    if bits.length < n then
      ({ value := .error (.error "not enough bits in backward bitstream"), remaining := bits.length
         overflowed := decide (0 < past) }, bits, past)
    else
      ({ value := .ok (bitsValue (bits.take n)), remaining := bits.length - n, overflowed := decide (0 < past) },
        bits.drop n, past)
  | .padded n =>
    ({ value := .ok (bitsValue (paddedTo n bits)), remaining := bits.length - n
       overflowed := decide (0 < past + (n - bits.length)) }, bits.drop n, past + (n - bits.length))

def plainAnswers (bits : List Bool) (past : Nat) : List Read → List Answer
  | [] => []
  | read :: reads =>
    let (a, bits, past) := plainAnswer bits past read
    a :: plainAnswers bits past reads

/-- The reader has the bits `bits` left and has been read `past` bits beyond them. -/
structure Has (r : BackwardBitReader) (bits : List Bool) (past : Nat) : Prop where
  total : streamBits r.data = .ok r.totalBits
  bits : bits = (backwardBits r.data).drop r.bitPos
  past : past = r.bitPos - r.totalBits

variable {r : BackwardBitReader} {bits : List Bool} {past : Nat}

theorem Has.length (h : r.Has bits past) : bits.length = r.bitsRemaining := by
  rw [h.bits, List.length_drop, backwardBits_length h.total]
  rfl

theorem Has.bit (h : r.Has bits past) (k : Nat) :
    bits.getD k false = (decide (r.bitPos + k < r.totalBits) && dataBit r.data (r.totalBits - 1 - (r.bitPos + k))) := by
  rw [h.bits, List.getD_eq_getElem?_getD, List.getElem?_drop, ← List.getD_eq_getElem?_getD, backwardBits_getD h.total]

/-- A wide read is the bits one after the other. -/
theorem Has.peek (h : r.Has bits past) {n : Nat} (hn : n ≤ 56) :
    r.peekBitsPadded n = bitsValue (paddedTo n bits) := by
  refine Nat.eq_of_testBit_eq fun j => ?_
  rw [bitsValue_testBit, paddedTo_length]
  by_cases hj : j < n
  · have hbit : (paddedTo n bits).getD (n - 1 - j) false = bits.getD (n - 1 - j) false := by
      rw [List.getD_eq_getElem?_getD, paddedTo_getElem? n bits (by omega)]
      rfl
    have hremaining : r.bitsRemaining = r.totalBits - r.bitPos := rfl
    rw [hbit, h.bit, peekBitsPadded, if_neg (by omega)]
    by_cases hfull : n ≤ r.bitsRemaining
    · rw [if_pos hfull, extractBits_testBit hn]
      have hindex : r.bitsRemaining - n + j = r.totalBits - 1 - (r.bitPos + (n - 1 - j)) := by omega
      have hin : r.bitPos + (n - 1 - j) < r.totalBits := by omega
      simp only [hindex, hin, hj, decide_true, Bool.true_and]
    · rw [if_neg hfull, Nat.testBit_shiftLeft, Nat.testBit_and, Nat.testBit_two_pow_sub_one]
      by_cases hhigh : n - r.bitsRemaining ≤ j
      · have hload := @loadU64Le_testBit r.data 0 (j - (n - r.bitsRemaining)) (by omega)
        have hzero : (0 &&& 7) + (j - (n - r.bitsRemaining)) = j - (n - r.bitsRemaining) := Nat.zero_add _
        rw [hzero] at hload
        have hshift : (0 : Nat) >>> 3 = 0 := rfl
        rw [hshift, Nat.zero_add] at hload
        have hindex : j - (n - r.bitsRemaining) = r.totalBits - 1 - (r.bitPos + (n - 1 - j)) := by omega
        have hin : r.bitPos + (n - 1 - j) < r.totalBits := by omega
        have hbelow : r.totalBits - 1 - (r.bitPos + (n - 1 - j)) < r.bitsRemaining := by omega
        rw [hload]
        simp only [hhigh, hbelow, hin, hj, hindex, decide_true, Bool.true_and, Bool.and_true]
      · have hout : ¬ r.bitPos + (n - 1 - j) < r.totalBits := by omega
        simp only [hhigh, hout, hj, decide_false, Bool.false_and, Bool.and_false]
  · have hlt : r.peekBitsPadded n < 2 ^ j :=
      Nat.lt_of_lt_of_le (peekBitsPadded_lt r n) (Nat.pow_le_pow_right (by decide) (by omega))
    rw [Nat.testBit_lt_two_pow hlt]
    simp [hj]

theorem Has.read (h : r.Has bits past) (n : Nat) :
    { r with bitPos := r.bitPos + n }.Has (bits.drop n) (past + (n - bits.length)) where
  total := h.total
  bits := by rw [h.bits, List.drop_drop]
  past := by
    have hlength := h.length
    have hpast := h.past
    unfold bitsRemaining at hlength
    show past + (n - bits.length) = r.bitPos + n - r.totalBits
    omega

/-- One read answers as the bits do, and leaves what they leave. -/
theorem Has.answer (h : r.Has bits past) {read : Read} (hwidth : read.width ≤ 56) :
    (r.answer read).1 = (plainAnswer bits past read).1 ∧
      (r.answer read).2.Has (plainAnswer bits past read).2.1 (plainAnswer bits past read).2.2 := by
  have hlength := h.length
  have hpast := h.past
  unfold bitsRemaining at hlength
  have hoverflow : r.isOverflowed = decide (0 < past) := by
    unfold isOverflowed
    exact decide_eq_decide.mpr (by omega)
  have hnext : ∀ n, ({ r with bitPos := r.bitPos + n } : BackwardBitReader).bitsRemaining = bits.length - n ∧
      ({ r with bitPos := r.bitPos + n } : BackwardBitReader).isOverflowed = decide (0 < past + (n - bits.length)) := by
    intro n
    refine ⟨?_, decide_eq_decide.mpr ?_⟩
    · show r.totalBits - (r.bitPos + n) = _
      omega
    · show r.totalBits < r.bitPos + n ↔ _
      omega
  cases read with
  | exact n =>
    by_cases hfew : bits.length < n
    · have hrefused : r.readBits n = .error (.error "not enough bits in backward bitstream") :=
        if_pos (by unfold bitsRemaining; omega)
      unfold BackwardBitReader.answer plainAnswer
      simp only [hrefused, if_pos hfew]
      exact ⟨by rw [hoverflow, h.length], h⟩
    · have hread : r.readBits n = .ok (r.readBitsPadded n) := if_neg (by unfold bitsRemaining; omega)
      have hvalue : r.peekBitsPadded n = bitsValue (bits.take n) := by
        rw [h.peek (n := n) hwidth, paddedTo, show n - bits.length = 0 by omega, List.replicate_zero, List.append_nil]
      have hhas := h.read n
      rw [show past + (n - bits.length) = past by omega] at hhas
      obtain ⟨hremaining, hover⟩ := hnext n
      rw [show past + (n - bits.length) = past by omega] at hover
      unfold BackwardBitReader.answer plainAnswer
      simp only [hread, if_neg hfew, readBitsPadded, hvalue, hremaining, hover]
      exact ⟨trivial, hhas⟩
  | padded n =>
    obtain ⟨hremaining, hover⟩ := hnext n
    unfold BackwardBitReader.answer plainAnswer
    simp only [readBitsPadded, h.peek (n := n) hwidth, hremaining, hover]
    exact ⟨trivial, h.read n⟩

theorem Has.answers (h : r.Has bits past) {reads : List Read} (hwidth : ∀ read ∈ reads, read.width ≤ 56) :
    r.answers reads = plainAnswers bits past reads := by
  induction reads generalizing r bits past with
  | nil => rfl
  | cons read reads ih =>
    obtain ⟨hanswer, hhas⟩ := h.answer (hwidth read List.mem_cons_self)
    rw [BackwardBitReader.answers, hanswer, ih hhas fun read hread => hwidth read (List.mem_cons_of_mem _ hread)]
    rfl

end BackwardBitReader

/-- A range of bits is those bits, the highest first. -/
theorem extractBits_value (data : List Byte) (lo : Nat) {n : Nat} (hn : n ≤ 56) :
    extractBits data lo n = bitsValue (paddedTo n ((data.flatMap byteBits).drop lo)).reverse := by
  refine Nat.eq_of_testBit_eq fun j => ?_
  rw [extractBits_testBit hn, bitsValue_testBit, List.length_reverse, paddedTo_length]
  by_cases hj : j < n
  · have hbit : (paddedTo n ((data.flatMap byteBits).drop lo)).reverse.getD (n - 1 - j) false =
        dataBit data (lo + j) := by
      rw [List.getD_eq_getElem?_getD, List.getElem?_reverse (by rw [paddedTo_length]; omega), paddedTo_length,
        show n - 1 - (n - 1 - j) = j by omega, paddedTo_getElem? _ _ hj, Option.getD_some, List.getD_eq_getElem?_getD,
        List.getElem?_drop]
      by_cases hin : lo + j < 8 * data.length
      · rw [flatMap_byteBits_getElem? data hin]
        rfl
      · rw [List.getElem?_eq_none (by rw [flatMap_byteBits_length]; omega), dataBit,
          List.getElem?_eq_none (by omega)]
        rfl
    rw [hbit]
  · simp [hj]

/-- A backward stream read in any widths is its bits one at a time. -/
theorem backward_reads_bitwise (data : List Byte) (hlast : data.getLast?.any (· != 0) = true)
    (reads : List BackwardBitReader.Read) (hwidth : ∀ read ∈ reads, read.width ≤ 56) :
    (∃ r, BackwardBitReader.new data = .ok r ∧
      r.answers reads = BackwardBitReader.plainAnswers (backwardBits data) 0 reads) ∧
    ∀ lo n, n ≤ 56 →
      extractBits data lo n = bitsValue (paddedTo n ((data.flatMap byteBits).drop lo)).reverse := by
  refine ⟨?_, fun lo n hn => extractBits_value data lo hn⟩
  obtain ⟨last, hget, hne⟩ : ∃ last, data.getLast? = some last ∧ last ≠ 0 := by
    cases hget : data.getLast? with
    | none =>
      rw [hget] at hlast
      cases hlast
    | some last =>
      rw [hget] at hlast
      exact ⟨last, rfl, by simpa using hlast⟩
  have htotal : streamBits data = .ok ((data.length - 1) * 8 + Nat.log2 last.toNat) := by
    unfold streamBits
    rw [hget]
    exact if_neg hne
  refine ⟨{ data, totalBits := (data.length - 1) * 8 + Nat.log2 last.toNat, bitPos := 0 }, ?_, ?_⟩
  · unfold BackwardBitReader.new
    rw [htotal]
    rfl
  · exact BackwardBitReader.Has.answers { total := htotal, bits := rfl, past := by rw [Nat.zero_sub] } hwidth

/-- Fifteen bits, of which a padded read takes more than are left. -/
theorem backward_reads_bitwise_padded :
    (∃ r, BackwardBitReader.new [0x05, 0x80] = .ok r ∧ r.answers [.exact 7, .padded 12, .exact 1] =
      BackwardBitReader.plainAnswers (backwardBits [0x05, 0x80]) 0 [.exact 7, .padded 12, .exact 1]) ∧
    ∀ lo n, n ≤ 56 →
      extractBits [0x05, 0x80] lo n =
        bitsValue (paddedTo n ((([0x05, 0x80] : List Byte).flatMap byteBits).drop lo)).reverse :=
  backward_reads_bitwise [0x05, 0x80] rfl [.exact 7, .padded 12, .exact 1] (by decide)

end Iluvatar
