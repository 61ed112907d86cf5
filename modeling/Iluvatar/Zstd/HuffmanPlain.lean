/-
Literals decoded one symbol at a time, and one stream decoded from a cache.

The plain decoder reads single bits.  A cache holds the next bits of the stream at its high end and
zeros below, so that it reads as the stream does, also where that has ended.
-/
import Iluvatar.Library.Fallible
import Iluvatar.Compress.FilterWords
import Iluvatar.Zstd.BackwardBits
import Iluvatar.Zstd.HuffmanStreams

namespace Iluvatar

open Iluvatar.Filter

/-! ## The plain decoder -/

namespace HuffmanTable

/-- The entry for the next bits of a stream. -/
def entryAt (t : HuffmanTable) (p : PlainReader) : HufEntry := t.entries.getD (p.read t.tableLog).1 .empty

/-- The reader past the next symbol. -/
def after (t : HuffmanTable) (p : PlainReader) : PlainReader := p.skip (t.entryAt p).nbBits.toNat

/-- At most `n` symbols one after the other: none whose code needs more bits than remain. -/
def plainSymbols (t : HuffmanTable) : Nat → PlainReader → List Byte
  | 0, _ => []
  | n + 1, p => if (t.after p).overread then [] else (t.entryAt p).symbol :: t.plainSymbols n (t.after p)

theorem plainSymbols_le (t : HuffmanTable) (n : Nat) (p : PlainReader) : (t.plainSymbols n p).length ≤ n := by
  induction n generalizing p with
  | zero => exact Nat.le_refl 0
  | succ n ih =>
    rw [plainSymbols]
    split
    · exact Nat.zero_le _
    · exact Nat.succ_le_succ (ih _)

/-- One stream from its marker. -/
def plain1Stream (t : HuffmanTable) (src : List Byte) (n : Nat) : Except ZstdFault (List Byte) :=
  if src.isEmpty then if n = 0 then .ok [] else .error (.error "empty source for huffman 1-stream")
  else do
    let total ← initStreamBits src
    let symbols := t.plainSymbols n { data := src, total, taken := 0 }
    if symbols.length ≠ n then
      .error (.error ("huffman 1-stream: decoded " ++ toString symbols.length ++ " bytes, expected " ++ toString n))
    else .ok symbols

/-- Streams one after the other, from stream `i` on, each with its share of the output. -/
def plainStreams (t : HuffmanTable) : Nat → List (PlainReader × Nat) → Except ZstdFault (List Byte)
  | _, [] => .ok []
  | i, (p, share) :: streams => do
    let symbols := t.plainSymbols share p
    if symbols.length ≠ share then
      .error (.error ("huffman 4-stream: stream " ++ toString (i + 1) ++ " decoded " ++ toString symbols.length ++
        " bytes, expected " ++ toString share))
    else do
      let rest ← t.plainStreams (i + 1) streams
      .ok (symbols ++ rest)

/-- The streams from their markers. -/
def markers : List (List Byte) → List Nat → Except ZstdFault (List (PlainReader × Nat))
  | src :: srcs, share :: rest => do
    let total ← initStreamBits src
    let streams ← markers srcs rest
    .ok (({ data := src, total, taken := 0 }, share) :: streams)
  | _, _ => .ok []

/-- Four streams that the jump table delimits. -/
def plain4Streams (t : HuffmanTable) (src : List Byte) (n : Nat) : Except ZstdFault (List Byte) := do
  let srcs ← jumpTable src
  if n = 0 then .ok []
  else if srcs.any (·.isEmpty) then .error (.error "empty source for huffman 4-stream")
  else do
    let streams ← markers srcs (shares n)
    t.plainStreams 0 streams

end HuffmanTable

/-! ## Caches -/

/-- The cache has the next `n` bits of the stream at its high end, and zeros below. -/
def CacheReads (cache : UInt64) (p : PlainReader) (n : Nat) : Prop :=
  ∀ i < 64, cache.toNat.testBit (63 - i) = (decide (i < n) && p.bit i)

theorem shl_testBit (x : UInt64) {n i : Nat} (hn : n < 64) (hi : i < 64) :
    (x <<< UInt64.ofNat n).toNat.testBit i = (decide (n ≤ i) && x.toNat.testBit (i - n)) := by
  have hshift : (UInt64.ofNat n).toNat % 64 = n := by
    rw [UInt64.toNat_ofNat']
    omega
  rw [UInt64.toNat_shiftLeft, hshift, Nat.testBit_mod_two_pow, Nat.testBit_shiftLeft]
  simp only [hi, decide_true, Bool.true_and, ge_iff_le]

/-- Bits taken from the data. -/
theorem extracted_reads {src : List Byte} {p : PlainReader} {lo n : Nat} (hdata : p.data = src) (hpos : 0 < n) (hn : n ≤ 56)
    (hlo : lo + n + p.taken = p.total) :
    CacheReads (UInt64.ofNat (extractBits src lo n) <<< UInt64.ofNat (64 - n)) p n := by
  intro i hi
  rw [shl_testBit _ (by omega) (by omega), UInt64.toNat_ofNat', Nat.testBit_mod_two_pow, extractBits_testBit hn,
    PlainReader.bit, hdata]
  by_cases hin : i < n
  · have hindex : lo + (63 - i - (64 - n)) = p.total - 1 - (p.taken + i) := by omega
    rw [hindex]
    simp only [hin, show p.taken + i < p.total by omega, show 64 - n ≤ 63 - i by omega,
      show 63 - i - (64 - n) < 64 by omega, show 63 - i - (64 - n) < n by omega, decide_true, Bool.true_and]
  · simp only [hin, show ¬ 64 - n ≤ 63 - i by omega, decide_false, Bool.false_and]

theorem CacheReads.shift {cache : UInt64} {p : PlainReader} {n k : Nat} (h : CacheReads cache p n) (hn : n ≤ 64)
    (hk : k < 64) : CacheReads (cache <<< UInt64.ofNat k) (p.skip k) (n - k) := by
  intro i hi
  rw [shl_testBit _ hk (by omega), PlainReader.skip_bit]
  by_cases hin : k + i < 64
  · have hindex : 63 - i - k = 63 - (k + i) := by omega
    have hless : decide (k + i < n) = decide (i < n - k) := decide_eq_decide.mpr (by omega)
    rw [hindex, h (k + i) hin, hless]
    simp only [show k ≤ 63 - i by omega, decide_true, Bool.true_and]
  · simp only [show ¬ k ≤ 63 - i by omega, show ¬ i < n - k by omega, decide_false, Bool.false_and]

/-! ## A valid table -/

variable {entries : List HufEntry} {tableLog : Nat}

theorem entryAt_bits (h : HuffmanTable.isValid entries tableLog = true) (p : PlainReader) :
    1 ≤ ((HuffmanTable.new entries tableLog).entryAt p).nbBits.toNat ∧
      ((HuffmanTable.new entries tableLog).entryAt p).nbBits.toNat ≤ tableLog := by
  obtain ⟨e, he, hbits⟩ := HuffmanTable.isValid_entry h (p.read_lt tableLog)
  have hentry : (HuffmanTable.new entries tableLog).entryAt p = e := by
    rw [HuffmanTable.entryAt, List.getD_eq_getElem?_getD]
    show (entries[(p.read tableLog).1]?).getD .empty = e
    rw [he]
    rfl
  rw [hentry]
  exact hbits

/-- The cache is looked up to the entry for the next bits: it has them all, or all that are left. -/
theorem lookup_reads (h : HuffmanTable.isValid entries tableLog = true) {cache : UInt64} {p : PlainReader} {n : Nat}
    (hreads : CacheReads cache p n) (hn : tableLog ≤ n ∨ p.total - p.taken ≤ n) :
    hufLookup (HuffmanTable.new entries tableLog).lookup cache =
      (((HuffmanTable.new entries tableLog).entryAt p).symbol,
        ((HuffmanTable.new entries tableLog).entryAt p).nbBits.toUInt32) := by
  have hlog := (HuffmanTable.isValid_log h).2
  have hcache := cache.toNat_lt
  obtain ⟨e, he, hlookup⟩ := HuffmanTable.lookup_valid h cache
  have hindex : cache.toNat / 2 ^ 52 / 2 ^ (hufTableLogMax - tableLog) = (p.read tableLog).1 := by
    rw [Nat.div_div_eq_div_mul, ← Nat.pow_add]
    refine Nat.eq_of_testBit_eq fun j => ?_
    rw [Nat.testBit_div_two_pow, PlainReader.read_testBit]
    have hmax : hufTableLogMax = 12 := rfl
    by_cases hj : j < tableLog
    · have hat : 52 + (hufTableLogMax - tableLog) + j = 63 - (tableLog - 1 - j) := by omega
      rw [Nat.add_comm j, hat, hreads (tableLog - 1 - j) (by omega)]
      by_cases hin : tableLog - 1 - j < n
      · simp only [hin, hj, decide_true]
      · have hpast : ¬ p.taken + (tableLog - 1 - j) < p.total := by omega
        rw [PlainReader.bit]
        simp only [hin, hj, hpast, decide_true, decide_false, Bool.false_and, Bool.and_false]
    · simp only [hj, decide_false, Bool.false_and]
      refine Nat.testBit_lt_two_pow (Nat.lt_of_lt_of_le hcache (Nat.pow_le_pow_right (by decide) ?_))
      omega
  have hentry : (HuffmanTable.new entries tableLog).entryAt p = e := by
    rw [HuffmanTable.entryAt, List.getD_eq_getElem?_getD]
    show (entries[(p.read tableLog).1]?).getD .empty = e
    rw [← hindex, he]
    rfl
  rw [hentry]
  exact hlookup

/-! ## One stream -/

/-- The stream stands where the plain reader does. -/
structure HufStream.At (s : HufStream) (p : PlainReader) : Prop where
  data : p.data = s.src
  within : p.taken ≤ p.total
  rem : s.rem = p.total - p.taken

/-- The output with some symbols written. -/
def written (out : List Byte) (pos : Nat) (symbols : List Byte) : List Byte :=
  out.take pos ++ symbols ++ out.drop (pos + symbols.length)

theorem written_nil (out : List Byte) (pos : Nat) : written out pos [] = out := by
  rw [written, List.append_nil, List.length_nil, Nat.add_zero, List.take_append_drop]

/-- A symbol written, and those after it. -/
theorem written_cons {out : List Byte} {pos : Nat} (h : pos < out.length) (symbol : Byte) (symbols : List Byte) :
    written (out.set pos symbol) (pos + 1) symbols = written out pos (symbol :: symbols) := by
  have hset : out.set pos symbol = out.take pos ++ symbol :: out.drop (pos + 1) := List.set_eq_take_append_cons_drop.trans (if_pos h)
  have hlength : (out.take pos).length = pos := List.length_take_of_le (Nat.le_of_lt h)
  have hfirst : (out.set pos symbol).take (pos + 1) = out.take pos ++ [symbol] := by
    rw [hset, List.take_append, hlength, List.take_of_length_le (by omega), Nat.add_sub_cancel_left]
    rfl
  have hrest : (out.set pos symbol).drop (pos + 1 + symbols.length) = out.drop (pos + (symbols.length + 1)) := by
    rw [List.drop_set_of_lt (by omega)]
    exact congrArg (out.drop ·) (by omega)
  rw [written, written, hfirst, hrest, List.append_assoc (out.take pos), List.singleton_append, List.length_cons]

/-- The cache of a stream. -/
theorem HufStream.At.cache {s : HufStream} {p : PlainReader} (hat : s.At p) (hrem : 0 < s.rem) :
    CacheReads s.cache.bits p s.cache.cbits ∧ s.cache.cbits ≤ s.rem ∧ s.cache.cbits ≤ 56 ∧
      (56 ≤ s.cache.cbits ∨ s.rem ≤ s.cache.cbits) := by
  have hwithin := hat.within
  have hremEq := hat.rem
  refine ⟨?_, Nat.min_le_left _ _, Nat.min_le_right _ _, ?_⟩
  · exact extracted_reads hat.data (by omega) (Nat.min_le_right _ _) (by omega)
  · show 56 ≤ min s.rem 56 ∨ s.rem ≤ min s.rem 56
    omega

/-- What is left of a stream's share is written as far as the plain decoder gets. -/
theorem decodeStreamTail_plain (h : HuffmanTable.isValid entries tableLog = true) (fuel : Nat) :
    ∀ (held : Option HufCache) {s : HufStream} {p : PlainReader} {out : List Byte}, s.At p → s.pos ≤ s.stop →
      s.stop ≤ out.length →
      (match held with
        | none => 2 * (s.stop - s.pos) + 2 ≤ fuel
        | some c => 2 * (s.stop - s.pos) + 1 ≤ fuel ∧ s.pos < s.stop ∧ CacheReads c.bits p c.cbits ∧ c.cbits ≤ s.rem ∧
            c.cbits ≤ 56 ∧ (tableLog ≤ c.cbits ∨ s.rem ≤ c.cbits)) →
      ∃ s', decodeStreamTail (HuffmanTable.new entries tableLog).lookup tableLog fuel held s out =
          .ok (s', written out s.pos ((HuffmanTable.new entries tableLog).plainSymbols (s.stop - s.pos) p)) ∧
        s'.pos = s.pos + ((HuffmanTable.new entries tableLog).plainSymbols (s.stop - s.pos) p).length ∧
        s'.stop = s.stop := by
  have hlog := (HuffmanTable.isValid_log h).2
  induction fuel with
  | zero =>
    intro held s p out _ _ _ hheld
    cases held with
    | none => exact absurd hheld (by simp)
    | some c => exact absurd hheld.1 (by simp)
  | succ fuel ih =>
    intro held s p out hat hpos hstop hheld
    have hwithin := hat.within
    have hremEq := hat.rem
    match held with
    | none =>
      simp only at hheld
      rw [decodeStreamTail]
      by_cases hgo : s.pos < s.stop ∧ 0 < s.rem
      · rw [if_pos hgo]
        obtain ⟨hreads, hfits, hshort, hlong⟩ := hat.cache hgo.2
        exact ih (some s.cache) hat hpos hstop ⟨by omega, hgo.1, hreads, hfits, hshort, by omega⟩
      · rw [if_neg hgo]
        have hnothing : (HuffmanTable.new entries tableLog).plainSymbols (s.stop - s.pos) p = [] := by
          by_cases hfull : s.pos < s.stop
          · obtain ⟨n, hn⟩ : ∃ n, s.stop - s.pos = n + 1 := ⟨s.stop - s.pos - 1, by omega⟩
            have hbits := (entryAt_bits h p).1
            have hover : ((HuffmanTable.new entries tableLog).after p).overread = true := by
              rw [HuffmanTable.after, PlainReader.skip, PlainReader.overread, decide_eq_true_eq]
              simp only
              omega
            rw [hn, HuffmanTable.plainSymbols, if_pos hover]
          · rw [show s.stop - s.pos = 0 by omega, HuffmanTable.plainSymbols]
        rw [hnothing, written_nil]
        exact ⟨s, rfl, rfl, rfl⟩
    | some c =>
      obtain ⟨hfuel, hroom, hreads, hfits, hshort, hlong⟩ := hheld
      obtain ⟨hone, hbits⟩ := entryAt_bits h p
      have hlookup := lookup_reads h hreads (by omega)
      have hnb := UInt8.toNat_toUInt32 ((HuffmanTable.new entries tableLog).entryAt p).nbBits
      obtain ⟨n, hn⟩ : ∃ n, s.stop - s.pos = n + 1 := ⟨s.stop - s.pos - 1, by omega⟩
      rw [decodeStreamTail, hlookup, hn, HuffmanTable.plainSymbols]
      simp only
      rw [hnb]
      generalize hnbits : ((HuffmanTable.new entries tableLog).entryAt p).nbBits.toNat = nb at hone hbits
      have hover : ((HuffmanTable.new entries tableLog).after p).overread = decide (s.rem < nb) := by
        rw [HuffmanTable.after, PlainReader.skip, PlainReader.overread, hnbits]
        exact decide_eq_decide.mpr (by simp only; omega)
      have hafter : (HuffmanTable.new entries tableLog).after p = p.skip nb := by rw [HuffmanTable.after, hnbits]
      rw [hover]
      by_cases hshortage : s.rem < nb
      · rw [if_pos hshortage, if_pos (decide_eq_true hshortage), written_nil]
        exact ⟨s, rfl, rfl, rfl⟩
      · have hnext : ({ s with pos := s.pos + 1, rem := s.rem - nb } : HufStream).At (p.skip nb) :=
          ⟨hat.data, by show p.taken + nb ≤ p.total; omega, by show s.rem - nb = p.total - (p.taken + nb); omega⟩
        have hset : ∀ symbol : Byte, s.stop ≤ (out.set s.pos symbol).length := fun symbol => by
          rw [List.length_set]
          exact hstop
        have hleft : s.stop - (s.pos + 1) = n := by omega
        have hread : ¬ decide (s.rem < nb) = true := fun hbad => hshortage (of_decide_eq_true hbad)
        have hheld : ¬ c.cbits < nb := by omega
        rw [if_neg hshortage, if_neg (show ¬ out.length ≤ s.pos by omega), if_neg hread, checkedSub, if_neg hheld, hafter]
        simp only [bind, Except.bind]
        by_cases hend : s.stop ≤ s.pos + 1
        · have hzero : n = 0 := by omega
          rw [if_pos hend, hzero, HuffmanTable.plainSymbols, ← written_cons (by omega), written_nil]
          exact ⟨_, rfl, rfl, rfl⟩
        · rw [if_neg hend, ← written_cons (by omega)]
          by_cases hrefill : c.cbits - nb < tableLog ∧ c.cbits - nb < s.rem - nb
          · rw [if_pos hrefill]
            obtain ⟨s', hrun, hposEq, hstopEq⟩ := ih none hnext (by simp only; omega)
              (hset ((HuffmanTable.new entries tableLog).entryAt p).symbol) (by simp only; omega)
            simp only [hleft] at hrun hposEq
            refine ⟨s', hrun, ?_, hstopEq⟩
            rw [hposEq, List.length_cons]
            omega
          · rw [if_neg hrefill]
            obtain ⟨s', hrun, hposEq, hstopEq⟩ := ih (some { bits := c.bits <<< UInt64.ofNat nb, cbits := c.cbits - nb })
              hnext (by simp only; omega) (hset ((HuffmanTable.new entries tableLog).entryAt p).symbol)
              ⟨by simp only; omega, by simp only; omega, hreads.shift (by omega) (by omega), by simp only; omega,
                by simp only; omega, by simp only; omega⟩
            simp only [hleft] at hrun hposEq
            refine ⟨s', hrun, ?_, hstopEq⟩
            rw [hposEq, List.length_cons]
            omega

theorem HufStream.tail_plain (h : HuffmanTable.isValid entries tableLog = true) {s : HufStream} {p : PlainReader}
    (out : List Byte) (hat : s.At p) (hpos : s.pos ≤ s.stop) (hstop : s.stop ≤ out.length) :
    ∃ s', s.tail (HuffmanTable.new entries tableLog) out =
        .ok (s', written out s.pos ((HuffmanTable.new entries tableLog).plainSymbols (s.stop - s.pos) p)) ∧
      s'.pos = s.pos + ((HuffmanTable.new entries tableLog).plainSymbols (s.stop - s.pos) p).length ∧
      s'.stop = s.stop :=
  decodeStreamTail_plain h _ none hat hpos hstop (Nat.le_refl _)

end Iluvatar
