/-
The magic scanner of bzip2 finds block boundaries, and the bit shifter starts at them.

The scanner's window is the last 48 bits as a number.  A byte cannot end two magics, because the
magic does not overlap itself that closely; so what the scanner reports byte by byte is every
occurrence but the first.
-/
import Iluvatar.Compress.Bzip2
import Iluvatar.Library.Occurrences

namespace Iluvatar

open Pattern

namespace MagicScanner

/-- The bits of some bytes, the highest of each first. -/
def bits (data : List Byte) : List Nat := data.flatMap bitsOf

/-- The bytes of the block magic. -/
def magicBytes : List Byte := [0x31, 0x41, 0x59, 0x26, 0x53, 0x59]

theorem bits_nil : bits [] = [] := rfl

theorem bits_append (front back : List Byte) : bits (front ++ back) = bits front ++ bits back := List.flatMap_append

theorem bits_cons (byte : Byte) (data : List Byte) : bits (byte :: data) = bitsOf byte ++ bits data := List.flatMap_cons

theorem bitsOf_length (byte : Byte) : (bitsOf byte).length = 8 := rfl

theorem bits_length (data : List Byte) : (bits data).length = 8 * data.length := by
  induction data with
  | nil => rfl
  | cons byte data ih =>
    rw [bits_cons, List.length_append, bitsOf_length, ih, List.length_cons]
    omega

theorem bitsOf_lt (byte : Byte) : ∀ bit ∈ bitsOf byte, bit < 2 := by
  intro bit hbit
  obtain ⟨i, -, rfl⟩ := List.mem_map.mp hbit
  exact Nat.mod_lt _ (by decide)

theorem bits_lt (data : List Byte) : ∀ bit ∈ bits data, bit < 2 := by
  intro bit hbit
  obtain ⟨byte, -, hbit⟩ := List.mem_flatMap.mp hbit
  exact bitsOf_lt byte bit hbit

theorem bits_take (data : List Byte) (n : Nat) : bits (data.take n) = (bits data).take (8 * n) := by
  induction data generalizing n with
  | nil => rw [List.take_nil, bits_nil, List.take_nil]
  | cons byte data ih =>
    cases n with
    | zero => rw [List.take_zero, bits_nil, Nat.mul_zero, List.take_zero]
    | succ n =>
      have hfirst : (bitsOf byte).take (8 * (n + 1)) = bitsOf byte := by
        refine List.take_of_length_le ?_
        rw [bitsOf_length]
        omega
      rw [List.take_succ_cons, bits_cons, bits_cons, ih, List.take_append, hfirst, bitsOf_length,
        show 8 * (n + 1) - 8 = 8 * n by omega]

theorem bits_drop (data : List Byte) (n : Nat) : bits (data.drop n) = (bits data).drop (8 * n) := by
  have hsplit := congrArg bits (List.take_append_drop n data)
  rw [bits_append, bits_take] at hsplit
  exact List.append_cancel_left (hsplit.trans (List.take_append_drop (8 * n) (bits data)).symm)

theorem ofDigits_bitsOf (byte : Byte) : Nat.ofDigits 2 (bitsOf byte).reverse = byte.toNat := by
  have hbyte := byte.toNat_lt
  simp only [bitsOf, List.map_cons, List.map_nil, List.reverse_cons, List.reverse_nil, List.nil_append,
    List.cons_append, Nat.ofDigits_cons, Nat.ofDigits_nil]
  omega

/-- Bytes are known by their bits. -/
theorem bits_injective : ∀ {front back : List Byte}, bits front = bits back → front = back
  | [], [], _ => rfl
  | [], byte :: data, h => by
    have := congrArg List.length h
    rw [bits_length, bits_length, List.length_nil, List.length_cons] at this
    omega
  | byte :: data, [], h => by
    have := congrArg List.length h
    rw [bits_length, bits_length, List.length_nil, List.length_cons] at this
    omega
  | x :: front, y :: back, h => by
    rw [bits_cons, bits_cons] at h
    obtain ⟨hfirst, hrest⟩ := List.append_inj h rfl
    have hbyte : x.toNat = y.toNat := by
      rw [← ofDigits_bitsOf, ← ofDigits_bitsOf, hfirst]
    rw [UInt8.toNat_inj.mp hbyte, bits_injective hrest]

theorem bits_magicBytes_length : (bits magicBytes).length = 48 := bits_length magicBytes

theorem bits_magicBytes_ne_nil : bits magicBytes ≠ [] := by decide

theorem blockMagic_eq : blockMagic = Nat.ofDigits 2 (bits magicBytes).reverse := by decide +kernel

/-- The magic does not overlap itself within a byte. -/
theorem bits_magicBytes_apart : ∀ k, k < 8 → 0 < k → ¬ (bits magicBytes).drop k <+: bits magicBytes := by decide +kernel

variable {s : MagicScanner} {seen : List Nat}

/-- The scanner has seen these bits. -/
structure Saw (s : MagicScanner) (seen : List Nat) : Prop where
  small : ∀ bit ∈ seen, bit < 2
  totalBits : s.totalBits = seen.length
  window : s.window = Nat.ofDigits 2 (seen.reverse.take 48)
  blockCount : s.blockCount = (occurrences (bits magicBytes) seen).length

theorem new_saw : Saw new [] := by
  refine ⟨nofun, rfl, rfl, ?_⟩
  have hnone : occurrences (bits magicBytes) [] = [] := by
    refine List.eq_nil_iff_forall_not_mem.mpr ?_
    intro p hp
    have := mem_occurrences_le hp
    rw [bits_magicBytes_length, List.length_nil] at this
    omega
  rw [hnone]
  rfl

/-- The boundary at an occurrence. -/
def boundaryAt (x : Nat × Nat) : BlockBoundary :=
  { byteOffset := x.1 / 8, bitOffset := x.1 % 8, blockIndex := x.2, uncompressedOffset := 0 }

/-- The window holds the magic exactly where the bits end with it. -/
theorem Saw.window_eq_iff {window : Nat} (hsmall : ∀ bit ∈ seen, bit < 2)
    (hwindow : window = Nat.ofDigits 2 (seen.reverse.take 48)) (hlong : 48 ≤ seen.length) :
    window = blockMagic ↔ bits magicBytes <:+ seen := by
  have hlength : (seen.reverse.take 48).length = (bits magicBytes).reverse.length := by
    rw [List.length_take, List.length_reverse, List.length_reverse, bits_magicBytes_length]
    omega
  rw [← List.reverse_prefix, List.prefix_iff_eq_take, List.length_reverse, bits_magicBytes_length, hwindow,
    blockMagic_eq]
  constructor
  · intro h
    refine (Nat.ofDigits_inj_of_len_eq (by decide) hlength ?_ ?_ h).symm
    · intro bit hbit
      exact hsmall bit (List.mem_reverse.mp (List.mem_of_mem_take hbit))
    · intro bit hbit
      exact bits_lt _ bit (List.mem_reverse.mp hbit)
  · intro h
    rw [← h]

/-- What one scanned bit does. -/
theorem scanBit_saw (h : Saw s seen) {bit : Nat} (hbit : bit < 2) :
    Saw (s.scanBit bit).1 (seen ++ [bit]) ∧
      (s.scanBit bit).2 = !(later (bits magicBytes) seen [bit]).isEmpty ∧
      (s.scanBit bit).1.lastBoundary =
        ((later (bits magicBytes) seen [bit]).getLast?.map boundaryAt).or s.lastBoundary := by
  have hsmall : ∀ b ∈ seen ++ [bit], b < 2 := by
    intro b hb
    rcases List.mem_append.mp hb with hb | hb
    · exact h.small b hb
    · exact List.mem_singleton.mp hb ▸ hbit
  have hlength : (seen ++ [bit]).length = seen.length + 1 := by
    rw [List.length_append, List.length_singleton]
  have htotal : s.totalBits + 1 = (seen ++ [bit]).length := by
    rw [hlength, h.totalBits]
  have hwindow : (2 * s.window + bit) % 2 ^ 48 = Nat.ofDigits 2 ((seen ++ [bit]).reverse.take 48) := by
    rw [h.window, List.reverse_append, List.reverse_singleton, List.singleton_append]
    refine Nat.ofDigits_window (by decide) hbit ?_
    intro b hb
    exact h.small b (List.mem_reverse.mp hb)
  have hlater := later_singleton bits_magicBytes_ne_nil seen bit
  have hoccurrences := occurrences_concat bits_magicBytes_ne_nil seen bit
  rw [bits_magicBytes_length] at hlater hoccurrences
  unfold scanBit
  simp only
  by_cases hshort : s.totalBits + 1 < 48
  · have hnone : ¬ bits magicBytes <:+ seen ++ [bit] := by
      intro hends
      have := hends.length_le
      rw [bits_magicBytes_length] at this
      omega
    rw [if_neg fun hends => hnone hends.1] at hlater
    rw [if_neg hnone, List.append_nil] at hoccurrences
    rw [if_pos hshort, hlater]
    exact ⟨⟨hsmall, htotal, hwindow, by rw [hoccurrences]; exact h.blockCount⟩, rfl, rfl⟩
  · rw [if_neg hshort]
    have hmagic := Saw.window_eq_iff hsmall hwindow (by omega)
    by_cases hends : bits magicBytes <:+ seen ++ [bit]
    · rw [if_pos hends] at hoccurrences
      have hcount : s.blockCount + 1 = (occurrences (bits magicBytes) (seen ++ [bit])).length := by
        rw [hoccurrences, List.length_append, List.length_singleton, h.blockCount]
      rw [if_pos (hmagic.mpr hends)]
      by_cases hfirst : occurrences (bits magicBytes) seen = []
      · rw [if_neg fun hends => hends.2 hfirst] at hlater
        have hzero : ¬ s.blockCount + 1 > 1 := by
          rw [h.blockCount, hfirst]
          decide
        rw [if_neg hzero, hlater]
        exact ⟨⟨hsmall, htotal, hwindow, hcount⟩, rfl, rfl⟩
      · rw [if_pos ⟨hends, hfirst⟩] at hlater
        have hsome := List.length_pos_iff.mpr hfirst
        have hmore : s.blockCount + 1 > 1 := by
          rw [h.blockCount]
          omega
        rw [if_pos hmore, hlater]
        refine ⟨⟨hsmall, htotal, hwindow, hcount⟩, rfl, ?_⟩
        simp only [List.getLast?_singleton, Option.map_some, Option.some_or, boundaryAt, Nat.add_sub_cancel,
          h.totalBits, h.blockCount]
    · rw [if_neg fun h => hends h.1] at hlater
      rw [if_neg hends, List.append_nil] at hoccurrences
      rw [if_neg fun h => hends (hmagic.mp h), hlater]
      have hcount : s.blockCount = (occurrences (bits magicBytes) (seen ++ [bit])).length := by
        rw [hoccurrences, h.blockCount]
      split
      · exact ⟨⟨hsmall, htotal, hwindow, hcount⟩, rfl, rfl⟩
      · exact ⟨⟨hsmall, htotal, hwindow, hcount⟩, rfl, rfl⟩

/-- Bit after bit, with whether one so far completed a boundary. -/
def scanBits (x : MagicScanner × Bool) (bs : List Nat) : MagicScanner × Bool :=
  bs.foldl (fun x bit =>
    let (s, found) := x.1.scanBit bit
    (s, x.2 || found)) x

theorem scanBits_saw (found : Bool) {bs : List Nat} (h : Saw s seen) (hbs : ∀ bit ∈ bs, bit < 2) :
    Saw (scanBits (s, found) bs).1 (seen ++ bs) ∧
      (scanBits (s, found) bs).2 = (found || !(later (bits magicBytes) seen bs).isEmpty) ∧
      (scanBits (s, found) bs).1.lastBoundary =
        ((later (bits magicBytes) seen bs).getLast?.map boundaryAt).or s.lastBoundary := by
  induction bs generalizing s seen found with
  | nil =>
    rw [later_nil, List.append_nil]
    exact ⟨h, by simp [scanBits], rfl⟩
  | cons bit bs ih =>
    obtain ⟨hsaw, hflag, hlast⟩ := scanBit_saw h (hbs bit List.mem_cons_self)
    obtain ⟨hsaw', hflag', hlast'⟩ :=
      ih (found || (s.scanBit bit).2) hsaw fun b hb => hbs b (List.mem_cons_of_mem _ hb)
    have happend := later_append bits_magicBytes_ne_nil seen [bit] bs
    rw [List.singleton_append] at happend
    rw [List.append_assoc, List.singleton_append] at hsaw'
    refine ⟨hsaw', ?_, ?_⟩
    · rw [happend]
      refine hflag'.trans ?_
      rw [hflag, Bool.or_assoc]
      cases later (bits magicBytes) seen [bit] <;> rfl
    · rw [happend, List.getLast?_append]
      refine hlast'.trans ?_
      rw [hlast]
      cases (later (bits magicBytes) (seen ++ [bit]) bs).getLast? <;> rfl

theorem scanByte_eq (s : MagicScanner) (byte : Byte) : s.scanByte byte = scanBits (s, false) (bitsOf byte) := by
  rw [scanByte, scanBits]

/-- What a byte does: it ends one later occurrence, and reports it, or none. -/
theorem scanByte_saw (h : Saw s seen) (byte : Byte) :
    Saw (s.scanByte byte).1 (seen ++ bitsOf byte) ∧
      ((later (bits magicBytes) seen (bitsOf byte) = [] ∧ (s.scanByte byte).2 = false ∧
          (s.scanByte byte).1.lastBoundary = s.lastBoundary) ∨
        ∃ x, later (bits magicBytes) seen (bitsOf byte) = [x] ∧ (s.scanByte byte).2 = true ∧
          (s.scanByte byte).1.lastBoundary = some (boundaryAt x)) := by
  obtain ⟨hsaw, hflag, hlast⟩ := scanBits_saw false h (bitsOf_lt byte)
  rw [← scanByte_eq] at hsaw hflag hlast
  rw [Bool.false_or] at hflag
  refine ⟨hsaw, ?_⟩
  have hone : (later (bits magicBytes) seen (bitsOf byte)).length ≤ 1 :=
    later_short bits_magicBytes_ne_nil (fun k hpos hless => bits_magicBytes_apart k hless hpos)
      (by rw [bits_magicBytes_length]; decide) (Nat.le_of_eq (bitsOf_length byte))
  match hlater : later (bits magicBytes) seen (bitsOf byte) with
  | [] =>
    rw [hlater] at hflag hlast
    exact .inl ⟨rfl, hflag, hlast⟩
  | [x] =>
    rw [hlater] at hflag hlast
    exact .inr ⟨x, rfl, hflag, hlast⟩
  | _ :: _ :: _ =>
    rw [hlater] at hone
    exact absurd hone (by simp)

/-- The boundaries the scanner records, byte after byte. -/
def detected (s : MagicScanner) : List Byte → List BlockBoundary
  | [] => []
  | byte :: data =>
    let (s, found) := s.scanByte byte
    (if found then s.lastBoundary.toList else []) ++ detected s data

/-- Nothing but the last boundary changes when it is given its place in the output, or taken. -/
theorem Saw.withBoundary (h : Saw s seen) (b : Option BlockBoundary) : Saw { s with lastBoundary := b } seen :=
  ⟨h.small, h.totalBits, h.window, h.blockCount⟩

/-- The scanner records every later occurrence, at its place. -/
theorem detected_eq (h : Saw s seen) (data : List Byte) :
    s.detected data = (later (bits magicBytes) seen (bits data)).map boundaryAt := by
  induction data generalizing s seen with
  | nil =>
    rw [bits_nil, later_nil]
    rfl
  | cons byte data ih =>
    obtain ⟨hsaw, hcase⟩ := scanByte_saw h byte
    rw [bits_cons, later_append bits_magicBytes_ne_nil, List.map_append, ← ih hsaw]
    rcases hcase with ⟨hnone, hflag, -⟩ | ⟨x, hone, hflag, hlast⟩
    · rw [detected, hnone]
      simp only [hflag, Bool.false_eq_true, if_false, List.map_nil]
    · rw [detected, hone]
      simp only [hflag, if_true, hlast, Option.toList_some, List.map_cons, List.map_nil]

/-- The places computed ahead are those of the bytes that will end a later occurrence. -/
theorem findBoundaryPositions_eq (h : Saw s seen) (data : List Byte) (i : Nat) :
    s.findBoundaryPositions data i =
      (later (bits magicBytes) seen (bits data)).map fun x => i + (x.1 + 47 - seen.length) / 8 := by
  induction data generalizing s seen i with
  | nil =>
    rw [bits_nil, later_nil]
    rfl
  | cons byte data ih =>
    obtain ⟨hsaw, hcase⟩ := scanByte_saw h byte
    rw [findBoundaryPositions, bits_cons, later_append bits_magicBytes_ne_nil, List.map_append]
    generalize s.scanByte byte = answer at hsaw hcase
    obtain ⟨s', found⟩ := answer
    simp only at hsaw hcase ⊢
    have hrest : ∀ t : MagicScanner, Saw t (seen ++ bitsOf byte) → findBoundaryPositions t data (i + 1) =
        (later (bits magicBytes) (seen ++ bitsOf byte) (bits data)).map fun x => i + (x.1 + 47 - seen.length) / 8 := by
      intro t ht
      rw [ih ht]
      refine List.map_congr_left ?_
      rintro ⟨p, k⟩ hx
      obtain ⟨-, hend, -⟩ := mem_later bits_magicBytes_ne_nil hx
      rw [List.length_append, bitsOf_length, bits_magicBytes_length] at hend
      rw [List.length_append, bitsOf_length]
      omega
    rcases hcase with ⟨hnone, rfl, -⟩ | ⟨⟨p, k⟩, hone, rfl, -⟩
    · rw [hnone, List.map_nil, List.nil_append]
      exact hrest s' hsaw
    · have hmem : (p, k) ∈ later (bits magicBytes) seen (bitsOf byte) := by
        rw [hone]
        exact List.mem_singleton_self (p, k)
      obtain ⟨-, hend, hwithin⟩ := mem_later bits_magicBytes_ne_nil hmem
      rw [bits_magicBytes_length] at hend hwithin
      rw [bitsOf_length] at hwithin
      rw [hone, List.map_cons, List.map_nil, List.singleton_append, if_pos rfl, hrest _ (hsaw.withBoundary none),
        show i + (p + 47 - seen.length) / 8 = i by omega]

theorem feed_cons (s : MagicScanner) (byte : Byte) (data : List Byte) (totalOut : Nat) :
    s.feed (byte :: data) totalOut =
      feed (if (s.scanByte byte).2 then
        { (s.scanByte byte).1 with
          lastBoundary := (s.scanByte byte).1.lastBoundary.map fun b => { b with uncompressedOffset := totalOut } }
        else (s.scanByte byte).1) data totalOut := by
  rw [feed, feed, List.foldl_cons]

/-- Feeding a slice: the last boundary it holds is kept, with the output made. -/
theorem feed_saw (h : Saw s seen) (data : List Byte) (totalOut : Nat) :
    Saw (s.feed data totalOut) (seen ++ bits data) ∧
      (s.feed data totalOut).lastBoundary =
        ((later (bits magicBytes) seen (bits data)).getLast?.map fun x =>
          { boundaryAt x with uncompressedOffset := totalOut }).or s.lastBoundary := by
  induction data generalizing s seen with
  | nil =>
    rw [bits_nil, later_nil, List.append_nil]
    exact ⟨h, rfl⟩
  | cons byte data ih =>
    obtain ⟨hsaw, hcase⟩ := scanByte_saw h byte
    rw [bits_cons, later_append bits_magicBytes_ne_nil, List.getLast?_append, ← List.append_assoc, feed_cons]
    generalize s.scanByte byte = answer at hsaw hcase
    obtain ⟨s', found⟩ := answer
    simp only at hsaw hcase ⊢
    rcases hcase with ⟨hnone, rfl, hlast⟩ | ⟨x, hone, rfl, hlast⟩
    · obtain ⟨hsaw', hlast'⟩ := ih hsaw
      rw [hnone, if_neg Bool.false_ne_true]
      refine ⟨hsaw', hlast'.trans ?_⟩
      rw [hlast, List.getLast?_nil, Option.or_none]
    · obtain ⟨hsaw', hlast'⟩ := ih (hsaw.withBoundary (some { boundaryAt x with uncompressedOffset := totalOut }))
      rw [hone, if_pos rfl, hlast, Option.map_some]
      refine ⟨hsaw', hlast'.trans ?_⟩
      rw [List.getLast?_singleton]
      cases (later (bits magicBytes) (seen ++ bitsOf byte) (bits data)).getLast? <;> rfl

/-- Slices fed one after the other, each boundary taken before the next slice. -/
def fed (s : MagicScanner) (slices : List (List Byte × Nat)) : MagicScanner :=
  slices.foldl (fun s slice => { s.feed slice.1 slice.2 with lastBoundary := none }) s

/-- The boundaries recorded over all slices. -/
def detectedIn (s : MagicScanner) : List (List Byte × Nat) → List BlockBoundary
  | [] => []
  | (data, totalOut) :: slices =>
    s.detected data ++ detectedIn { s.feed data totalOut with lastBoundary := none } slices

theorem fed_saw (h : Saw s seen) (slices : List (List Byte × Nat)) :
    Saw (s.fed slices) (seen ++ bits (slices.flatMap Prod.fst)) := by
  induction slices generalizing s seen with
  | nil =>
    rw [List.flatMap_nil, bits_nil, List.append_nil]
    exact h
  | cons slice slices ih =>
    rw [List.flatMap_cons, bits_append, ← List.append_assoc]
    exact ih ((feed_saw h slice.1 slice.2).1.withBoundary none)

theorem fed_lastBoundary (hs : s.lastBoundary = none) (slices : List (List Byte × Nat)) :
    (s.fed slices).lastBoundary = none := by
  induction slices generalizing s with
  | nil => exact hs
  | cons slice slices ih => exact ih rfl

theorem detectedIn_eq (h : Saw s seen) (slices : List (List Byte × Nat)) :
    s.detectedIn slices = (later (bits magicBytes) seen (bits (slices.flatMap Prod.fst))).map boundaryAt := by
  induction slices generalizing s seen with
  | nil =>
    rw [List.flatMap_nil, bits_nil, later_nil]
    rfl
  | cons slice slices ih =>
    rw [List.flatMap_cons, bits_append, later_append bits_magicBytes_ne_nil, List.map_append, ← detected_eq h slice.1,
      ← ih ((feed_saw h slice.1 slice.2).1.withBoundary none)]
    rfl

end MagicScanner

namespace BitShifter

open MagicScanner

/-- The bytes shifted left by `b` bits, zeros coming in at the end. -/
def joined (b : Nat) : List Byte → List Byte
  | [] => []
  | [x] => [UInt8.ofNat (x.toNat * 2 ^ b)]
  | x :: y :: data => UInt8.ofNat (x.toNat * 2 ^ b + y.toNat / 2 ^ (8 - b)) :: joined b (y :: data)

/-- The byte held back. -/
def held (s : BitShifter) : List Byte := if s.hasCarry then [s.carry] else []

/-- Pieces shifted one after the other. -/
def shiftAll (s : BitShifter) : List (List Byte) → List Byte × BitShifter
  | [] => ([], s)
  | piece :: pieces =>
    let (out, s) := s.shift piece
    let (more, s) := shiftAll s pieces
    (out ++ more, s)

variable {s : BitShifter}

theorem flush_joined (s : BitShifter) : s.flush.1 = joined s.bitOffset s.held := by
  unfold flush held
  by_cases hcarry : s.hasCarry = true
  · rw [if_pos hcarry, if_pos hcarry, joined]
  · rw [if_neg hcarry, if_neg hcarry, joined]

/-- One byte more for the shifter, with the bytes shifted out so far. -/
theorem shift_step (s : BitShifter) (byte : Byte) (more : List Byte) :
    joined s.bitOffset (s.held ++ byte :: more) =
      (if s.hasCarry then [UInt8.ofNat (s.carry.toNat * 2 ^ s.bitOffset + byte.toNat / 2 ^ (8 - s.bitOffset))]
        else []) ++
        joined s.bitOffset (byte :: more) := by
  unfold held
  by_cases hcarry : s.hasCarry = true
  · rw [if_pos hcarry, if_pos hcarry, List.singleton_append, joined, List.singleton_append]
  · rw [if_neg hcarry, if_neg hcarry, List.nil_append, List.nil_append]

theorem shift_joined (hs : s.bitOffset ≠ 0) (input more : List Byte) :
    (s.shift input).2.bitOffset = s.bitOffset ∧
      joined s.bitOffset (s.held ++ (input ++ more)) =
        (s.shift input).1 ++ joined s.bitOffset ((s.shift input).2.held ++ more) := by
  rw [shift, if_neg hs]
  have hall : ∀ (out : List Byte) (s : BitShifter),
      let x := input.foldl (fun (x : List Byte × BitShifter) byte =>
        (if x.2.hasCarry then
          x.1 ++ [UInt8.ofNat (x.2.carry.toNat * 2 ^ x.2.bitOffset + byte.toNat / 2 ^ (8 - x.2.bitOffset))]
          else x.1, { x.2 with carry := byte, hasCarry := true })) (out, s)
      x.2.bitOffset = s.bitOffset ∧ out ++ joined s.bitOffset (s.held ++ (input ++ more)) =
        x.1 ++ joined s.bitOffset (x.2.held ++ more) := by
    induction input with
    | nil => exact fun _ _ => ⟨rfl, rfl⟩
    | cons byte input ih =>
      intro out s
      obtain ⟨hsame, hjoined⟩ := ih
        (if s.hasCarry then out ++ [UInt8.ofNat (s.carry.toNat * 2 ^ s.bitOffset + byte.toNat / 2 ^ (8 - s.bitOffset))]
          else out) { s with carry := byte, hasCarry := true }
      refine ⟨hsame, Eq.trans ?_ hjoined⟩
      rw [List.cons_append, shift_step, ← List.append_assoc]
      congr 1
      by_cases hcarry : s.hasCarry = true
      · rw [if_pos hcarry, if_pos hcarry]
      · rw [if_neg hcarry, if_neg hcarry, List.append_nil]
  exact hall [] s

theorem shiftAll_joined (hs : s.bitOffset ≠ 0) (pieces : List (List Byte)) :
    (s.shiftAll pieces).1 ++ (s.shiftAll pieces).2.flush.1 = joined s.bitOffset (s.held ++ pieces.flatten) := by
  induction pieces generalizing s with
  | nil =>
    rw [shiftAll, List.nil_append, flush_joined, List.flatten_nil, List.append_nil]
  | cons piece pieces ih =>
    obtain ⟨hsame, hjoined⟩ := shift_joined hs piece pieces.flatten
    rw [List.flatten_cons, hjoined, ← hsame, ← ih (by rw [hsame]; exact hs), ← List.append_assoc]
    rfl

/-- The bits of a byte from one on are what is left of its number without those before. -/
theorem ofDigits_bitsOf_drop (byte : Byte) (b : Nat) :
    Nat.ofDigits 2 ((bitsOf byte).drop b).reverse = byte.toNat % 2 ^ (8 - b) := by
  have hbits : ∀ bit ∈ (bitsOf byte).reverse, bit < 2 := fun bit hbit =>
    bitsOf_lt byte bit (List.mem_reverse.mp hbit)
  rw [List.reverse_drop, bitsOf_length, ← Nat.ofDigits_mod_pow_eq_ofDigits_take _ (by decide) _ hbits, ofDigits_bitsOf]

/-- The bits of a byte up to one are its number divided. -/
theorem ofDigits_bitsOf_take (byte : Byte) (b : Nat) :
    Nat.ofDigits 2 ((bitsOf byte).take b).reverse = byte.toNat / 2 ^ (8 - b) := by
  have hbits : ∀ bit ∈ (bitsOf byte).reverse, bit < 2 := fun bit hbit =>
    bitsOf_lt byte bit (List.mem_reverse.mp hbit)
  rw [List.reverse_take, bitsOf_length, ← Nat.ofDigits_div_pow_eq_ofDigits_drop _ (by decide) _ hbits, ofDigits_bitsOf]

/-- The number of a byte joined of two. -/
theorem joined_toNat {b : Nat} (hpos : 0 < b) (hless : b < 8) (x : Byte) {n : Nat} (hn : n < 256) :
    (UInt8.ofNat (x.toNat * 2 ^ b + n / 2 ^ (8 - b))).toNat = n / 2 ^ (8 - b) + 2 ^ b * (x.toNat % 2 ^ (8 - b)) := by
  rw [UInt8.toNat_ofNat']
  obtain rfl | rfl | rfl | rfl | rfl | rfl | rfl : b = 1 ∨ b = 2 ∨ b = 3 ∨ b = 4 ∨ b = 5 ∨ b = 6 ∨ b = 7 := by omega
  all_goals
    simp only [Nat.reducePow, Nat.reduceSub]
    omega

/-- The bits of a byte joined of two. -/
theorem bitsOf_join {b : Nat} (hpos : 0 < b) (hless : b < 8) (x : Byte) (n : Nat) (hn : n < 256) :
    bitsOf (UInt8.ofNat (x.toNat * 2 ^ b + n / 2 ^ (8 - b))) =
      (bitsOf x).drop b ++ (bitsOf (UInt8.ofNat n)).take b := by
  have hvalue : (UInt8.ofNat n).toNat = n := UInt8.toNat_ofNat_of_lt hn
  have htake : ((bitsOf (UInt8.ofNat n)).take b).reverse.length = b := by
    rw [List.length_reverse, List.length_take, bitsOf_length]
    omega
  refine List.reverse_injective (Nat.ofDigits_inj_of_len_eq (show 1 < 2 by decide) ?_ ?_ ?_ ?_)
  · simp only [List.length_reverse, List.length_append, List.length_drop, List.length_take, bitsOf_length]
    omega
  · intro bit hbit
    exact bitsOf_lt _ bit (List.mem_reverse.mp hbit)
  · intro bit hbit
    rcases List.mem_append.mp (List.mem_reverse.mp hbit) with hdrop | hfirst
    · exact bitsOf_lt x bit (List.mem_of_mem_drop hdrop)
    · exact bitsOf_lt _ bit (List.mem_of_mem_take hfirst)
  · rw [ofDigits_bitsOf, joined_toNat hpos hless x hn, List.reverse_append, Nat.ofDigits_append, htake,
      ofDigits_bitsOf_take, ofDigits_bitsOf_drop, hvalue]

/-- The shifted bytes hold the bits from `b` on, padded with zeros. -/
theorem bits_joined {b : Nat} (hpos : 0 < b) (hless : b < 8) {data : List Byte} (hdata : data ≠ []) :
    bits (joined b data) = (bits data).drop b ++ List.replicate b 0 := by
  induction data with
  | nil => exact absurd rfl hdata
  | cons x data ih =>
    cases data with
    | nil =>
      have hzero : (bitsOf (UInt8.ofNat 0)).take b = List.replicate b 0 := by
        have hall : bitsOf (UInt8.ofNat 0) = List.replicate 8 0 := by decide
        rw [hall, List.take_replicate, Nat.min_eq_left (Nat.le_of_lt hless)]
      have hjoin := bitsOf_join hpos hless x 0 (by decide)
      rw [Nat.zero_div, Nat.add_zero, hzero] at hjoin
      rw [joined, bits_cons, bits_cons, bits_nil, List.append_nil, List.append_nil, hjoin]
    | cons y data =>
      have hjoin := bitsOf_join hpos hless x y.toNat y.toNat_lt
      rw [UInt8.ofNat_toNat] at hjoin
      have hfront : (bits (y :: data)).take b = (bitsOf y).take b := by
        rw [bits_cons, List.take_append_of_le_length]
        rw [bitsOf_length]
        omega
      rw [joined, bits_cons, hjoin, ih (List.cons_ne_nil y data), bits_cons x, List.drop_append_of_le_length, ← hfront,
        List.append_assoc, List.append_assoc, ← List.append_assoc ((bits (y :: data)).take b), List.take_append_drop]
      rw [bitsOf_length]
      omega

/-- Shifted from a bit on that is not the first of a byte, in any pieces, and flushed: the bits from
there on, padded to a whole byte. -/
theorem shiftAll_bits {data : List Byte} {p : Nat} (hp : p < 8 * data.length) (hbit : p % 8 ≠ 0)
    {pieces : List (List Byte)} (hpieces : pieces.flatten = data.drop (p / 8)) :
    bits (((new (p % 8)).shiftAll pieces).1 ++ ((new (p % 8)).shiftAll pieces).2.flush.1) =
      (bits data).drop p ++ List.replicate (p % 8) 0 := by
  have hrest : data.drop (p / 8) ≠ [] := by
    intro hnil
    have := List.drop_eq_nil_iff.mp hnil
    omega
  rw [shiftAll_joined hbit, hpieces]
  show bits (joined (p % 8) ([] ++ data.drop (p / 8))) = _
  rw [List.nil_append, bits_joined (by omega) (by omega) hrest, bits_drop, List.drop_drop,
    show 8 * (p / 8) + p % 8 = p by omega]

end BitShifter

open MagicScanner BitShifter in
/-- Slice by slice, the scanner records the second and later occurrences of the block magic in the
bits, whatever the slices; from any state on, the places computed ahead are those where it will, and a
slice leaves the last boundary in it.  From each of them that is not the first bit of a byte, the
shifter gives the bits that follow, the magic's six bytes first. -/
theorem magic_positions (slices : List (List Byte × Nat)) (rest : List Byte) :
    MagicScanner.new.detectedIn slices =
        ((occurrences (bits magicBytes) (bits (slices.flatMap Prod.fst))).zipIdx.drop 1).map boundaryAt ∧
      (MagicScanner.new.fed slices).findBoundaryPositions rest 0 =
        (later (bits magicBytes) (bits (slices.flatMap Prod.fst)) (bits rest)).map
          (fun x => (x.1 + 47) / 8 - (slices.flatMap Prod.fst).length) ∧
      (∀ totalOut, ((MagicScanner.new.fed slices).feed rest totalOut).lastBoundary =
        (later (bits magicBytes) (bits (slices.flatMap Prod.fst)) (bits rest)).getLast?.map
          fun x => { boundaryAt x with uncompressedOffset := totalOut }) ∧
      ∀ b ∈ MagicScanner.new.detectedIn slices, b.bitOffset ≠ 0 → ∀ pieces : List (List Byte),
        pieces.flatten = (slices.flatMap Prod.fst).drop b.byteOffset →
        bits (((BitShifter.new b.bitOffset).shiftAll pieces).1 ++
              ((BitShifter.new b.bitOffset).shiftAll pieces).2.flush.1) =
            (bits (slices.flatMap Prod.fst)).drop (8 * b.byteOffset + b.bitOffset) ++ List.replicate b.bitOffset 0 ∧
          (((BitShifter.new b.bitOffset).shiftAll pieces).1 ++
            ((BitShifter.new b.bitOffset).shiftAll pieces).2.flush.1).take 6 = magicBytes := by
  have hall := detectedIn_eq new_saw slices
  have hfed := fed_saw new_saw slices
  rw [List.nil_append] at hfed
  refine ⟨?_, ?_, ?_, ?_⟩
  · rw [hall, later_start bits_magicBytes_ne_nil]
  · rw [findBoundaryPositions_eq hfed]
    refine List.map_congr_left ?_
    rintro ⟨p, k⟩ hx
    obtain ⟨-, hend, -⟩ := mem_later bits_magicBytes_ne_nil hx
    rw [bits_length, bits_magicBytes_length] at hend
    rw [bits_length]
    omega
  · intro totalOut
    rw [(feed_saw hfed rest totalOut).2, fed_lastBoundary rfl, Option.or_none]
  · intro b hb hbit pieces hpieces
    rw [hall] at hb
    obtain ⟨⟨p, k⟩, hx, rfl⟩ := List.mem_map.mp hb
    obtain ⟨hmagic, -, hwithin⟩ := mem_later bits_magicBytes_ne_nil hx
    rw [List.nil_append] at hmagic
    rw [List.length_nil, Nat.zero_add, bits_magicBytes_length, bits_length] at hwithin
    have hplace : 8 * (boundaryAt (p, k)).byteOffset + (boundaryAt (p, k)).bitOffset = p := Nat.div_add_mod p 8
    have hbits := shiftAll_bits (by omega) hbit hpieces
    rw [hplace]
    refine ⟨hbits, bits_injective ?_⟩
    rw [bits_take]
    refine Eq.trans (congrArg (List.take 48) hbits) ?_
    have hmagic' := hmagic.trans (List.prefix_append _ (List.replicate (p % 8) 0))
    rw [List.prefix_iff_eq_take, bits_magicBytes_length] at hmagic'
    exact hmagic'.symm

end Iluvatar
