/-
Huffman tables for zstd literals: a list of symbol weights, and the canonical code rebuilt from
it as a flat table.
-/
import Iluvatar.Zstd.Weights

namespace Iluvatar

/-- Maximum Huffman table log. -/
def hufTableLogMax : Nat := 12

/-- A symbol, and the bits it takes. -/
structure HufEntry where
  symbol : Byte
  nbBits : Byte
  deriving DecidableEq, Repr

/-- `HufEntry::default()`. -/
def HufEntry.empty : HufEntry := { symbol := 0, nbBits := 0 }

def hufLookupSize : Nat := 2 ^ hufTableLogMax

/-- A decoding table.  `lookup` has the entries for an index of `hufTableLogMax` bits, packed as
`nbBits | symbol << 8`. -/
structure HuffmanTable where
  entries : List HufEntry
  tableLog : Nat
  lookup : List UInt16
  valid : Bool
  deriving DecidableEq, Repr

namespace HuffmanTable

/-- Whether a table is internally consistent. -/
def isValid (entries : List HufEntry) (tableLog : Nat) : Bool :=
  decide (1 ≤ tableLog ∧ tableLog ≤ hufTableLogMax ∧ 2 ^ tableLog ≤ entries.length) &&
    (entries.take (2 ^ tableLog)).all fun e => decide (1 ≤ e.nbBits.toNat ∧ e.nbBits.toNat ≤ tableLog)

def pack (e : HufEntry) : UInt16 := e.nbBits.toUInt16 ||| e.symbol.toUInt16 <<< 8

def new (entries : List HufEntry) (tableLog : Nat) : HuffmanTable :=
  let valid := isValid entries tableLog
  { entries
    tableLog
    lookup :=
      if valid then
        (List.range hufLookupSize).map fun i => pack (entries.getD (i >>> (hufTableLogMax - tableLog)) .empty)
      else List.replicate hufLookupSize 0
    valid }

end HuffmanTable

/-- The symbol at the top of a bit cache, and the bits it takes. -/
def hufLookup (lookup : List UInt16) (cache : UInt64) : Byte × UInt32 :=
  let e := lookup.getD (cache >>> UInt64.ofNat (64 - hufTableLogMax)).toNat 0
  ((e >>> 8).toUInt8, (e &&& 0x3F).toUInt32)

/-! ## The wider view -/

theorem pack_lookup (e : HufEntry) (h : e.nbBits.toNat ≤ 12) :
    ((HuffmanTable.pack e >>> 8).toUInt8, (HuffmanTable.pack e &&& 0x3F).toUInt32) = (e.symbol, e.nbBits.toUInt32) := by
  have hsymbol := e.symbol.toNat_lt
  have hpack : (HuffmanTable.pack e).toNat = e.nbBits.toNat + e.symbol.toNat * 2 ^ 8 := by
    have hshift : (e.symbol.toUInt16 <<< 8).toNat = e.symbol.toNat <<< 8 := by
      rw [UInt16.toNat_shiftLeft, UInt8.toNat_toUInt16]
      show e.symbol.toNat <<< 8 % 2 ^ 16 = _
      rw [Nat.shiftLeft_eq]
      omega
    rw [HuffmanTable.pack, UInt16.toNat_or, hshift, UInt8.toNat_toUInt16, Nat.or_comm,
      ← Nat.shiftLeft_add_eq_or_of_lt (show e.nbBits.toNat < 2 ^ 8 by omega), Nat.shiftLeft_eq, Nat.add_comm]
  have hfirst : (HuffmanTable.pack e >>> 8).toUInt8 = e.symbol := by
    refine UInt8.toNat_inj.mp ?_
    rw [UInt16.toNat_toUInt8, UInt16.toNat_shiftRight, hpack]
    show (e.nbBits.toNat + e.symbol.toNat * 2 ^ 8) >>> 8 % 2 ^ 8 = _
    rw [Nat.shiftRight_eq_div_pow]
    omega
  have hsecond : (HuffmanTable.pack e &&& 0x3F).toUInt32 = e.nbBits.toUInt32 := by
    refine UInt32.toNat_inj.mp ?_
    rw [UInt16.toNat_toUInt32, UInt16.toNat_and, hpack, UInt8.toNat_toUInt32]
    show e.nbBits.toNat + e.symbol.toNat * 2 ^ 8 &&& 2 ^ 6 - 1 = _
    rw [Nat.and_two_pow_sub_one_eq_mod]
    omega
  rw [hfirst, hsecond]

namespace HuffmanTable

variable {entries : List HufEntry} {tableLog : Nat}

theorem isValid_of (hlow : 1 ≤ tableLog) (hhigh : tableLog ≤ hufTableLogMax) (hsize : 2 ^ tableLog ≤ entries.length)
    (hbits : ∀ e ∈ entries, 1 ≤ e.nbBits.toNat ∧ e.nbBits.toNat ≤ tableLog) : isValid entries tableLog = true := by
  unfold isValid
  rw [Bool.and_eq_true, decide_eq_true_eq, List.all_eq_true]
  refine ⟨⟨hlow, hhigh, hsize⟩, fun e he => ?_⟩
  rw [decide_eq_true_eq]
  exact hbits e (List.mem_of_mem_take he)

theorem isValid_log (h : isValid entries tableLog = true) : 1 ≤ tableLog ∧ tableLog ≤ 12 := by
  unfold isValid at h
  rw [Bool.and_eq_true, decide_eq_true_eq] at h
  exact ⟨h.1.1, h.1.2.1⟩

theorem isValid_entry (h : isValid entries tableLog = true) {i : Nat} (hi : i < 2 ^ tableLog) :
    ∃ e, entries[i]? = some e ∧ 1 ≤ e.nbBits.toNat ∧ e.nbBits.toNat ≤ tableLog := by
  unfold isValid at h
  rw [Bool.and_eq_true, decide_eq_true_eq, List.all_eq_true] at h
  obtain ⟨⟨_, _, hsize⟩, hbits⟩ := h
  obtain ⟨e, he⟩ : ∃ e, entries[i]? = some e := ⟨_, List.getElem?_eq_getElem (Nat.lt_of_lt_of_le hi hsize)⟩
  have hentry : e ∈ entries.take (2 ^ tableLog) := by
    refine List.mem_of_getElem? (i := i) ?_
    rw [List.getElem?_take_of_lt hi]
    exact he
  exact ⟨e, he, of_decide_eq_true (hbits e hentry)⟩

/-- The wider view of a valid table has the entries. -/
theorem lookup_valid (h : isValid entries tableLog = true) (cache : UInt64) :
    ∃ e, entries[cache.toNat / 2 ^ 52 / 2 ^ (hufTableLogMax - tableLog)]? = some e ∧
      hufLookup (new entries tableLog).lookup cache = (e.symbol, e.nbBits.toUInt32) := by
  have hmax : hufTableLogMax = 12 := rfl
  have hcache := cache.toNat_lt
  have hhigh : tableLog ≤ hufTableLogMax := (isValid_log h).2
  have hindex : cache.toNat / 2 ^ 52 < hufLookupSize := by
    unfold hufLookupSize
    rw [hmax]
    omega
  have hslot : cache.toNat / 2 ^ 52 / 2 ^ (hufTableLogMax - tableLog) < 2 ^ tableLog := by
    rw [Nat.div_lt_iff_lt_mul (Nat.two_pow_pos _), ← Nat.pow_add, Nat.add_sub_cancel' hhigh]
    exact hindex
  obtain ⟨e, he, _, hbits⟩ := isValid_entry h hslot
  have hview : (new entries tableLog).lookup.getD (cache.toNat / 2 ^ 52) 0 = pack e := by
    unfold new
    simp only
    rw [if_pos h, List.getD_eq_getElem?_getD, List.getElem?_map, List.getElem?_range hindex, Option.map_some,
      Nat.shiftRight_eq_div_pow, List.getD_eq_getElem?_getD, he]
    rfl
  refine ⟨e, he, ?_⟩
  have hcacheIndex : (cache >>> UInt64.ofNat (64 - hufTableLogMax)).toNat = cache.toNat / 2 ^ 52 := by
    rw [UInt64.toNat_shiftRight]
    show cache.toNat >>> 52 = _
    rw [Nat.shiftRight_eq_div_pow]
  unfold hufLookup
  simp only
  rw [hcacheIndex, hview]
  exact pack_lookup e (Nat.le_trans hbits hhigh)

end HuffmanTable

/-! ## Reading a table -/

/-- Weights packed 4 bits each, the first in the high half. -/
def directWeights (data : List Byte) (numWeights : Nat) : List Byte :=
  (List.range numWeights).map fun i =>
    let byte := data.getD (1 + i / 2) 0
    if i % 2 = 0 then byte >>> 4 else byte &&& 0x0F

/-- The weights of a description, and its length. -/
def readWeights (fuel : Nat) (data : List Byte) : Except ZstdFault (List Byte × Nat) :=
  match data with
  | [] => .error (.error "empty huffman table data")
  | headerByte :: _ =>
    if 128 ≤ headerByte.toNat then
      let numWeights := headerByte.toNat - 127
      let numBytes := (numWeights + 1) / 2
      if data.length < 1 + numBytes then .error (.error "huffman table header extends past data")
      else .ok (directWeights data numWeights, 1 + numBytes)
    else
      let compressedSize := headerByte.toNat
      if data.length < 1 + compressedSize then
        .error (.error "huffman FSE compressed header extends past data")
      else do
        let weights ← decompressHuffmanWeightsFse fuel ((data.drop 1).take compressedSize)
        .ok (weights, 1 + compressedSize)

/-- The slots that the symbols take together. -/
def weightTotal : List Byte → Nat → Except ZstdFault Nat
  | [], total => .ok total
  | w :: ws, total =>
    if hufTableLogMax < w.toNat then .error (.error "Huffman weight exceeds max")
    else if 2 ^ 32 ≤ total + 2 ^ w.toNat / 2 then .error .panic
    else weightTotal ws (total + 2 ^ w.toNat / 2)

/-- The table log, and the weights with the last one, which the others imply. -/
def completeWeights (weights : List Byte) : Except ZstdFault (Nat × List Byte) := do
  let total ← weightTotal weights 0
  if total = 0 then .error (.error "Huffman weight total is 0")
  else do
    let top ← highestBit total
    let tableLog := top + 1
    if hufTableLogMax < tableLog then .error (.error "Huffman table log exceeds max")
    else
      let rest := 2 ^ tableLog - total
      if rest &&& (rest - 1) ≠ 0 then .error (.error "Huffman rest is not a power of 2")
      else do
        let top ← highestBit rest
        .ok (tableLog, weights ++ [UInt8.ofNat (top + 1)])

/-- How many symbols there are of each weight. -/
def rankCounts (tableLog : Nat) (weights : List Byte) : List Nat :=
  weights.foldl (fun counts w => counts.modify w.toNat (· + 1)) (List.replicate (tableLog + 2) 0)

/-- Where the symbols of each weight start, the weights from `w` on, of which there are `n`. -/
def rankStarts (tableSize : Nat) (counts : List Nat) : Nat → Nat → Nat → List Nat → Except ZstdFault (List Nat)
  | 0, _, _, starts => .ok starts
  | n + 1, w, current, starts =>
    let next := current + counts.getD w 0 * 2 ^ (w - 1)
    if tableSize < next then .error (.error "Huffman table construction overflow")
    else rankStarts tableSize counts n (w + 1) next (starts.set w current)

/-- A table that is being filled.  `filled` lists the slots written so far; the source keeps no
such list. -/
structure HufFill where
  entries : List HufEntry
  rankStart : List Nat
  filled : List Nat
  deriving DecidableEq, Repr

namespace HufFill

/-- `count` slots from `start` on. -/
def put (e : HufEntry) : Nat → Nat → HufFill → HufFill
  | 0, _, f => f
  | count + 1, start, f =>
    put e count (start + 1)
      (if start < f.entries.length then
        { f with entries := f.entries.set start e, filled := f.filled ++ [start] }
      else f)

/-- The slots of a symbol. -/
def symbol (tableLog s : Nat) (weight : Byte) (f : HufFill) : Except ZstdFault HufFill :=
  let w := weight.toNat
  if w = 0 then .ok f
  else
    match f.rankStart[w]? with
    | none => .error .panic
    | some start =>
      let numEntries := 2 ^ (w - 1)
      let f := f.put { symbol := UInt8.ofNat s, nbBits := UInt8.ofNat (tableLog + 1 - w) } numEntries start
      .ok { f with rankStart := f.rankStart.set w (start + numEntries) }

/-- The symbols from `s` on, with their weights. -/
def symbols (tableLog : Nat) : List Byte → Nat → HufFill → Except ZstdFault HufFill
  | [], _, f => .ok f
  | weight :: weights, s, f => do
    let f ← f.symbol tableLog s weight
    symbols tableLog weights (s + 1) f

end HufFill

/-- The flat table of a complete list of weights. -/
def fillTable (tableLog : Nat) (weights : List Byte) : Except ZstdFault HufFill := do
  let tableSize := 2 ^ tableLog
  let counts := rankCounts tableLog weights
  let starts ← rankStarts tableSize counts tableLog 1 0 (List.replicate (tableLog + 2) 0)
  HufFill.symbols tableLog weights 0
    { entries := List.replicate tableSize .empty, rankStart := starts, filled := [] }

/-- Read a table description; with the table comes the number of bytes it took. -/
def readHuffmanTable (fuel : Nat) (data : List Byte) : Except ZstdFault (HuffmanTable × Nat) := do
  let (weights, bytesConsumed) ← readWeights fuel data
  if weights.length = 0 then .error (.error "no Huffman symbols")
  else do
    let (tableLog, allWeights) ← completeWeights weights
    if allWeights.length ≤ 1 then
      .ok (HuffmanTable.new (List.replicate (2 ^ tableLog) { symbol := 0, nbBits := 1 }) tableLog, bytesConsumed)
    else do
      let f ← fillTable tableLog allWeights
      .ok (HuffmanTable.new f.entries tableLog, bytesConsumed)

end Iluvatar
