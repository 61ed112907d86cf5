/-
FSE (finite state entropy) tables: reading a normalized count distribution and building a
decoding table from it.

The counts are integers, -1 standing for a probability of less than one slot.  A loop that
the source leaves to end by itself is given fuel, and running out of it is the fault
`endless`.
-/
import Iluvatar.Zstd.Bits

namespace Iluvatar

/-- Largest table log of a sequence table. -/
def maxFseLog : Nat := 9

/-- Minimum FSE table log. -/
def fseMinTableLog : Nat := 5

/-- An entry in an FSE decoding table. -/
structure FseEntry where
  symbol : UInt8
  nbBits : UInt8
  nextState : UInt16
  nbAdditionalBits : UInt8
  baseValue : UInt32
  deriving DecidableEq, Repr

/-- `FseEntry::default()`. -/
def FseEntry.empty : FseEntry :=
  { symbol := 0, nbBits := 0, nextState := 0, nbAdditionalBits := 0, baseValue := 0 }

/-- Number of slots in a compact sequence decoding table. -/
def seqTableSlots : Nat := 2 ^ maxFseLog

/-- Compact decoding entry: base value, next state, bits and additional bits, from bit 0 on. -/
structure SeqEntry where
  packed : Nat
  deriving DecidableEq, Repr

namespace SeqEntry

def new (e : FseEntry) : SeqEntry :=
  { packed := e.baseValue.toNat ||| e.nextState.toNat <<< 32 ||| e.nbBits.toNat <<< 48 |||
      e.nbAdditionalBits.toNat <<< 56 }

def baseValue (e : SeqEntry) : Nat := e.packed % 2 ^ 32

def nextState (e : SeqEntry) : Nat := (e.packed >>> 32) % 2 ^ 16

def nbBits (e : SeqEntry) : Nat := (e.packed >>> 48) % 2 ^ 8

def nbAdditionalBits (e : SeqEntry) : Nat := (e.packed >>> 56) % 2 ^ 32

end SeqEntry

/-- A complete FSE decoding table. -/
structure FseTable where
  tableLog : Nat
  entries : List FseEntry
  /-- `entries` in the compact form, padded to `seqTableSlots`. -/
  seqEntries : List SeqEntry
  /-- Largest number of additional bits of any entry, if sequences can be decoded with the
  table. -/
  seqMaxAdditionalBits : Option Nat
  deriving DecidableEq, Repr

/-- A table that sequences can be decoded with: its size matches its log, and no state
transition is wider. -/
def FseTable.wellFormed (tableLog : Nat) (entries : List FseEntry) : Bool :=
  decide (tableLog ≤ maxFseLog ∧ entries.length = 2 ^ tableLog) &&
    entries.all fun e => decide (e.nbBits.toNat ≤ tableLog)

def FseTable.new (tableLog : Nat) (entries : List FseEntry) : FseTable :=
  { tableLog
    entries
    seqEntries := (entries.take seqTableSlots).map SeqEntry.new ++
      List.replicate (seqTableSlots - entries.length) ⟨0⟩
    seqMaxAdditionalBits :=
      if wellFormed tableLog entries then (entries.map fun e => e.nbAdditionalBits.toNat).max?
      else none }

/-! ## Reading a distribution -/

/-- A normalized count distribution and what it took to read it. -/
structure NCount where
  normalized : List Int
  maxSymbol : Nat
  tableLog : Nat
  bytesConsumed : Nat
  deriving DecidableEq, Repr

/-- The variables of the loop over the symbols. -/
structure NCountState where
  reader : ForwardBitReader
  normalized : List Int
  remaining : Int
  threshold : Int
  nbBits : Nat
  charnum : Nat
  previous0 : Bool
  deriving DecidableEq, Repr

/-- A read of the distribution, its errors named after what is read. -/
def readNamed (what : String) (r : ForwardBitReader) (n : Nat) :
    Except ZstdFault (Nat × ForwardBitReader) :=
  (r.readBits n).mapError fun e => .error ("reading " ++ what ++ ": " ++ e)

/-- Count a run of symbols of probability zero: each 3 stands for three more, anything less
ends it. -/
def zeroRun (maxSv1 : Nat) : Nat → ForwardBitReader → Nat → Except ZstdFault (Nat × ForwardBitReader)
  | 0, _, _ => .error .endless
  | fuel + 1, reader, charnum => do
    let (bits, reader) ← readNamed "zero run" reader 2
    if bits = 3 then
      if maxSv1 ≤ charnum + 3 then .ok (charnum + 3, reader) else zeroRun maxSv1 fuel reader (charnum + 3)
    else .ok (charnum + bits, reader)

/-- Read a count, in one bit less where it is small enough. -/
def readCount (reader : ForwardBitReader) (remaining threshold : Int) (nbBits : Nat) :
    Except ZstdFault (Int × ForwardBitReader) := do
  let maxVal := 2 * threshold - 1 - remaining
  let (low, reader) ← readNamed "count" reader (nbBits - 1)
  if (low : Int) < maxVal then .ok ((low : Int) - 1, reader)
  else
    let (extra, reader) ← readNamed "extra count bit" reader 1
    let value : Int := (low + extra <<< (nbBits - 1) : Nat)
    if threshold ≤ value then .ok (value - maxVal - 1, reader) else .ok (value - 1, reader)

namespace NCountState

/-- The symbol `charnum` has this count. -/
def counted (st : NCountState) (maxSv1 charnum : Nat) (count : Int) (reader : ForwardBitReader) :
    NCountState :=
  { st with
    reader
    normalized := if charnum < maxSv1 then st.normalized.set charnum count else st.normalized
    remaining := if 0 ≤ count then st.remaining - count else st.remaining + count
    charnum := charnum + 1
    previous0 := count == 0 }

/-- Shrink the threshold to what remains. -/
def narrowed (st : NCountState) : Except ZstdFault NCountState :=
  if st.remaining < st.threshold then do
    let top ← highestBit st.remaining.toNat
    .ok { st with nbBits := top + 1, threshold := 2 ^ top }
  else .ok st

/-- After a symbol of probability zero, skip the run that follows it. -/
def skipZeros (maxSv1 : Nat) (st : NCountState) : Except ZstdFault (Nat × ForwardBitReader) :=
  if st.previous0 then zeroRun maxSv1 (maxSv1 + 1) st.reader st.charnum
  else .ok (st.charnum, st.reader)

/-- One turn of the loop; the flag says whether it goes on. -/
def turn (maxSv1 : Nat) (st : NCountState) : Except ZstdFault (Bool × NCountState) := do
  let (charnum, reader) ← st.skipZeros maxSv1
  if st.previous0 ∧ maxSv1 ≤ charnum then .ok (false, { st with charnum, reader })
  else
    let (count, reader) ← readCount reader st.remaining st.threshold st.nbBits
    let st := st.counted maxSv1 charnum count reader
    if st.remaining ≤ 1 then .ok (false, st)
    else
      let st ← st.narrowed
      .ok (decide (st.charnum < maxSv1), st)

def run (maxSv1 : Nat) : Nat → NCountState → Except ZstdFault NCountState
  | 0, _ => .error .endless
  | fuel + 1, st => do
    let (more, st) ← st.turn maxSv1
    if more then run maxSv1 fuel st else .ok st

end NCountState

/-- Where the loop begins, the table log being read. -/
def NCountState.start (reader : ForwardBitReader) (maxSv1 tableLog : Nat) : NCountState :=
  { reader
    normalized := List.replicate maxSv1 0
    remaining := 2 ^ tableLog + 1
    threshold := 2 ^ tableLog
    nbBits := tableLog + 1
    charnum := 0
    previous0 := false }

def readNcountInner (data : List Byte) (maxSymbol actualLen : Nat) : Except ZstdFault NCount := do
  let (raw, reader) ← readNamed "table log" (ForwardBitReader.new data) 4
  let tableLog := raw + fseMinTableLog
  if maxFseLog < tableLog then
    .error (.error ("table log " ++ toString tableLog ++ " exceeds max " ++ toString maxFseLog))
  else if 2 ^ 32 ≤ maxSymbol + 1 then .error .panic
  else
    let maxSv1 := maxSymbol + 1
    let st ← (NCountState.start reader maxSv1 tableLog).run maxSv1 (maxSv1 + 1)
    if st.remaining ≠ 1 then
      .error (.error ("FSE NCount corruption: remaining=" ++ toString st.remaining ++ " (expected 1)"))
    else if maxSv1 < st.charnum then
      .error (.error ("FSE NCount: charnum " ++ toString st.charnum ++ " exceeds max " ++ toString maxSv1))
    else if actualLen < st.reader.bytesConsumed then
      .error (.error "FSE NCount extends beyond available data")
    else
      .ok
        { normalized := st.normalized
          maxSymbol := if 0 < st.charnum then st.charnum - 1 else 0
          tableLog
          bytesConsumed := st.reader.bytesConsumed }

/-- Read a distribution; short data is padded for safe reading. -/
def readNcount (data : List Byte) (maxSymbol : Nat) : Except ZstdFault NCount :=
  if data.length < 4 then
    readNcountInner (data ++ List.replicate (8 - data.length) 0) maxSymbol data.length
  else readNcountInner data maxSymbol data.length

/-! ## Building a table -/

/-- A table that is being filled.  `filled` lists the slots written so far with their
symbols; the source keeps no such list. -/
structure Spread where
  entries : List FseEntry
  filled : List (Nat × Nat)
  deriving DecidableEq, Repr

/-- `entries[slot].symbol = s as u8`. -/
def Spread.put (t : Spread) (slot s : Nat) : Except ZstdFault Spread :=
  match t.entries[slot]? with
  | none => .error .panic
  | some e =>
    .ok
      { entries := t.entries.set slot { e with symbol := UInt8.ofNat s }
        filled := t.filled ++ [(slot, s)] }

/-- `wrapping_sub(1)` on a `usize`. -/
def wrappingPred (n : Nat) : Nat := (n + (2 ^ 64 - 1)) % 2 ^ 64

/-- Place the symbols of low probability at the high end, the counts being those of the
symbols from `s` on.  Returns the last free slot and the first numbers of the symbols. -/
def placeLow : List Int → Nat → Spread → Nat → Except ZstdFault (Spread × Nat × List Nat)
  | [], _, t, high => .ok (t, high, [])
  | count :: counts, s, t, high => do
    if count = -1 then
      let t ← t.put high s
      let (t, high, next) ← placeLow counts (s + 1) t (wrappingPred high)
      .ok (t, high, 1 :: next)
    else
      let (t, high, next) ← placeLow counts (s + 1) t high
      .ok (t, high, count.toNat :: next)

/-- Step on to the next slot that is free. -/
def advance (step mask high : Nat) : Nat → Nat → Except ZstdFault Nat
  | 0, _ => .error .endless
  | fuel + 1, position =>
    let position := position + step &&& mask
    if high < position then advance step mask high fuel position else .ok position

/-- Spread a symbol over `count` slots. -/
def spreadSymbol (step mask high s : Nat) : Nat → Spread → Nat → Except ZstdFault (Spread × Nat)
  | 0, t, position => .ok (t, position)
  | count + 1, t, position => do
    let t ← t.put position s
    let position ← advance step mask high (mask + 1) position
    spreadSymbol step mask high s count t position

def spreadSymbols (step mask high : Nat) : List Int → Nat → Spread → Nat → Except ZstdFault (Spread × Nat)
  | [], _, t, position => .ok (t, position)
  | count :: counts, s, t, position => do
    let (t, position) ← spreadSymbol step mask high s count.toNat t position
    spreadSymbols step mask high counts (s + 1) t position

/-- `FSE_TABLESTEP`. -/
def fseTableStep (tableSize : Nat) : Nat := tableSize / 2 + tableSize / 8 + 3

/-- The first two phases: each slot gets its symbol. -/
def spreadTable (normalized : List Int) (maxSymbol tableLog : Nat) :
    Except ZstdFault (Spread × List Nat) := do
  let tableSize := 2 ^ tableLog
  if normalized.length < maxSymbol + 1 then .error .panic
  else
    let counts := normalized.take (maxSymbol + 1)
    let t : Spread := { entries := List.replicate tableSize .empty, filled := [] }
    let (t, high, next) ← placeLow counts 0 t (tableSize - 1)
    let (t, position) ←
      spreadSymbols (fseTableStep tableSize) (tableSize - 1) (high % 2 ^ 32) counts 0 t 0
    if position ≠ 0 then .error (.error "FSE table building error: position should reach 0")
    else .ok (t, next)

/-- Base value and additional bits of a symbol go into its entries, where there are any. -/
def FseEntry.withValues (e : FseEntry) (baseValues : Option (List UInt32))
    (nbAddBits : Option (List UInt8)) : FseEntry :=
  { e with
    baseValue := ((baseValues.getD [])[e.symbol.toNat]?).getD e.baseValue
    nbAdditionalBits := ((nbAddBits.getD [])[e.symbol.toNat]?).getD e.nbAdditionalBits }

/-- The entry of a slot whose symbol has come to number `x`. -/
def FseEntry.numbered (e : FseEntry) (tableLog x : Nat) : Except ZstdFault FseEntry := do
  let top ← highestBit x
  if tableLog < top then .error .panic
  else
    let nbBits := tableLog - top
    if x <<< nbBits < 2 ^ tableLog then .error .panic
    else
      .ok { e with
        nbBits := UInt8.ofNat nbBits
        nextState := UInt16.ofNat (x <<< nbBits - 2 ^ tableLog) }

/-- The third phase: the slots of a symbol are numbered in order. -/
def numberEntries (tableLog : Nat) (baseValues : Option (List UInt32)) (nbAddBits : Option (List UInt8)) :
    List FseEntry → List Nat → Except ZstdFault (List FseEntry)
  | [], _ => .ok []
  | e :: entries, next =>
    match next[e.symbol.toNat]? with
    | none => .error .panic
    | some x => do
      let e' ← e.numbered tableLog x
      let rest ← numberEntries tableLog baseValues nbAddBits entries (next.set e.symbol.toNat (x + 1))
      .ok (e'.withValues baseValues nbAddBits :: rest)

def buildFseTable (normalized : List Int) (maxSymbol tableLog : Nat) (baseValues : Option (List UInt32))
    (nbAddBits : Option (List UInt8)) : Except ZstdFault FseTable := do
  let (t, next) ← spreadTable normalized maxSymbol tableLog
  let entries ← numberEntries tableLog baseValues nbAddBits t.entries next
  .ok (FseTable.new tableLog entries)

/-- A table of one entry, for a symbol that is always the same. -/
def buildRleFseTable (symbol : UInt8) (baseValues : Option (List UInt32))
    (nbAddBits : Option (List UInt8)) : FseTable :=
  FseTable.new 0 [{ FseEntry.empty with symbol }.withValues baseValues nbAddBits]

end Iluvatar
