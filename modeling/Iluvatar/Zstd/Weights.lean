/-
Huffman weights compressed with a finite-state table.

Two states take turns at one bit stream, and the end of the stream ends the weights.  Nothing
else does: the loop is left to end by itself, and is given fuel here.
-/
import Iluvatar.Zstd.FseTable

namespace Iluvatar

/-- Backward bit reader: `bitPos` of `totalBits` bits are consumed from the high end. -/
structure BackwardBitReader where
  data : List Byte
  totalBits : Nat
  bitPos : Nat
  deriving DecidableEq, Repr

namespace BackwardBitReader

def new (data : List Byte) : Except ZstdFault BackwardBitReader := do
  let totalBits ← streamBits data
  .ok { data, totalBits, bitPos := 0 }

def bitsRemaining (r : BackwardBitReader) : Nat := r.totalBits - r.bitPos

/-- Whether reads have gone past the end of the stream. -/
def isOverflowed (r : BackwardBitReader) : Bool := decide (r.totalBits < r.bitPos)

/-- Peek `n` bits; if fewer remain, the missing low bits read as zero.  A debug build asserts that `n` is at
most 56, which a table log and the width of an entry always are. -/
def peekBitsPadded (r : BackwardBitReader) (n : Nat) : Nat :=
  if n = 0 then 0
  else if n ≤ r.bitsRemaining then extractBits r.data (r.bitsRemaining - n) n
  else (loadU64Le r.data 0 &&& (2 ^ r.bitsRemaining - 1)) <<< (n - r.bitsRemaining)

/-- Read `n` bits, zero-padding past the end of the stream. -/
def readBitsPadded (r : BackwardBitReader) (n : Nat) : Nat × BackwardBitReader :=
  (r.peekBitsPadded n, { r with bitPos := r.bitPos + n })

def readBits (r : BackwardBitReader) (n : Nat) : Except ZstdFault (Nat × BackwardBitReader) :=
  if r.bitsRemaining < n then .error (.error "not enough bits in backward bitstream")
  else .ok (r.readBitsPadded n)

end BackwardBitReader

/-- `entries[state]`. -/
def FseTable.decode (t : FseTable) (state : Nat) : Except ZstdFault FseEntry :=
  match t.entries[state]? with
  | none => .error .panic
  | some e => .ok e

/-- The loop of `decompressFseWeights`: overflow is looked for after each state's update, and the
other state's symbol is then the last. -/
def fseWeights (table : FseTable) : Nat → BackwardBitReader → Nat → Nat → List Byte → Except ZstdFault (List Byte)
  | 0, _, _, _, _ => .error .endless
  | fuel + 1, reader, state1, state2, output => do
    let entry1 ← table.decode state1
    let output := output ++ [entry1.symbol]
    let (newBits1, reader) := reader.readBitsPadded entry1.nbBits.toNat
    let state1 := entry1.nextState.toNat + newBits1
    if reader.isOverflowed then
      let entry2 ← table.decode state2
      .ok (output ++ [entry2.symbol])
    else
      let entry2 ← table.decode state2
      let output := output ++ [entry2.symbol]
      let (newBits2, reader) := reader.readBitsPadded entry2.nbBits.toNat
      let state2 := entry2.nextState.toNat + newBits2
      if reader.isOverflowed then
        let entry1Final ← table.decode state1
        .ok (output ++ [entry1Final.symbol])
      else fseWeights table fuel reader state1 state2 output

/-- A read of one of the two first states. -/
def readState (reader : BackwardBitReader) (tableLog : Nat) : Except ZstdFault (Nat × BackwardBitReader) :=
  (reader.readBits tableLog).mapError fun _ => .error "FSE bit read overflow"

def decompressFseWeights (fuel : Nat) (table : FseTable) (data : List Byte) : Except ZstdFault (List Byte) :=
  if data.isEmpty then .error (.error "empty FSE compressed data")
  else do
    let reader ← BackwardBitReader.new data
    let (state1, reader) ← readState reader table.tableLog
    let (state2, reader) ← readState reader table.tableLog
    fseWeights table fuel reader state1 state2 []

/-- Largest weight. -/
def maxWeight : Nat := 12

/-- Maximum accuracy log of the weights' table. -/
def hufWeightFseMaxLog : Nat := 6

def decompressHuffmanWeightsFse (fuel : Nat) (data : List Byte) : Except ZstdFault (List Byte) :=
  if data.isEmpty then .error (.error "empty FSE data for huffman weights")
  else do
    let n ← readNcount data maxWeight
    if hufWeightFseMaxLog < n.tableLog then
      .error (.error ("Huffman weight FSE table log " ++ toString n.tableLog ++ " exceeds max " ++
        toString hufWeightFseMaxLog))
    else
      let fseTable ← buildFseTable n.normalized n.maxSymbol n.tableLog none none
      if data.length < n.bytesConsumed then .error .panic
      else
        let compressed := data.drop n.bytesConsumed
        if compressed.isEmpty then .error (.error "no compressed data after FSE header")
        else decompressFseWeights fuel fseTable compressed

/-! ## Turns of the two states -/

/-- Two states, the one whose turn it is first, and the stream they read. -/
structure Turns where
  reader : BackwardBitReader
  state : Nat
  other : Nat

namespace Turns

variable {table : FseTable} {t : Turns}

def entry (table : FseTable) (t : Turns) : FseEntry := table.entries.getD t.state .empty

/-- A state is updated, and the turn goes to the other. -/
def turn (table : FseTable) (t : Turns) : Turns :=
  let (newBits, reader) := t.reader.readBitsPadded (t.entry table).nbBits.toNat
  { reader, state := t.other, other := (t.entry table).nextState.toNat + newBits }

/-- The bits that the first turns take. -/
def bitsTaken (table : FseTable) : Nat → Turns → Nat
  | 0, _ => 0
  | n + 1, t => (t.entry table).nbBits.toNat + bitsTaken table n (t.turn table)

/-- The symbols of the first turns, and the other state's when the stream is over by then. -/
def spell (table : FseTable) : Nat → Turns → Option (List Byte)
  | 0, _ => none
  | n + 1, t =>
    let e := t.entry table
    let t' := t.turn table
    if t'.reader.isOverflowed then some [e.symbol, (t'.entry table).symbol]
    else (spell table n t').map (e.symbol :: ·)

/-- Both states are states of the table. -/
structure Within (table : FseTable) (t : Turns) : Prop where
  state : t.state < table.entries.length
  other : t.other < table.entries.length

/-- No entry leads out of the table. -/
def Closed (table : FseTable) : Prop :=
  ∀ e ∈ table.entries, e.nextState.toNat + 2 ^ e.nbBits.toNat ≤ table.entries.length

end Turns

namespace BackwardBitReader

theorem peekBitsPadded_lt (r : BackwardBitReader) (n : Nat) : r.peekBitsPadded n < 2 ^ n := by
  unfold peekBitsPadded
  split
  · exact Nat.two_pow_pos n
  split
  · next hzero _ =>
    rw [extractBits, if_neg hzero, Nat.and_two_pow_sub_one_eq_mod]
    exact Nat.mod_lt _ (Nat.two_pow_pos n)
  · next hover =>
    rw [Nat.and_two_pow_sub_one_eq_mod, Nat.shiftLeft_eq]
    have hlow := Nat.mod_lt (loadU64Le r.data 0) (Nat.two_pow_pos r.bitsRemaining)
    calc loadU64Le r.data 0 % 2 ^ r.bitsRemaining * 2 ^ (n - r.bitsRemaining)
        < 2 ^ r.bitsRemaining * 2 ^ (n - r.bitsRemaining) := Nat.mul_lt_mul_of_pos_right hlow (Nat.two_pow_pos _)
      _ = 2 ^ n := by
        rw [← Nat.pow_add]
        exact congrArg (2 ^ ·) (by omega)

end BackwardBitReader

namespace Turns

variable {table : FseTable} {t : Turns}

theorem entry_eq (h : t.Within table) : table.entries[t.state]? = some (t.entry table) := by
  rw [entry, List.getD_eq_getElem?_getD, List.getElem?_eq_getElem h.state]
  rfl

theorem decode_state (h : t.Within table) : table.decode t.state = .ok (t.entry table) := by
  rw [FseTable.decode, entry_eq h]

theorem entry_mem (h : t.Within table) : t.entry table ∈ table.entries := List.mem_of_getElem? (entry_eq h)

theorem turn_within (hclosed : Closed table) (h : t.Within table) : (t.turn table).Within table where
  state := h.other
  other := by
    have hentry := hclosed _ (entry_mem h)
    have hbits := t.reader.peekBitsPadded_lt (t.entry table).nbBits.toNat
    show (t.entry table).nextState.toNat + t.reader.peekBitsPadded (t.entry table).nbBits.toNat < _
    omega

theorem turn_bits (table : FseTable) (t : Turns) :
    (t.turn table).reader.bitPos = t.reader.bitPos + (t.entry table).nbBits.toNat := rfl

theorem turn_total (table : FseTable) (t : Turns) :
    (t.turn table).reader.totalBits = t.reader.totalBits := rfl

/-- A round of the loop is two turns. -/
theorem fseWeights_spell (hclosed : Closed table) (fuel : Nat) : ∀ {t : Turns} (output : List Byte), t.Within table →
    fseWeights table fuel t.reader t.state t.other output =
      match spell table (2 * fuel) t with
      | none => .error .endless
      | some ws => .ok (output ++ ws) := by
  induction fuel with
  | zero => exact fun _ _ => rfl
  | succ fuel ih =>
    intro t output h
    have h' := turn_within hclosed h
    have h'' := turn_within hclosed h'
    have hfirst := decode_state h
    have hsecond := decode_state h'
    have hthird := decode_state h''
    have hround := ih (output ++ [(t.entry table).symbol] ++ [((t.turn table).entry table).symbol]) h''
    have hdouble : 2 * (fuel + 1) = 2 * fuel + 1 + 1 := by omega
    rw [hdouble, fseWeights, hfirst]
    simp only [bind, Except.bind]
    rw [show table.decode t.other = .ok ((t.turn table).entry table) from hsecond]
    rw [spell]
    change (if (t.turn table).reader.isOverflowed = true then _ else
      (if ((t.turn table).turn table).reader.isOverflowed = true then _ else _)) = _
    by_cases hover : (t.turn table).reader.isOverflowed = true
    · rw [if_pos hover, if_pos hover]
      exact congrArg Except.ok (List.append_assoc ..)
    · rw [if_neg hover, if_neg hover, spell]
      by_cases hover' : ((t.turn table).turn table).reader.isOverflowed = true
      · rw [if_pos hover', if_pos hover']
        have hlast : table.decode ((t.entry table).nextState.toNat +
            (t.reader.readBitsPadded (t.entry table).nbBits.toNat).1) = _ := hthird
        rw [hlast]
        show Except.ok _ = Except.ok _
        rw [List.append_assoc, List.append_assoc]
        rfl
      · rw [if_neg hover', if_neg hover']
        refine Eq.trans hround ?_
        cases spell table (2 * fuel) ((t.turn table).turn table) with
        | none => rfl
        | some ws =>
          show Except.ok _ = Except.ok _
          rw [List.append_assoc, List.append_assoc]
          rfl

end Turns
end Iluvatar
