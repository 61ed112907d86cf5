/-
Decoding and executing the sequences of a zstd block.

A slice index or an assertion that fails is a panic.  Numbers of type `u32` are reduced
where they may wrap.
-/
import Iluvatar.Zstd.Fse
import Iluvatar.Library.Buffer

namespace Iluvatar

open Buffer (slice splice)

/-- Largest output a single block may regenerate. -/
def maxBlockSize : Nat := 128 * 1024

/-- Scratch space kept past the block's output limit. -/
def wildcopySlack : Nat := 32

/-- Sequences are decoded in batches of this many. -/
def seqBatch : Nat := 64

/-- A decoded sequence; the offset 0 marks an invalid repeat offset. -/
structure Sequence where
  literalLength : Nat
  matchLength : Nat
  offset : Nat
  deriving DecidableEq, Repr

/-- The three repeat offsets. -/
structure RepOffsets where
  rep0 : Nat
  rep1 : Nat
  rep2 : Nat
  deriving DecidableEq, Repr

/-- `wrapping_sub(1)` on a `u32`. -/
def wrappingPred32 (n : Nat) : Nat := (n + (2 ^ 32 - 1)) % 2 ^ 32

/-- Resolve an offset value against the repeat offsets. -/
def resolveOffset (offsetValue literalLength : Nat) (reps : RepOffsets) : Nat × RepOffsets :=
  if 3 < offsetValue then
    (offsetValue - 3, { rep0 := offsetValue - 3, rep1 := reps.rep0, rep2 := reps.rep1 })
  else
    let idx := (wrappingPred32 offsetValue + if literalLength = 0 then 1 else 0) % 2 ^ 32
    if idx = 0 then (reps.rep0, reps)
    else if idx = 1 then (reps.rep1, { reps with rep0 := reps.rep1, rep1 := reps.rep0 })
    else if idx = 2 then (reps.rep2, { rep0 := reps.rep2, rep1 := reps.rep0, rep2 := reps.rep1 })
    else if idx = 3 then
      (wrappingPred32 reps.rep0,
        { rep0 := wrappingPred32 reps.rep0, rep1 := reps.rep0, rep2 := reps.rep1 })
    else (0, reps)

structure SeqStates where
  ll : Nat
  of : Nat
  ml : Nat
  deriving DecidableEq, Repr

structure SeqTables where
  ll : FseTable
  of : FseTable
  ml : FseTable
  deriving DecidableEq, Repr

/-- The entry of a state, which is masked. -/
def FseTable.seqEntry (t : FseTable) (state : Nat) : SeqEntry :=
  (t.seqEntries[state &&& (seqTableSlots - 1)]?).getD ⟨0⟩

/-- What a batch leaves behind. -/
structure SeqDecoder where
  reader : SeqBitReader
  states : SeqStates
  reps : RepOffsets
  deriving DecidableEq, Repr

/-- Decode one sequence; `update` says whether the states move on. -/
def decodeSequence (tables : SeqTables) (d : SeqDecoder) (update : Bool) :
    Except ZstdFault (Sequence × SeqDecoder) := do
  let ofEntry := tables.of.seqEntry d.states.of
  let llEntry := tables.ll.seqEntry d.states.ll
  let mlEntry := tables.ml.seqEntry d.states.ml
  let ofBits := ofEntry.nbAdditionalBits
  let mlBits := mlEntry.nbAdditionalBits
  let llBits := llEntry.nbAdditionalBits
  let llNb := llEntry.nbBits
  let mlNb := mlEntry.nbBits
  let ofNb := ofEntry.nbBits
  -- First group: offset and match length extra bits.
  let r := d.reader.refill
  let ofExtra ← r.peekAt 0 ofBits
  let mlExtra ← r.peekAt ofBits mlBits
  let offsetValue := (2 ^ ofBits + ofExtra) % 2 ^ 32
  let matchLength := (mlEntry.baseValue + mlExtra) % 2 ^ 32
  let r ← r.consume (ofBits + mlBits)
  -- Second group: literal length extra bits and the state updates.
  let need := llBits + llNb + mlNb + ofNb
  let r := if r.available < need then r.refill else r
  let llExtra ← r.peekAt 0 llBits
  let literalLength := (llEntry.baseValue + llExtra) % 2 ^ 32
  let (offset, reps) := resolveOffset offsetValue literalLength d.reps
  let seq : Sequence := { literalLength, matchLength, offset }
  if update then
    let llNext ← r.peekAt llBits llNb
    let mlNext ← r.peekAt (llBits + llNb) mlNb
    let ofNext ← r.peekAt (llBits + llNb + mlNb) ofNb
    let r ← r.consume need
    .ok (seq,
      { reader := r
        states :=
          { ll := llEntry.nextState + llNext
            of := ofEntry.nextState + ofNext
            ml := mlEntry.nextState + mlNext }
        reps })
  else
    let r ← r.consume llBits
    .ok (seq, { d with reader := r, reps })

/-- Decode a batch of `n`; the final sequence of the last batch skips the state update. -/
def decodeBatch (tables : SeqTables) (lastBatch : Bool) :
    Nat → SeqDecoder → Except ZstdFault (List Sequence × SeqDecoder)
  | 0, d => .ok ([], d)
  | n + 1, d => do
    let (seq, d) ← decodeSequence tables d (!(lastBatch && n == 0))
    let (seqs, d) ← decodeBatch tables lastBatch n d
    .ok (seq :: seqs, d)

/-! ## Execution -/

/-- Copy `n` bytes as one chunk: all are read before any is written. -/
def copyChunk (out : List Byte) (src dst n : Nat) : Except ZstdFault (List Byte) :=
  if src + n ≤ out.length ∧ dst + n ≤ out.length then .ok (splice out dst (slice out src n))
  else .error .panic

/-- `out[op..op + bytes.len()].copy_from_slice(bytes)`. -/
def putBytes (out : List Byte) (op : Nat) (bytes : List Byte) : Except ZstdFault (List Byte) :=
  if op + bytes.length ≤ out.length then .ok (splice out op bytes) else .error .panic

/-- `xs[s..s + n]`. -/
def takeSlice (xs : List Byte) (s n : Nat) : Except ZstdFault (List Byte) :=
  if s + n ≤ xs.length then .ok (slice xs s n) else .error .panic

/-- Chunks of 16 bytes from `k` on, one at least. -/
def copyWide (src op len : Nat) : Nat → Nat → List Byte → Except ZstdFault (List Byte)
  | 0, _, _ => .error .endless
  | fuel + 1, k, out => do
    let out ← copyChunk out (src + k) (op + k) 16
    if len ≤ k + 16 then .ok out else copyWide src op len fuel (k + 16) out

/-- Single bytes, `n` of them from `j` on. -/
def copyBytes (src op : Nat) : Nat → Nat → List Byte → Except ZstdFault (List Byte)
  | 0, _, out => .ok out
  | n + 1, j, out => do
    let out ← copyChunk out (src + j) (op + j) 1
    copyBytes src op n (j + 1) out

/-- Chunks of 8 bytes from `k` on, copied from `dist` back. -/
def copyPeriod (dist op len : Nat) : Nat → Nat → List Byte → Except ZstdFault (List Byte)
  | 0, _, _ => .error .endless
  | fuel + 1, k, out =>
    if k < len then do
      let out ← copyChunk out (op + k - dist) (op + k) 8
      copyPeriod dist op len fuel (k + 8) out
    else .ok out

/-- The least multiple of `offset` that is 8 at least. -/
def fullPeriod (offset : Nat) : Nat := offset * ((8 + offset - 1) / offset)

/-- Write `len` bytes at `op`, copied from `offset` bytes back. -/
def copyMatch (out : List Byte) (op offset len : Nat) : Except ZstdFault (List Byte) :=
  if offset < 1 ∨ op < offset then .error .panic
  else
    let src := op - offset
    if 16 ≤ offset then copyWide src op len (len + 1) 0 out
    else if offset = 1 then
      match out[src]? with
      | none => .error .panic
      | some b => putBytes out op (List.replicate len b)
    else if 8 ≤ offset then copyPeriod offset op len (len + 1) 0 out
    else do
      let dist := fullPeriod offset
      let out ← copyBytes src op (min dist len) 0 out
      copyPeriod dist op len (len + 1) dist out

def literalError (seq literalLength litPos available : Nat) : String :=
  if available - litPos < literalLength then
    "sequence " ++ toString seq ++ " literal length " ++ toString literalLength ++
      " exceeds available literals (at " ++ toString litPos ++ ", have " ++ toString available ++ ")"
  else "sequence " ++ toString seq ++ " overflows the maximum block size"

def matchError (seq offset produced maxBack : Nat) : String :=
  if offset = 0 then "sequence " ++ toString seq ++ " has a zero repeat offset"
  else if produced + maxBack < offset then
    "sequence " ++ toString seq ++ " offset " ++ toString offset ++ " exceeds available history (" ++
      toString produced ++ " output + " ++ toString maxBack ++ " window)"
  else "sequence " ++ toString seq ++ " overflows the maximum block size"

/-- Where the execution is: the buffer, the end of the output in it, and the next literal. -/
structure Execution where
  out : List Byte
  op : Nat
  litPos : Nat
  deriving DecidableEq, Repr

/-- What the execution of a block works with. -/
structure ExecutionContext where
  literals : List Byte
  blockStart : Nat
  maxBack : Nat
  deriving DecidableEq, Repr

namespace ExecutionContext

/-- Where the block's output must end. -/
def limit (c : ExecutionContext) : Nat := c.blockStart + maxBlockSize

/-- Copy literals, a short run in fixed chunks. -/
def copyLiterals (c : ExecutionContext) (st : Execution) (literalLength : Nat) :
    Except ZstdFault (List Byte) :=
  if literalLength ≤ 32 ∧ st.litPos + 32 ≤ c.literals.length then do
    let chunk ← takeSlice c.literals st.litPos 16
    let out ← putBytes st.out st.op chunk
    if 16 < literalLength then
      let chunk ← takeSlice c.literals (st.litPos + 16) 16
      putBytes out (st.op + 16) chunk
    else .ok out
  else do
    let bytes ← takeSlice c.literals st.litPos literalLength
    putBytes st.out st.op bytes

/-- Execute sequence number `i`; what it has written stays, also when it fails. -/
def executeSequence (c : ExecutionContext) (i : Nat) (st : Execution) (seq : Sequence) :
    Except ZstdFault Unit × Execution :=
  if c.literals.length - st.litPos < seq.literalLength ∨ c.limit - st.op < seq.literalLength then
    (.error (.error (literalError i seq.literalLength st.litPos c.literals.length)), st)
  else
    match c.copyLiterals st seq.literalLength with
    | .error e => (.error e, st)
    | .ok out =>
      let litPos := st.litPos + seq.literalLength
      let op := st.op + seq.literalLength
      let produced := op - c.blockStart
      if seq.offset = 0 ∨ produced + c.maxBack < seq.offset ∨ c.limit - op < seq.matchLength then
        (.error (.error (matchError i seq.offset produced c.maxBack)), { out, op, litPos })
      else
        match copyMatch out op seq.offset seq.matchLength with
        | .error e => (.error e, { out, op, litPos })
        | .ok out => (.ok (), { out, op := op + seq.matchLength, litPos })

/-- Execute sequences from number `i` on. -/
def executeBatch (c : ExecutionContext) : Nat → Execution → List Sequence → Except ZstdFault Unit × Execution
  | _, st, [] => (.ok (), st)
  | i, st, seq :: seqs =>
    match c.executeSequence i st seq with
    | (.ok (), st) => c.executeBatch (i + 1) st seqs
    | (.error e, st) => (.error e, st)

/-- Append the literals that are left. -/
def trailingLiterals (c : ExecutionContext) (st : Execution) : Except ZstdFault Unit × Execution :=
  let rest := c.literals.length - st.litPos
  if c.limit - st.op < rest then
    (.error (.error "trailing literals overflow the maximum block size"), st)
  else
    match putBytes st.out st.op (c.literals.drop st.litPos) with
    | .error e => (.error e, st)
    | .ok out => (.ok (), { st with out, op := st.op + rest })

/-- Decode and execute batch after batch, `left` sequences being left after `done`. -/
def executeBatches (c : ExecutionContext) (tables : SeqTables) :
    Nat → Nat → Nat → SeqDecoder → Execution → Except ZstdFault Unit × SeqDecoder × Execution
  | 0, _, _, d, st => (.error .endless, d, st)
  | fuel + 1, done, left, d, st =>
    if left = 0 then (.ok (), d, st)
    else
      let n := min left seqBatch
      match decodeBatch tables (n == left) n d with
      | .error e => (.error e, d, st)
      | .ok (seqs, d) =>
        match c.executeBatch done st seqs with
        | (.error e, st) => (.error e, d, st)
        | (.ok (), st) => c.executeBatches tables fuel (done + n) (left - n) d st

/-- Decode and execute the sequences of a block. -/
def executeSequences (c : ExecutionContext) (data : List Byte) (numSequences : Nat) (tables : SeqTables)
    (reps : RepOffsets) (out : List Byte) : Except ZstdFault Unit × Execution × RepOffsets :=
  let st : Execution := { out, op := c.blockStart, litPos := 0 }
  let start : Except ZstdFault SeqDecoder := do
    let reader ← SeqBitReader.new data
    let (ll, reader) ← reader.read tables.ll.tableLog
    let (of, reader) ← reader.read tables.of.tableLog
    let (ml, reader) ← reader.read tables.ml.tableLog
    .ok { reader, states := { ll, of, ml }, reps }
  match start with
  | .error e => (.error e, st, reps)
  | .ok d =>
    match c.executeBatches tables (numSequences + 1) 0 numSequences d st with
    | (.error e, d, st) => (.error e, st, d.reps)
    | (.ok (), d, st) =>
      if d.reader.isOverflowed then (.error (.error "sequence bitstream overread"), st, d.reps)
      else
        let (result, st) := c.trailingLiterals st
        (result, st, d.reps)

end ExecutionContext

/-- Largest numbers of additional bits in a literal length, match length and offset entry. -/
def llMaxBits : Nat := 16
def mlMaxBits : Nat := 16
def ofMaxBits : Nat := 31

/-- Sequences can be decoded with the table, in entries of at most `max` additional bits. -/
def FseTable.fits (t : FseTable) (max : Nat) : Bool :=
  match t.seqMaxAdditionalBits with
  | some m => decide (m ≤ max)
  | none => false

/-- Tables that are let through. -/
def SeqTables.fit (t : SeqTables) : Bool :=
  t.ll.fits llMaxBits && t.ml.fits mlMaxBits && t.of.fits ofMaxBits

/-- The history with room for the largest block and the slack. -/
def blockBuffer (history : List Byte) : List Byte :=
  history ++ List.replicate (maxBlockSize + wildcopySlack) 0

/-- The output after a block: what it came to, or the history alone. -/
def settleOutput (blockStart : Nat) : Except ZstdFault Unit × Execution → Except ZstdFault Unit × List Byte
  | (.ok (), st) => (.ok (), st.out.take st.op)
  | (.error e, st) => (.error e, st.out.take blockStart)

/-- Decode all sequences of a block and execute them, `history` being the output so far. -/
def decodeAndExecuteSequences (data : List Byte) (numSequences : Nat) (tables : SeqTables)
    (reps : RepOffsets) (literals history : List Byte) (maxBack : Nat) :
    Except ZstdFault Unit × List Byte × RepOffsets :=
  if numSequences = 0 then (.ok (), history ++ literals, reps)
  else if data = [] then (.error (.error "empty sequence bitstream data"), history, reps)
  else if tables.fit = false then (.error (.error "malformed sequence decoding table"), history, reps)
  else
    let c : ExecutionContext := { literals, blockStart := history.length, maxBack }
    let (result, st, reps) := c.executeSequences data numSequences tables reps (blockBuffer history)
    let (result, output) := settleOutput history.length (result, st)
    (result, output, reps)

/-- The part of `decodeAndExecuteSequences` that executes, over sequences that are decoded. -/
def executeDecoded (history literals : List Byte) (maxBack : Nat) (seqs : List Sequence) :
    Except ZstdFault Unit × List Byte :=
  if seqs = [] then (.ok (), history ++ literals)
  else
    let c : ExecutionContext := { literals, blockStart := history.length, maxBack }
    settleOutput history.length
      (match c.executeBatch 0 { out := blockBuffer history, op := history.length, litPos := 0 } seqs with
      | (.error e, st) => (.error e, st)
      | (.ok (), st) => c.trailingLiterals st)

end Iluvatar
