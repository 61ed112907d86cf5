/-
Decoding sequences, beside reading every field one bit after the other.

The plain procedure looks entries up as they were built and reads field by field.  The code
looks at the cache at computed places, and tops it up only where what is left would not do.
-/
import Iluvatar.Zstd.Sequences
import Iluvatar.Zstd.BackwardBits

namespace Iluvatar

/-- The entry of a state as it was built; there is an empty one for a state past the table. -/
def FseTable.slot (t : FseTable) (state : Nat) : FseEntry :=
  (t.entries[state % seqTableSlots]?).getD .empty

/-- The offset of a sequence and the repeat offsets after it.  Without literals the repeat
offsets are shifted by one, and the third becomes one less than the first; one less than 0,
which execution refuses, wraps. -/
def plainOffset (offsetValue literalLength : Nat) (reps : RepOffsets) : Nat × RepOffsets :=
  let again := (reps.rep0, reps)
  let second := (reps.rep1, { reps with rep0 := reps.rep1, rep1 := reps.rep0 })
  let third := (reps.rep2, { rep0 := reps.rep2, rep1 := reps.rep0, rep2 := reps.rep1 })
  let less := wrappingPred32 reps.rep0
  match offsetValue, literalLength with
  | 1, 0 => second
  | 2, 0 => third
  | 3, 0 => (less, { rep0 := less, rep1 := reps.rep0, rep2 := reps.rep1 })
  | 1, _ => again
  | 2, _ => second
  | 3, _ => third
  | value, _ => (value - 3, { rep0 := value - 3, rep1 := reps.rep0, rep2 := reps.rep1 })

structure PlainDecoder where
  reader : PlainReader
  states : SeqStates
  reps : RepOffsets
  deriving DecidableEq, Repr

/-- One sequence, field by field; `update` says whether the states move on. -/
def plainSequence (tables : SeqTables) (d : PlainDecoder) (update : Bool) : Sequence × PlainDecoder :=
  let of := tables.of.slot d.states.of
  let ml := tables.ml.slot d.states.ml
  let ll := tables.ll.slot d.states.ll
  let (ofExtra, r) := d.reader.read of.nbAdditionalBits.toNat
  let (mlExtra, r) := r.read ml.nbAdditionalBits.toNat
  let (llExtra, r) := r.read ll.nbAdditionalBits.toNat
  let literalLength := (ll.baseValue.toNat + llExtra) % 2 ^ 32
  let matchLength := (ml.baseValue.toNat + mlExtra) % 2 ^ 32
  let (offset, reps) := plainOffset (2 ^ of.nbAdditionalBits.toNat + ofExtra) literalLength d.reps
  let seq : Sequence := { literalLength, matchLength, offset }
  if update then
    let (llNext, r) := r.read ll.nbBits.toNat
    let (mlNext, r) := r.read ml.nbBits.toNat
    let (ofNext, r) := r.read of.nbBits.toNat
    (seq,
      { reader := r
        states :=
          { ll := ll.nextState.toNat + llNext
            of := of.nextState.toNat + ofNext
            ml := ml.nextState.toNat + mlNext }
        reps })
  else (seq, { d with reader := r, reps })

/-- `n` sequences, without a state update after the last. -/
def plainSequences (tables : SeqTables) : Nat → PlainDecoder → List Sequence × PlainDecoder
  | 0, d => ([], d)
  | n + 1, d =>
    let (seq, d) := plainSequence tables d (n != 0)
    let (seqs, d) := plainSequences tables n d
    (seq :: seqs, d)

/-- The states a stream starts with. -/
def plainStart (data : List Byte) (total : Nat) (tables : SeqTables) (reps : RepOffsets) : PlainDecoder :=
  let r : PlainReader := { data, total, taken := 0 }
  let (ll, r) := r.read tables.ll.tableLog
  let (of, r) := r.read tables.of.tableLog
  let (ml, r) := r.read tables.ml.tableLog
  { reader := r, states := { ll, of, ml }, reps }

/-- `executeSequences` up to its loop. -/
def startDecoder (data : List Byte) (tables : SeqTables) (reps : RepOffsets) :
    Except ZstdFault SeqDecoder := do
  let reader ← SeqBitReader.new data
  let (ll, reader) ← reader.read tables.ll.tableLog
  let (of, reader) ← reader.read tables.of.tableLog
  let (ml, reader) ← reader.read tables.ml.tableLog
  .ok { reader, states := { ll, of, ml }, reps }

/-- Decode batches of the given sizes. -/
def decodeBatches (tables : SeqTables) :
    List Nat → SeqDecoder → Except ZstdFault (List Sequence × SeqDecoder)
  | [], d => .ok ([], d)
  | n :: ns, d => do
    let (seqs, d) ← decodeBatch tables ns.isEmpty n d
    let (rest, d) ← decodeBatches tables ns d
    .ok (seqs ++ rest, d)

/-! ## Entries -/

theorem or_shift {a b k : Nat} (h : a < 2 ^ k) : a ||| b <<< k = a + 2 ^ k * b := by
  rw [Nat.or_comm, ← Nat.shiftLeft_add_eq_or_of_lt h, Nat.shiftLeft_eq, Nat.mul_comm, Nat.add_comm]

theorem SeqEntry.packed_new (e : FseEntry) :
    (SeqEntry.new e).packed = e.baseValue.toNat + 2 ^ 32 * e.nextState.toNat + 2 ^ 48 * e.nbBits.toNat +
      2 ^ 56 * e.nbAdditionalBits.toNat := by
  have hbase := e.baseValue.toNat_lt
  have hnext := e.nextState.toNat_lt
  have hbits := e.nbBits.toNat_lt
  show e.baseValue.toNat ||| e.nextState.toNat <<< 32 ||| e.nbBits.toNat <<< 48 |||
    e.nbAdditionalBits.toNat <<< 56 = _
  rw [or_shift (k := 32) (by omega), or_shift (k := 48) (by omega), or_shift (k := 56) (by omega)]

/-- The compact form of an entry. -/
structure SeqEntry.Packs (s : SeqEntry) (e : FseEntry) : Prop where
  baseValue : s.baseValue = e.baseValue.toNat
  nextState : s.nextState = e.nextState.toNat
  nbBits : s.nbBits = e.nbBits.toNat
  nbAdditionalBits : s.nbAdditionalBits = e.nbAdditionalBits.toNat

theorem SeqEntry.new_packs (e : FseEntry) : (SeqEntry.new e).Packs e := by
  have hbase := e.baseValue.toNat_lt
  have hnext := e.nextState.toNat_lt
  have hbits := e.nbBits.toNat_lt
  have hadd := e.nbAdditionalBits.toNat_lt
  have hpacked := SeqEntry.packed_new e
  constructor
  · rw [SeqEntry.baseValue, hpacked]
    omega
  · rw [SeqEntry.nextState, hpacked, Nat.shiftRight_eq_div_pow]
    omega
  · rw [SeqEntry.nbBits, hpacked, Nat.shiftRight_eq_div_pow]
    omega
  · rw [SeqEntry.nbAdditionalBits, hpacked, Nat.shiftRight_eq_div_pow]
    omega

theorem SeqEntry.empty_packs : (⟨0⟩ : SeqEntry).Packs .empty := by
  constructor <;> rfl

/-- A table that sequences are decoded with: what a state has is what was built, within bounds. -/
structure FseTable.Serves (t : FseTable) (max : Nat) : Prop where
  tableLog : t.tableLog ≤ maxFseLog
  packs : ∀ state, (t.seqEntry state).Packs (t.slot state)
  nbBits : ∀ state, (t.slot state).nbBits.toNat ≤ maxFseLog
  nbAdditionalBits : ∀ state, (t.slot state).nbAdditionalBits.toNat ≤ max

/-- Tables that are let through serve. -/
theorem FseTable.new_serves {tableLog max : Nat} {entries : List FseEntry}
    (h : (FseTable.new tableLog entries).fits max = true) : (FseTable.new tableLog entries).Serves max := by
  have hmax : (FseTable.new tableLog entries).seqMaxAdditionalBits =
      if wellFormed tableLog entries then (entries.map fun e => e.nbAdditionalBits.toNat).max? else none := rfl
  rw [fits, hmax] at h
  by_cases hwell : wellFormed tableLog entries = true
  · rw [if_pos hwell] at h
    rw [wellFormed, Bool.and_eq_true, decide_eq_true_eq, List.all_eq_true] at hwell
    obtain ⟨⟨hlog, hlength⟩, hbits⟩ := hwell
    have hsize : entries.length ≤ seqTableSlots := by
      rw [hlength]
      exact Nat.pow_le_pow_right (by decide) hlog
    have hslot : ∀ state, ((FseTable.new tableLog entries).slot state).nbBits.toNat ≤ maxFseLog ∧
        ((FseTable.new tableLog entries).slot state).nbAdditionalBits.toNat ≤ max := by
      intro state
      cases hat : entries[state % seqTableSlots]? with
      | none =>
        have hempty : (FseTable.new tableLog entries).slot state = .empty := by
          show (entries[state % seqTableSlots]?).getD .empty = .empty
          rw [hat]
          rfl
        rw [hempty]
        exact ⟨Nat.zero_le _, Nat.zero_le _⟩
      | some e =>
        have hentry : (FseTable.new tableLog entries).slot state = e := by
          show (entries[state % seqTableSlots]?).getD .empty = e
          rw [hat]
          rfl
        have hmem := List.mem_of_getElem? hat
        have hle := of_decide_eq_true (hbits e hmem)
        rw [hentry]
        refine ⟨by omega, ?_⟩
        cases hmost : (entries.map fun e => e.nbAdditionalBits.toNat).max? with
        | none =>
          rw [hmost] at h
          cases h
        | some m =>
          rw [hmost] at h
          have hm := of_decide_eq_true h
          exact Nat.le_trans ((List.max?_eq_some_iff.mp hmost).2 _ (List.mem_map_of_mem hmem)) hm
    refine
      { tableLog := hlog
        packs := ?_
        nbBits := fun state => (hslot state).1
        nbAdditionalBits := fun state => (hslot state).2 }
    intro state
    have hmask : state &&& (seqTableSlots - 1) = state % seqTableSlots :=
      Nat.and_two_pow_sub_one_eq_mod state maxFseLog
    rw [seqEntry, hmask]
    show SeqEntry.Packs ((((entries.take seqTableSlots).map SeqEntry.new ++
      List.replicate (seqTableSlots - entries.length) ⟨0⟩)[state % seqTableSlots]?).getD ⟨0⟩)
      ((entries[state % seqTableSlots]?).getD .empty)
    rw [List.take_of_length_le hsize]
    by_cases hin : state % seqTableSlots < entries.length
    · rw [List.getElem?_append_left (by rw [List.length_map]; exact hin), List.getElem?_map,
        List.getElem?_eq_getElem hin]
      exact SeqEntry.new_packs _
    · have hpast : entries[state % seqTableSlots]? = none := List.getElem?_eq_none (by omega)
      rw [List.getElem?_append_right (by rw [List.length_map]; omega), List.getElem?_replicate, hpast]
      by_cases hpad : state % seqTableSlots - (entries.map SeqEntry.new).length <
          seqTableSlots - entries.length
      · rw [if_pos hpad]
        exact SeqEntry.empty_packs
      · rw [if_neg hpad]
        exact SeqEntry.empty_packs
  · rw [if_neg hwell] at h
    cases h

/-- Tables that are built from their entries, as they all are, and let through. -/
structure SeqTables.Serve (t : SeqTables) : Prop where
  ll : t.ll.Serves llMaxBits
  of : t.of.Serves ofMaxBits
  ml : t.ml.Serves mlMaxBits

/-- The tables that three lists of entries make. -/
def SeqTables.built (ll of ml : Nat × List FseEntry) : SeqTables :=
  { ll := .new ll.1 ll.2, of := .new of.1 of.2, ml := .new ml.1 ml.2 }

theorem SeqTables.built_serve {ll of ml : Nat × List FseEntry} (h : (SeqTables.built ll of ml).fit = true) :
    (SeqTables.built ll of ml).Serve := by
  rw [fit, Bool.and_eq_true, Bool.and_eq_true] at h
  obtain ⟨⟨hll, hml⟩, hof⟩ := h
  exact ⟨FseTable.new_serves hll, FseTable.new_serves hof, FseTable.new_serves hml⟩

/-! ## Sequences -/

theorem resolveOffset_plain {value literalLength : Nat} (reps : RepOffsets) (hpos : 0 < value) :
    resolveOffset value literalLength reps = plainOffset value literalLength reps := by
  by_cases hnew : 3 < value
  · rw [resolveOffset, if_pos hnew]
    match value, hnew with
    | value + 4, _ => cases literalLength <;> rfl
  · have hcases : value = 1 ∨ value = 2 ∨ value = 3 := by omega
    rcases hcases with rfl | rfl | rfl <;> cases literalLength <;> rfl

/-- The decoder stands where the plain one does. -/
structure SeqDecoder.Matches (d : SeqDecoder) (p : PlainDecoder) : Prop where
  reader : d.reader.Holds p.reader
  states : d.states = p.states
  reps : d.reps = p.reps

/-- The plain procedure with its reader moved on by what was read. -/
theorem plainSequence_eq (tables : SeqTables) (p : PlainDecoder) (update : Bool) :
    plainSequence tables p update =
      (let of := tables.of.slot p.states.of
       let ml := tables.ml.slot p.states.ml
       let ll := tables.ll.slot p.states.ll
       let first := of.nbAdditionalBits.toNat + ml.nbAdditionalBits.toNat
       let rest := p.reader.skip first
       let literalLength := (ll.baseValue.toNat + (rest.read ll.nbAdditionalBits.toNat).1) % 2 ^ 32
       let resolved := plainOffset
         (2 ^ of.nbAdditionalBits.toNat + (p.reader.read of.nbAdditionalBits.toNat).1) literalLength p.reps
       let seq : Sequence :=
         { literalLength
           matchLength := (ml.baseValue.toNat +
             ((p.reader.skip of.nbAdditionalBits.toNat).read ml.nbAdditionalBits.toNat).1) % 2 ^ 32
           offset := resolved.1 }
       let afterLl := ll.nbAdditionalBits.toNat + ll.nbBits.toNat
       let afterMl := afterLl + ml.nbBits.toNat
       if update then
         (seq,
           { reader := rest.skip (afterMl + of.nbBits.toNat)
             states :=
               { ll := ll.nextState.toNat + ((rest.skip ll.nbAdditionalBits.toNat).read ll.nbBits.toNat).1
                 of := of.nextState.toNat + ((rest.skip afterMl).read of.nbBits.toNat).1
                 ml := ml.nextState.toNat + ((rest.skip afterLl).read ml.nbBits.toNat).1 }
             reps := resolved.2 })
       else (seq, { p with reader := rest.skip ll.nbAdditionalBits.toNat, reps := resolved.2 })) := by
  rw [plainSequence]
  simp only [PlainReader.read_snd, PlainReader.skip_skip, Nat.add_assoc]

/-- One sequence. -/
theorem decodeSequence_plain {tables : SeqTables} (ht : tables.Serve) {d : SeqDecoder} {p : PlainDecoder}
    (h : d.Matches p) (update : Bool) :
    ∃ d', decodeSequence tables d update = .ok ((plainSequence tables p update).1, d') ∧
      d'.Matches (plainSequence tables p update).2 := by
  have hofPacks := ht.of.packs p.states.of
  have hmlPacks := ht.ml.packs p.states.ml
  have hllPacks := ht.ll.packs p.states.ll
  have hofBits := ht.of.nbAdditionalBits p.states.of
  have hmlBits := ht.ml.nbAdditionalBits p.states.ml
  have hllBits := ht.ll.nbAdditionalBits p.states.ll
  have hofNb := ht.of.nbBits p.states.of
  have hmlNb := ht.ml.nbBits p.states.ml
  have hllNb := ht.ll.nbBits p.states.ll
  rw [plainSequence_eq]
  rw [decodeSequence]
  simp only [h.states, h.reps, hofPacks.nbAdditionalBits, hofPacks.nbBits, hofPacks.nextState,
    hmlPacks.nbAdditionalBits, hmlPacks.nbBits, hmlPacks.nextState, hmlPacks.baseValue,
    hllPacks.nbAdditionalBits, hllPacks.nbBits, hllPacks.nextState, hllPacks.baseValue]
  generalize tables.of.slot p.states.of = of at *
  generalize tables.ml.slot p.states.ml = ml at *
  generalize tables.ll.slot p.states.ll = ll at *
  simp only [ofMaxBits, mlMaxBits, llMaxBits, maxFseLog] at hofBits hmlBits hllBits hofNb hmlNb hllNb
  -- The first group.
  have hfirst := h.reader.refill
  have hcbits : d.reader.refill.cbits = 56 := rfl
  obtain ⟨r, hconsume, hafter, hleft⟩ :=
    hfirst.consume (of.nbAdditionalBits.toNat + ml.nbAdditionalBits.toNat) (by omega)
  rw [hfirst.peekAt 0 of.nbAdditionalBits.toNat (by omega),
    hfirst.peekAt of.nbAdditionalBits.toNat ml.nbAdditionalBits.toNat (by omega), hconsume]
  -- The second group, of which there is enough in either case.
  generalize hneed : ll.nbAdditionalBits.toNat + ll.nbBits.toNat + ml.nbBits.toNat + of.nbBits.toNat = need
  have hsecond : ∃ r', (if r.available < need then r.refill else r) = r' ∧
      r'.Holds (p.reader.skip (of.nbAdditionalBits.toNat + ml.nbAdditionalBits.toNat)) ∧ need ≤ r'.cbits := by
    by_cases hfew : r.available < need
    · exact ⟨_, if_pos hfew, hafter.refill, (by omega : need ≤ 56)⟩
    · exact ⟨_, if_neg hfew, hafter, Nat.le_of_not_lt hfew⟩
  obtain ⟨r', hrefilled, hrest, henough⟩ := hsecond
  simp only [bind, Except.bind, hrefilled]
  rw [hrest.peekAt 0 ll.nbAdditionalBits.toNat (by omega)]
  have hvalue : (2 ^ of.nbAdditionalBits.toNat +
      ((p.reader.skip 0).read of.nbAdditionalBits.toNat).1) % 2 ^ 32 =
      2 ^ of.nbAdditionalBits.toNat + (p.reader.read of.nbAdditionalBits.toNat).1 := by
    have hread := p.reader.read_lt of.nbAdditionalBits.toNat
    have hpow : 2 ^ of.nbAdditionalBits.toNat ≤ 2 ^ 31 := Nat.pow_le_pow_right (by decide) hofBits
    exact Nat.mod_eq_of_lt (by
      show 2 ^ of.nbAdditionalBits.toNat + (p.reader.read of.nbAdditionalBits.toNat).1 < 2 ^ 32
      omega)
  have hpos : 0 < 2 ^ of.nbAdditionalBits.toNat + (p.reader.read of.nbAdditionalBits.toNat).1 :=
    Nat.lt_of_lt_of_le (Nat.two_pow_pos _) (Nat.le_add_right _ _)
  simp only [hvalue, resolveOffset_plain _ hpos]
  cases update with
  | false =>
    obtain ⟨r'', hconsume', hlast, _⟩ := hrest.consume ll.nbAdditionalBits.toNat (by omega)
    rw [hconsume']
    exact ⟨_, rfl, ⟨hlast, rfl, rfl⟩⟩
  | true =>
    obtain ⟨r'', hconsume', hlast, _⟩ := hrest.consume need henough
    rw [hrest.peekAt ll.nbAdditionalBits.toNat ll.nbBits.toNat (by omega),
      hrest.peekAt (ll.nbAdditionalBits.toNat + ll.nbBits.toNat) ml.nbBits.toNat (by omega),
      hrest.peekAt (ll.nbAdditionalBits.toNat + ll.nbBits.toNat + ml.nbBits.toNat) of.nbBits.toNat (by omega),
      hconsume']
    exact ⟨_, rfl, ⟨hlast, rfl, rfl⟩⟩

theorem plainSequence_total (tables : SeqTables) (p : PlainDecoder) (update : Bool) :
    (plainSequence tables p update).2.reader.total = p.reader.total := by
  rw [plainSequence_eq]
  cases update <;> rfl

theorem plainSequences_total (tables : SeqTables) (n : Nat) (p : PlainDecoder) :
    (plainSequences tables n p).2.reader.total = p.reader.total := by
  induction n generalizing p with
  | zero => rfl
  | succ n ih =>
    show (plainSequences tables n (plainSequence tables p (n != 0)).2).2.reader.total = p.reader.total
    rw [ih, plainSequence_total]

/-- `n` sequences, the last without a state update where `last` says so. -/
def plainBatch (tables : SeqTables) (last : Bool) : Nat → PlainDecoder → List Sequence × PlainDecoder
  | 0, d => ([], d)
  | n + 1, d =>
    let (seq, d) := plainSequence tables d (!(last && n == 0))
    let (seqs, d) := plainBatch tables last n d
    (seq :: seqs, d)

theorem plainBatch_last (tables : SeqTables) (n : Nat) (p : PlainDecoder) :
    plainBatch tables true n p = plainSequences tables n p := by
  induction n generalizing p with
  | zero => rfl
  | succ n ih =>
    rw [plainBatch, plainSequences]
    simp only [Bool.true_and, ih]
    rfl

/-- A batch that others follow, and what follows. -/
theorem plainBatch_add (tables : SeqTables) (m : Nat) {n : Nat} (hn : 0 < n) (p : PlainDecoder) :
    plainSequences tables (m + n) p =
      ((plainBatch tables false m p).1 ++ (plainSequences tables n (plainBatch tables false m p).2).1,
        (plainSequences tables n (plainBatch tables false m p).2).2) := by
  induction m generalizing p with
  | zero =>
    rw [Nat.zero_add]
    rfl
  | succ m ih =>
    have hmore : (m + n != 0) = !(false && m == 0) := by
      rw [Bool.false_and, Bool.not_false, bne_iff_ne]
      omega
    rw [show m + 1 + n = m + n + 1 by omega, plainSequences, plainBatch]
    simp only [hmore, ih]
    rfl

theorem decodeBatch_plain {tables : SeqTables} (ht : tables.Serve) (last : Bool) (n : Nat) {d : SeqDecoder}
    {p : PlainDecoder} (h : d.Matches p) :
    ∃ d', decodeBatch tables last n d = .ok ((plainBatch tables last n p).1, d') ∧
      d'.Matches (plainBatch tables last n p).2 := by
  induction n generalizing d p with
  | zero => exact ⟨d, rfl, h⟩
  | succ n ih =>
    obtain ⟨d₁, hone, hmatches⟩ := decodeSequence_plain ht h (!(last && n == 0))
    obtain ⟨d₂, hrest, hmatches'⟩ := ih hmatches
    refine ⟨d₂, ?_, hmatches'⟩
    rw [decodeBatch, hone]
    simp only [bind, Except.bind, hrest]
    rfl

theorem decodeBatches_plain {tables : SeqTables} (ht : tables.Serve) {ns : List Nat}
    (hpos : ∀ n ∈ ns, 0 < n) {d : SeqDecoder} {p : PlainDecoder} (h : d.Matches p) :
    ∃ d', decodeBatches tables ns d = .ok ((plainSequences tables ns.sum p).1, d') ∧
      d'.Matches (plainSequences tables ns.sum p).2 := by
  induction ns generalizing d p with
  | nil => exact ⟨d, rfl, h⟩
  | cons n ns ih =>
    have hrest : ∀ m ∈ ns, 0 < m := fun m hm => hpos m (List.mem_cons_of_mem _ hm)
    cases ns with
    | nil =>
      obtain ⟨d', hbatch, hmatches⟩ := decodeBatch_plain ht true n h
      rw [plainBatch_last] at hbatch hmatches
      refine ⟨d', ?_, hmatches⟩
      rw [decodeBatches, List.isEmpty_nil, hbatch]
      simp only [bind, Except.bind, decodeBatches, List.append_nil]
      rfl
    | cons m ns =>
      have hsum : 0 < (m :: ns).sum := by
        have hm := hrest m List.mem_cons_self
        rw [List.sum_cons]
        omega
      obtain ⟨d₁, hbatch, hmatches⟩ := decodeBatch_plain ht false n h
      obtain ⟨d₂, hmore, hmatches'⟩ := ih hrest hmatches
      have hsplit := plainBatch_add tables n hsum p
      rw [← List.sum_cons] at hsplit
      rw [hsplit]
      refine ⟨d₂, ?_, hmatches'⟩
      rw [decodeBatches, List.isEmpty_cons, hbatch]
      simp only [bind, Except.bind, hmore]

/-- The initial states. -/
theorem startDecoder_plain {tables : SeqTables} (ht : tables.Serve) {data : List Byte} {total : Nat}
    (h : streamBits data = .ok total) (reps : RepOffsets) :
    ∃ d, startDecoder data tables reps = .ok d ∧ d.Matches (plainStart data total tables reps) := by
  have hll := ht.ll.tableLog
  have hof := ht.of.tableLog
  have hml := ht.ml.tableLog
  rw [maxFseLog] at hll hof hml
  obtain ⟨r, hnew, hholds, hcbits⟩ := SeqBitReader.new_holds h
  obtain ⟨r₁, hread₁, hholds₁, hcbits₁⟩ := hholds.read tables.ll.tableLog (by omega)
  obtain ⟨r₂, hread₂, hholds₂, hcbits₂⟩ := hholds₁.read tables.of.tableLog (by omega)
  obtain ⟨r₃, hread₃, hholds₃, _⟩ := hholds₂.read tables.ml.tableLog (by omega)
  rw [startDecoder, hnew]
  simp only [bind, Except.bind, hread₁, hread₂, hread₃]
  refine ⟨_, rfl, ?_⟩
  rw [plainStart]
  simp only [PlainReader.read_snd]
  exact ⟨hholds₃, rfl, rfl⟩

theorem plainStart_total (data : List Byte) (total : Nat) (tables : SeqTables) (reps : RepOffsets) :
    (plainStart data total tables reps).reader.total = total := by
  rw [plainStart]
  simp only [PlainReader.read_snd]
  rfl

theorem startDecoder_error {data : List Byte} {e : ZstdFault} (h : streamBits data = .error e)
    (tables : SeqTables) (reps : RepOffsets) : startDecoder data tables reps = .error e := by
  rw [startDecoder, SeqBitReader.new, h]
  rfl

/-- Sequences decoded in batches of any sizes. -/
def decodeInBatches (data : List Byte) (tables : SeqTables) (reps : RepOffsets) (ns : List Nat) :
    Except ZstdFault (List Sequence × SeqDecoder) := do
  let d ← startDecoder data tables reps
  decodeBatches tables ns d

/-- Decoding in batches of any sizes is reading every field bit by bit: no peek goes past the bits
held, and an overread is told exactly where there was one. -/
theorem decodeInBatches_plain (data : List Byte) (ll of ml : Nat × List FseEntry) (reps : RepOffsets)
    (ns : List Nat) (hfit : (SeqTables.built ll of ml).fit = true) (hpos : ∀ n ∈ ns, 0 < n) :
    match streamBits data with
    | .error e => decodeInBatches data (.built ll of ml) reps ns = .error e
    | .ok total =>
      let plain := plainSequences (.built ll of ml) ns.sum (plainStart data total (.built ll of ml) reps)
      ∃ d, decodeInBatches data (.built ll of ml) reps ns = .ok (plain.1, d) ∧
        d.states = plain.2.states ∧ d.reps = plain.2.reps ∧
        (d.reader.isOverflowed = true ↔ total < plain.2.reader.taken) := by
  have ht := SeqTables.built_serve hfit
  cases hstream : streamBits data with
  | error e =>
    simp only
    rw [decodeInBatches, startDecoder_error hstream]
    rfl
  | ok total =>
    obtain ⟨d, hstart, hmatches⟩ := startDecoder_plain ht hstream reps
    obtain ⟨d', hbatches, hmatches'⟩ := decodeBatches_plain ht hpos hmatches
    refine ⟨d', ?_, hmatches'.states, hmatches'.reps, ?_⟩
    · rw [decodeInBatches, hstart]
      exact hbatches
    · rw [hmatches'.reader.isOverflowed, PlainReader.overread, decide_eq_true_eq, plainSequences_total, plainStart_total]

/-- Tables of one entry each: no literals, matches of three to six bytes, offsets from 4 on. -/
def shortTables : SeqTables :=
  .built (0, [.empty]) (0, [{ FseEntry.empty with nbAdditionalBits := 2 }])
    (0, [{ FseEntry.empty with nbAdditionalBits := 2, baseValue := 3 }])

/-- Three sequences out of 11 bits, in batches of two and one. -/
theorem decodeInBatches_plain_three :
    match streamBits [0b11100110, 0b1010] with
    | .error e => decodeInBatches [0b11100110, 0b1010] shortTables ⟨1, 4, 8⟩ [2, 1] = .error e
    | .ok total =>
      let plain := plainSequences shortTables [2, 1].sum
        (plainStart [0b11100110, 0b1010] total shortTables ⟨1, 4, 8⟩)
      ∃ d, decodeInBatches [0b11100110, 0b1010] shortTables ⟨1, 4, 8⟩ [2, 1] = .ok (plain.1, d) ∧
        d.states = plain.2.states ∧ d.reps = plain.2.reps ∧
        (d.reader.isOverflowed = true ↔ total < plain.2.reader.taken) :=
  decodeInBatches_plain [0b11100110, 0b1010] _ _ _ ⟨1, 4, 8⟩ [2, 1] (by decide) (by decide)

end Iluvatar
