/-
How many weights are decoded: as many as the turns it takes to use up the bits, and one more.

A table may have entries that take no bits.  Where one symbol has all the slots, they all do, and
the weights have no end.
-/
import Iluvatar.Zstd.WeightsCodes

namespace Iluvatar

namespace Turns

variable {table : FseTable} {t : Turns}

/-- The stream lasts as long as its bits do. -/
theorem spell_none (n : Nat) : ∀ {t : Turns}, t.reader.bitPos ≤ t.reader.totalBits →
    (spell table n t = none ↔ t.reader.bitPos + bitsTaken table n t ≤ t.reader.totalBits) := by
  induction n with
  | zero => exact fun hin => ⟨fun _ => hin, fun _ => rfl⟩
  | succ n ih =>
    intro t hin
    have hbits := turn_bits table t
    have htotal := turn_total table t
    rw [spell, bitsTaken]
    simp only [BackwardBitReader.isOverflowed, decide_eq_true_eq]
    by_cases hover : (t.turn table).reader.totalBits < (t.turn table).reader.bitPos
    · rw [if_pos hover]
      constructor
      · intro h
        cases h
      · intro h
        omega
    · rw [if_neg hover, Option.map_eq_none_iff, ih (Nat.not_lt.mp hover)]
      omega

/-- Of `n + 1` weights the last is spelt after turn `n`, the first that uses up the bits. -/
theorem spell_length (n : Nat) : ∀ {t : Turns} {ws : List Byte}, t.reader.bitPos ≤ t.reader.totalBits →
    spell table n t = some ws →
    ∀ m, ws.length ≤ m + 1 ↔ t.reader.totalBits < t.reader.bitPos + bitsTaken table m t := by
  induction n with
  | zero =>
    intro t ws _ h
    cases h
  | succ n ih =>
    intro t ws hin h m
    have hbits := turn_bits table t
    have htotal := turn_total table t
    rw [spell] at h
    simp only [BackwardBitReader.isOverflowed, decide_eq_true_eq] at h
    by_cases hover : (t.turn table).reader.totalBits < (t.turn table).reader.bitPos
    · rw [if_pos hover] at h
      obtain rfl := Option.some.inj h
      cases m with
      | zero =>
        constructor
        · intro hshort
          exact absurd hshort (by simp)
        · intro hall
          rw [bitsTaken] at hall
          omega
      | succ m =>
        rw [bitsTaken]
        constructor
        · intro _
          omega
        · intro _
          exact Nat.le_add_left 2 m
    · rw [if_neg hover] at h
      obtain ⟨ws', hrest, rfl⟩ := Option.map_eq_some_iff.mp h
      have hlength := ih (Nat.not_lt.mp hover) hrest
      rw [List.length_cons]
      cases m with
      | zero =>
        have hone := hlength 0
        rw [bitsTaken] at hone ⊢
        omega
      | succ m =>
        have hmore := hlength m
        rw [bitsTaken]
        omega

/-- Entries that take no bits use up none. -/
theorem bitsTaken_zero (h : ∀ e ∈ table.entries, e.nbBits.toNat = 0) (n : Nat) (t : Turns) :
    bitsTaken table n t = 0 := by
  induction n generalizing t with
  | zero => rfl
  | succ n ih =>
    have hentry : (t.entry table).nbBits.toNat = 0 := by
      rw [entry, List.getD_eq_getElem?_getD]
      cases hget : table.entries[t.state]? with
      | none => rfl
      | some e => exact h e (List.mem_of_getElem? hget)
    rw [bitsTaken, hentry, ih]

end Turns

/-! ## Where decoding is refused -/

/-- A refusal has a text; a panic and a loop without an end are none. -/
def Refused {α : Type} (x : Except ZstdFault α) : Prop := ∀ f, x = .error f → ∃ text, f = .error text

theorem readNamed_refused (what : String) (r : ForwardBitReader) (n : Nat) : readNamed what r n ≠ .error .panic := by
  rw [readNamed]
  cases r.readBits n <;> simp [Except.mapError]

theorem zeroRun_refused (maxSv1 fuel : Nat) (reader : ForwardBitReader) (charnum : Nat) :
    zeroRun maxSv1 fuel reader charnum ≠ .error .panic := by
  induction fuel generalizing reader charnum with
  | zero => simp [zeroRun]
  | succ fuel ih =>
    rw [zeroRun]
    refine Except.bind_ne_error (readNamed_refused _ _ _) fun r _ => ?_
    obtain ⟨bits, r⟩ := r
    simp only
    split
    · split
      · simp
      · exact ih r _
    · simp

theorem readCount_refused (reader : ForwardBitReader) (remaining threshold : Int) (nbBits : Nat) :
    readCount reader remaining threshold nbBits ≠ .error .panic := by
  refine Except.bind_ne_error (readNamed_refused _ _ _) fun ⟨low, r⟩ _ => ?_
  simp only
  split
  · simp
  · refine Except.bind_ne_error (readNamed_refused _ _ _) fun ⟨extra, r'⟩ _ => ?_
    simp only
    split <;> simp

namespace NCountState

variable {maxSv1 : Nat} {st : NCountState}

theorem narrowed_refused (h : 1 < st.remaining) : st.narrowed ≠ .error .panic := by
  rw [narrowed]
  split
  · refine Except.bind_ne_error ?_ fun top _ => by simp
    rw [highestBit, if_neg (by omega)]
    simp
  · simp

theorem turn_refused : st.turn maxSv1 ≠ .error .panic := by
  unfold turn
  refine Except.bind_ne_error ?_ fun skipped _ => ?_
  · rw [skipZeros]
    split
    · exact zeroRun_refused _ _ _ _
    · simp
  · obtain ⟨charnum, reader⟩ := skipped
    simp only
    split
    · simp
    · refine Except.bind_ne_error (readCount_refused _ _ _ _) fun counted _ => ?_
      obtain ⟨count, reader'⟩ := counted
      simp only
      split
      · simp
      · next hmore => exact Except.bind_ne_error (narrowed_refused (Int.not_le.mp hmore)) fun st₁ _ => by simp

theorem run_refused (fuel : Nat) : st.run maxSv1 fuel ≠ .error .panic := by
  induction fuel generalizing st with
  | zero => simp [run]
  | succ fuel ih =>
    rw [run]
    refine Except.bind_ne_error turn_refused fun turned _ => ?_
    obtain ⟨more, st₁⟩ := turned
    cases more with
    | false => simp
    | true => exact ih

end NCountState

theorem refused_of_ne {α : Type} {x : Except ZstdFault α} (hpanic : x ≠ .error .panic) (hends : x ≠ .error .endless) :
    Refused x := by
  intro f hf
  cases f with
  | error text => exact ⟨text, rfl⟩
  | panic => exact absurd hf hpanic
  | endless => exact absurd hf hends

/-- A distribution is read, or refused. -/
theorem readNcount_refused (data : List Byte) {maxSymbol : Nat} (h : maxSymbol + 1 < 2 ^ 32) :
    Refused (readNcount data maxSymbol) := by
  have hinner : ∀ data actualLen, readNcountInner data maxSymbol actualLen ≠ .error .panic := by
    intro data actualLen
    refine Except.bind_ne_error (readNamed_refused _ _ _) fun ⟨raw, reader⟩ _ => ?_
    simp only
    split
    · simp
    rw [if_neg (Nat.not_le.mpr h)]
    refine Except.bind_ne_error (NCountState.run_refused _) fun st _ => ?_
    split
    · simp
    split
    · simp
    split <;> simp
  refine refused_of_ne ?_ (readNcount_ends data maxSymbol)
  rw [readNcount]
  split <;> exact hinner _ _

/-! ## The weights -/

/-- The table of the weights and its two states to start with. -/
def weightsStart (data : List Byte) : Except ZstdFault (FseTable × Turns) :=
  if data.isEmpty then .error (.error "empty FSE data for huffman weights")
  else do
    let n ← readNcount data maxWeight
    if hufWeightFseMaxLog < n.tableLog then
      .error (.error ("Huffman weight FSE table log " ++ toString n.tableLog ++ " exceeds max " ++
        toString hufWeightFseMaxLog))
    else
      let fseTable ← buildFseTable n.normalized n.maxSymbol n.tableLog none none
      if data.length < n.bytesConsumed then .error .panic
      else
        let compressed := data.drop n.bytesConsumed
        if compressed.isEmpty then .error (.error "no compressed data after FSE header")
        else do
          let reader ← BackwardBitReader.new compressed
          let (state1, reader) ← readState reader fseTable.tableLog
          let (state2, reader) ← readState reader fseTable.tableLog
          .ok (fseTable, { reader, state := state1, other := state2 })

/-- The weights end: with a refusal, or as a list of at most 255. -/
def WeightsEnd (data : List Byte) : Prop :=
  ∃ fuel, (∃ text, decompressHuffmanWeightsFse fuel data = .error (.error text)) ∨
    ∃ ws, decompressHuffmanWeightsFse fuel data = .ok ws ∧ ws.length ≤ 255

/-- Weights that are coded: a distribution of table log at most 6 with the table that is built of it, and after
it the bits of a stream, which are enough for two states. -/
structure CodedWeights (data : List Byte) (n : NCount) (table : FseTable) (bits : List Bool) : Prop where
  counts : readNcount data maxWeight = .ok n
  small : n.tableLog ≤ hufWeightFseMaxLog
  table : buildFseTable n.normalized n.maxSymbol n.tableLog none none = .ok table
  leading : (data.drop n.bytesConsumed).getLast?.any (· != 0) = true
  stream : bits = backwardBits (data.drop n.bytesConsumed)
  states : 2 * n.tableLog ≤ bits.length

/-- Where weights are coded, the bits after the two first states do not begin with the codes of 254 turns. -/
def BitsRunOut (data : List Byte) : Prop :=
  ∀ n table bits, CodedWeights data n table bits →
    ¬ Codes table.entries 254 (bitsValue (bits.take n.tableLog)) (bitsValue ((bits.drop n.tableLog).take n.tableLog))
      (bits.drop (2 * n.tableLog))

/-- The loop comes to an end, if only with a refusal. -/
def WeightsStop (data : List Byte) : Prop := ∃ fuel, decompressHuffmanWeightsFse fuel data ≠ .error .endless

/-- Where weights are coded, no symbol has all the slots of the table. -/
def SlotsShared (data : List Byte) : Prop :=
  ∀ n table bits, CodedWeights data n table bits → ∀ s : Nat, n.normalized[s]? ≠ some (2 ^ n.tableLog)

theorem readNcount_bounds {data : List Byte} {maxSymbol : Nat} {n : NCount} (h : readNcount data maxSymbol = .ok n) :
    n.bytesConsumed ≤ data.length ∧ n.maxSymbol ≤ maxSymbol := by
  have hinner : ∀ padded, readNcountInner padded maxSymbol data.length = .ok n →
      n.bytesConsumed ≤ data.length ∧ n.maxSymbol ≤ maxSymbol := by
    intro padded h
    unfold readNcountInner at h
    obtain ⟨⟨raw, reader⟩, _, h⟩ := Except.bind_eq_ok.mp h
    simp only at h
    split at h
    · cases h
    split at h
    · cases h
    obtain ⟨st, _, h⟩ := Except.bind_eq_ok.mp h
    split at h
    · cases h
    split at h
    · cases h
    · next hmany =>
      split at h
      · cases h
      · next hfits =>
        obtain rfl := Except.ok.inj h
        refine ⟨Nat.not_lt.mp hfits, ?_⟩
        show (if 0 < st.charnum then st.charnum - 1 else 0) ≤ maxSymbol
        split <;> omega
  rw [readNcount] at h
  split at h <;> exact hinner _ h

theorem decompress_start (fuel : Nat) (data : List Byte) : decompressHuffmanWeightsFse fuel data =
    weightsStart data >>= fun p => fseWeights p.1 fuel p.2.reader p.2.state p.2.other [] := by
  unfold decompressHuffmanWeightsFse weightsStart
  split
  · rfl
  cases readNcount data maxWeight with
  | error f => rfl
  | ok n =>
    simp only [bind, Except.bind]
    split
    · rfl
    cases buildFseTable n.normalized n.maxSymbol n.tableLog none none with
    | error f => rfl
    | ok table =>
      simp only
      split
      · rfl
      split
      · rfl
      · next hnonempty =>
        rw [decompressFseWeights, if_neg hnonempty]
        cases BackwardBitReader.new (data.drop n.bytesConsumed) with
        | error f => rfl
        | ok reader =>
          simp only [bind, Except.bind]
          cases readState reader table.tableLog with
          | error f => rfl
          | ok p =>
            simp only
            cases readState p.2 table.tableLog with
            | error f => rfl
            | ok q => rfl

/-- A read of a state is refused, or there are bits for it. -/
theorem readState_eq (reader : BackwardBitReader) (tableLog : Nat) :
    readState reader tableLog =
      if reader.bitsRemaining < tableLog then .error (.error "FSE bit read overflow")
      else .ok (reader.readBitsPadded tableLog) := by
  unfold readState BackwardBitReader.readBits
  split <;> rfl

theorem streamBits_ok_iff {data : List Byte} :
    (∃ total, streamBits data = .ok total) ↔ data.getLast?.any (· != 0) = true := by
  unfold streamBits
  cases data.getLast? with
  | none => simp
  | some last =>
    by_cases hzero : last = 0 <;> simp [hzero]

/-- What a distribution that is read gives the weights: a table that no entry leads out of. -/
theorem weightsTable {data : List Byte} {n : NCount} (hread : readNcount data maxWeight = .ok n) :
    ∃ entries table, buildFseTable n.normalized n.maxSymbol n.tableLog none none = .ok table ∧
      table.tableLog = n.tableLog ∧ table.entries.length = 2 ^ n.tableLog ∧
      NumberedTable n.tableLog (n.normalized.take (n.maxSymbol + 1)) entries table.entries ∧
      Turns.Closed table := by
  have hbyte : n.maxSymbol ≤ 255 := Nat.le_trans (readNcount_bounds hread).2 (by decide)
  obtain ⟨entries, out, hbuild, htable⟩ := buildFseTable_numbered (readNcount_valid hread) hbyte none none
  have hsize : out.length = 2 ^ n.tableLog := htable.length.trans htable.size
  refine ⟨entries, _, hbuild, rfl, hsize, htable, ?_⟩
  intro e he
  show _ ≤ out.length
  rw [hsize]
  exact htable.inRange e he

/-- Decoding is refused before its loop, or weights are coded. -/
theorem weightsStart_cases (data : List Byte) : (∃ text, weightsStart data = .error (.error text)) ∨
    ∃ n table bits, CodedWeights data n table bits := by
  unfold weightsStart
  split
  · exact .inl ⟨_, rfl⟩
  cases hread : readNcount data maxWeight with
  | error f =>
    obtain ⟨text, rfl⟩ := readNcount_refused data (show maxWeight + 1 < 2 ^ 32 by decide) f hread
    exact .inl ⟨text, rfl⟩
  | ok n =>
    simp only [bind, Except.bind]
    split
    · exact .inl ⟨_, rfl⟩
    next hsmall =>
    obtain ⟨_, table, hbuild, hlog, _⟩ := weightsTable hread
    rw [hbuild]
    simp only
    rw [if_neg (Nat.not_lt.mpr (readNcount_bounds hread).1)]
    split
    · exact .inl ⟨_, rfl⟩
    unfold BackwardBitReader.new
    cases hbits : streamBits (data.drop n.bytesConsumed) with
    | error f =>
      unfold streamBits at hbits
      split at hbits
      · exact .inl ⟨_, by rw [← hbits]; rfl⟩
      split at hbits
      · exact .inl ⟨_, by rw [← hbits]; rfl⟩
      · cases hbits
    | ok total =>
      simp only [bind, Except.bind, readState_eq]
      by_cases hfirst : total - 0 < table.tableLog
      · exact .inl ⟨_, by rw [if_pos (show BackwardBitReader.bitsRemaining _ < _ from hfirst)]⟩
      rw [if_neg (show ¬ BackwardBitReader.bitsRemaining _ < _ from hfirst)]
      by_cases hsecond : total - (0 + table.tableLog) < table.tableLog
      · exact .inl ⟨_, by simp only; rw [if_pos (show BackwardBitReader.bitsRemaining _ < _ from hsecond)]⟩
      · refine .inr ⟨n, table, _, hread, Nat.not_lt.mp hsmall, hbuild, streamBits_ok_iff.mp ⟨total, hbits⟩, rfl, ?_⟩
        rw [backwardBits_length hbits]
        omega

/-- The loop begins with the two first states, the rest of the bits before it. -/
structure Begins (n : NCount) (table : FseTable) (bits : List Bool) (t : Turns) : Prop where
  within : t.Within table
  inside : t.reader.bitPos ≤ t.reader.totalBits
  has : t.reader.Has (bits.drop (2 * n.tableLog)) 0
  state : t.state = bitsValue (bits.take n.tableLog)
  other : t.other = bitsValue ((bits.drop n.tableLog).take n.tableLog)

/-- A state is read where its bits are there. -/
theorem BackwardBitReader.Has.readState {r : BackwardBitReader} {bits : List Bool} (h : r.Has bits 0) {n : Nat}
    (hn : n ≤ 56) (hle : n ≤ bits.length) :
    readState r n = .ok (bitsValue (bits.take n), { r with bitPos := r.bitPos + n }) ∧
      ({ r with bitPos := r.bitPos + n } : BackwardBitReader).Has (bits.drop n) 0 := by
  have hlength := h.length
  have hnone : n - bits.length = 0 := Nat.sub_eq_zero_of_le hle
  have hpeek := h.peek hn
  rw [paddedTo, hnone, List.replicate_zero, List.append_nil] at hpeek
  have hrest := h.read n
  rw [hnone] at hrest
  refine ⟨?_, hrest⟩
  rw [readState_eq, if_neg (by omega), BackwardBitReader.readBitsPadded, hpeek]

namespace CodedWeights

variable {data : List Byte} {n : NCount} {table : FseTable} {bits : List Bool}

theorem start (h : CodedWeights data n table bits) :
    ∃ t, weightsStart data = .ok (table, t) ∧ Begins n table bits t := by
  obtain ⟨total, htotal⟩ := streamBits_ok_iff.mpr h.leading
  obtain ⟨_, _, hbuild, hlog, hsize, _, _⟩ := weightsTable h.counts
  obtain rfl := Except.ok.inj (h.table.symm.trans hbuild)
  have hsmall : n.tableLog ≤ 6 := h.small
  have hstates := h.states
  have hrest : data.drop n.bytesConsumed ≠ [] := by
    intro hnone
    have hleading := h.leading
    rw [hnone] at hleading
    cases hleading
  have hdata : data ≠ [] := by
    rintro rfl
    exact hrest List.drop_nil
  have hnew : BackwardBitReader.new (data.drop n.bytesConsumed) =
      .ok ⟨data.drop n.bytesConsumed, total, 0⟩ := by
    rw [BackwardBitReader.new, htotal]
    rfl
  have hhas : (⟨data.drop n.bytesConsumed, total, 0⟩ : BackwardBitReader).Has bits 0 :=
    ⟨htotal, h.stream, (Nat.zero_sub total).symm⟩
  obtain ⟨hfirst, hhas'⟩ := hhas.readState (n := n.tableLog) (by omega) (by omega)
  obtain ⟨hsecond, hhas''⟩ := hhas'.readState (n := n.tableLog) (by omega) (by rw [List.length_drop]; omega)
  rw [List.drop_drop, ← Nat.two_mul] at hhas''
  have hstate : ∀ stream : List Bool, bitsValue (stream.take n.tableLog) < 2 ^ n.tableLog := by
    intro stream
    refine Nat.lt_of_lt_of_le (bitsValue_lt _) (Nat.pow_le_pow_right (by decide) ?_)
    exact List.length_take_le _ _
  refine ⟨{ reader := ⟨data.drop n.bytesConsumed, total, 0 + n.tableLog + n.tableLog⟩
            state := bitsValue (bits.take n.tableLog)
            other := bitsValue ((bits.drop n.tableLog).take n.tableLog) }, ?_,
    ⟨⟨hsize ▸ hstate bits, hsize ▸ hstate (bits.drop n.tableLog)⟩, ?_, hhas'', rfl, rfl⟩⟩
  · unfold weightsStart
    rw [if_neg (by rwa [List.isEmpty_iff]), h.counts]
    simp only [bind, Except.bind]
    rw [if_neg (Nat.not_lt.mpr h.small), h.table]
    simp only
    rw [if_neg (Nat.not_lt.mpr (readNcount_bounds h.counts).1), if_neg (by rwa [List.isEmpty_iff]), hnew]
    simp only [hlog, hfirst, hsecond]
  · have hlength : bits.length = total - 0 := hhas.length
    show 0 + n.tableLog + n.tableLog ≤ total
    omega

/-- The table has no way out, and its entries are read as one. -/
theorem closed (h : CodedWeights data n table bits) :
    Turns.Closed table ∧ ∀ e ∈ table.entries, e.nbBits.toNat ≤ 56 := by
  obtain ⟨_, _, hbuild, _, hsize, _, hclosed⟩ := weightsTable h.counts
  obtain rfl := Except.ok.inj (h.table.symm.trans hbuild)
  have hsmall : n.tableLog ≤ 6 := h.small
  refine ⟨hclosed, fun e he => ?_⟩
  have hin := hclosed e he
  rw [hsize] at hin
  have hwidth := (Nat.pow_le_pow_iff_right (a := 2) (by decide)).mp (show 2 ^ e.nbBits.toNat ≤ 2 ^ n.tableLog by omega)
  omega

/-- Decoding is the spelling of the two states. -/
theorem run (h : CodedWeights data n table bits) : ∃ t, Begins n table bits t ∧
    ∀ fuel, decompressHuffmanWeightsFse fuel data =
      match Turns.spell table (2 * fuel) t with
      | none => .error .endless
      | some ws => .ok ws := by
  obtain ⟨t, hstart, hbegins⟩ := h.start
  refine ⟨t, hbegins, fun fuel => ?_⟩
  rw [decompress_start, hstart]
  exact Turns.fseWeights_spell h.closed.1 fuel [] hbegins.within

/-- The bits run out in time where the first 254 turns take more than there are. -/
theorem bitsRunOut_iff (h : CodedWeights data n table bits) {t : Turns} (hbegins : Begins n table bits t) :
    BitsRunOut data ↔ t.reader.totalBits < t.reader.bitPos + Turns.bitsTaken table 254 t := by
  obtain ⟨hclosed, hnarrow⟩ := h.closed
  have hcodes := Turns.codes_iff hclosed hnarrow 254 hbegins.within hbegins.inside hbegins.has
  rw [hbegins.state, hbegins.other] at hcodes
  constructor
  · intro hout
    exact Nat.not_le.mp fun hle => hout n table bits h (hcodes.mpr hle)
  · intro hout n' table' bits' h'
    obtain rfl := Except.ok.inj (h.counts.symm.trans h'.counts)
    obtain rfl := Except.ok.inj (h.table.symm.trans h'.table)
    obtain rfl := h.stream.trans h'.stream.symm
    exact fun hall => Nat.not_le.mpr hout (hcodes.mp hall)

theorem tableLog_pos (h : CodedWeights data n table bits) : 0 < n.tableLog :=
  Nat.lt_of_lt_of_le (by decide) (readNcount_valid h.counts).tableLog_ge

/-- Where a symbol has all the slots, no turn takes bits. -/
theorem endless (h : CodedWeights data n table bits) {s : Nat} (hall : n.normalized[s]? = some (2 ^ n.tableLog))
    (fuel : Nat) : decompressHuffmanWeightsFse fuel data = .error .endless := by
  obtain ⟨t, hbegins, hrun⟩ := h.run
  obtain ⟨_, _, hbuild, _, _, htable, _⟩ := weightsTable h.counts
  obtain rfl := Except.ok.inj (h.table.symm.trans hbuild)
  have hcount : (n.normalized.take (n.maxSymbol + 1))[s]? = some (2 ^ n.tableLog) := by
    rw [List.getElem?_take_of_lt, hall]
    by_contra hpast
    have hzero := (readNcount_valid h.counts).count_rest (by omega) hall
    exact pow_ne_zero n.tableLog (by decide) hzero
  have hfirst := (firstNumber_all h.tableLog_pos _).mpr rfl
  have htaken := Turns.bitsTaken_zero (htable.nbBits_all hcount hfirst) (2 * fuel) t
  have hnone := (Turns.spell_none (2 * fuel) hbegins.inside).mpr (by rw [htaken]; exact hbegins.inside)
  rw [hrun, hnone]

/-- Where none has, turns that take no bits go down, and the loop comes to its end. -/
theorem stops (h : CodedWeights data n table bits) (hshared : ∀ s : Nat, n.normalized[s]? ≠ some (2 ^ n.tableLog)) :
    WeightsStop data := by
  obtain ⟨t, hbegins, hrun⟩ := h.run
  obtain ⟨_, _, hbuild, _, _, htable, hclosed⟩ := weightsTable h.counts
  obtain rfl := Except.ok.inj (h.table.symm.trans hbuild)
  have hfew : ∀ (s : Nat) (count : Int), (n.normalized.take (n.maxSymbol + 1))[s]? = some count →
      firstNumber count < 2 ^ n.tableLog := by
    intro s count hcount
    have hle : firstNumber count ≤ 2 ^ n.tableLog := by
      rw [← htable.share s count hcount, ← htable.size]
      exact List.countP_le_length
    refine Nat.lt_of_le_of_ne hle fun hall => hshared s ?_
    have hcount' := (firstNumber_all h.tableLog_pos count).mp hall
    rw [List.getElem?_take] at hcount
    split at hcount
    · exact hcount' ▸ hcount
    · cases hcount
  have hends := Turns.spell_ends hclosed (fun i e he hnone => htable.falls hfew he hnone) (2 * (t.left table + 1))
    hbegins.within (by omega)
  obtain ⟨ws, hws⟩ := Option.ne_none_iff_exists'.mp hends
  refine ⟨t.left table + 1, ?_⟩
  rw [hrun, hws]
  exact fun hcontra => by cases hcontra

end CodedWeights

theorem weightsEnd_bits (data : List Byte) : WeightsEnd data ↔ BitsRunOut data := by
  rcases weightsStart_cases data with ⟨text, hrefused⟩ | ⟨n, table, bits, h⟩
  · have hanswer : decompressHuffmanWeightsFse 0 data = .error (.error text) := by
      rw [decompress_start, hrefused]
      rfl
    refine iff_of_true ⟨0, .inl ⟨text, hanswer⟩⟩ fun n table bits h => ?_
    obtain ⟨t, hstart, _⟩ := h.start
    rw [hrefused] at hstart
    cases hstart
  · obtain ⟨t, hbegins, hrun⟩ := h.run
    rw [h.bitsRunOut_iff hbegins]
    constructor
    · rintro ⟨fuel, hends⟩
      rw [hrun] at hends
      cases hspell : Turns.spell table (2 * fuel) t with
      | none =>
        rw [hspell] at hends
        rcases hends with ⟨text, hrefused⟩ | ⟨ws, hok, _⟩
        · cases hrefused
        · cases hok
      | some ws' =>
        rw [hspell] at hends
        rcases hends with ⟨text, hrefused⟩ | ⟨ws, hok, hshort⟩
        · cases hrefused
        · obtain rfl := Except.ok.inj hok
          exact (Turns.spell_length _ hbegins.inside hspell 254).mp hshort
    · intro hout
      have hnot : Turns.spell table (2 * 127) t ≠ none := by
        intro hnone
        have hlasts := (Turns.spell_none 254 hbegins.inside).mp hnone
        omega
      obtain ⟨ws, hspell⟩ := Option.ne_none_iff_exists'.mp hnot
      refine ⟨127, .inr ⟨ws, ?_, (Turns.spell_length _ hbegins.inside hspell 254).mpr hout⟩⟩
      rw [hrun, hspell]

theorem weightsStop_slots (data : List Byte) : WeightsStop data ↔ SlotsShared data := by
  rcases weightsStart_cases data with ⟨text, hrefused⟩ | ⟨n, table, bits, h⟩
  · have hanswer : decompressHuffmanWeightsFse 0 data ≠ .error .endless := by
      rw [decompress_start, hrefused]
      exact fun hcontra => by cases hcontra
    refine iff_of_true ⟨0, hanswer⟩ fun n table bits h => ?_
    obtain ⟨t, hstart, _⟩ := h.start
    rw [hrefused] at hstart
    cases hstart
  · constructor
    · rintro ⟨fuel, hstops⟩ n' table' bits' h' s hall
      exact hstops (h'.endless hall fuel)
    · exact fun hshared => h.stops (hshared n table bits h)

/-- The weights end, as at most 255, just where the bits of the stream run out in time.  They end at all just
where no symbol has all the slots. -/
theorem weightsEnd_iff (data : List Byte) :
    (WeightsEnd data ↔ BitsRunOut data) ∧ (WeightsStop data ↔ SlotsShared data) :=
  ⟨weightsEnd_bits data, weightsStop_slots data⟩

/-- A distribution that gives all the slots to symbol 0, and two bytes of stream. -/
def oneSymbol : List Byte := [0xF0, 0x03, 0xFF, 0xFF]

/-- Its weights have no end. -/
theorem oneSymbol_endless : ¬ WeightsEnd oneSymbol := by
  rintro ⟨fuel, hends⟩
  have hread : readNcount oneSymbol maxWeight = .ok ⟨32 :: List.replicate 12 0, 0, 5, 2⟩ := by decide +kernel
  obtain ⟨_, table, hbuild, _⟩ := weightsTable hread
  have hcoded : CodedWeights oneSymbol ⟨32 :: List.replicate 12 0, 0, 5, 2⟩ table (backwardBits [0xFF, 0xFF]) :=
    ⟨hread, by decide, hbuild, rfl, rfl, by decide⟩
  rw [hcoded.endless (s := 0) rfl fuel] at hends
  rcases hends with ⟨text, hrefused⟩ | ⟨ws, hok, _⟩
  · cases hrefused
  · cases hok

end Iluvatar
