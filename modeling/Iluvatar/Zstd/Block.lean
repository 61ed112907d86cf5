/-
The sequences of a block, from the bits to the output.

The code decodes a batch and executes it before it decodes the next one.  Beside it stands
the plain procedure on the sequences that the plain reader reads.
-/
import Iluvatar.Zstd.Decoding
import Iluvatar.Zstd.Execution

namespace Iluvatar

theorem naiveSequences_append (blockStart maxBack : Nat) (out left : List Byte) (seqs more : List Sequence) :
    naiveSequences blockStart maxBack out left (seqs ++ more) =
      (naiveSequences blockStart maxBack out left seqs).bind fun s =>
        naiveSequences blockStart maxBack s.1 s.2 more := by
  induction seqs generalizing out left with
  | nil => rfl
  | cons seq seqs ih =>
    rw [List.cons_append, naiveSequences, naiveSequences]
    cases naiveSequence blockStart maxBack out left seq with
    | none => rfl
    | some s => exact ih s.1 s.2

/-- The batches of a block that is under way, beside the plain procedure on what is still to come. -/
inductive Proceeds (c : ExecutionContext) (history : List Byte) (p : PlainDecoder) :
    Option (List Byte × List Byte) → Except ZstdFault Unit × SeqDecoder × Execution → Prop
  | done {d : SeqDecoder} {st : Execution} {out left : List Byte} (hagrees : Agrees c history st out left)
      (hmatches : d.Matches p) : Proceeds c history p (some (out, left)) (.ok (), d, st)
  | refused {d : SeqDecoder} {st : Execution} (text : String) (hhistory : st.out.take c.blockStart = history) :
      Proceeds c history p none (.error (.error text), d, st)

namespace ExecutionContext

theorem executeBatches_proceeds {c : ExecutionContext} {history : List Byte} {tables : SeqTables}
    (ht : tables.Serve) (hback : c.maxBack ≤ c.blockStart) (fuel i n : Nat) (hfuel : n < fuel)
    {d : SeqDecoder} {p : PlainDecoder} (hmatches : d.Matches p) {st : Execution} {out left : List Byte}
    (hagrees : Agrees c history st out left) :
    Proceeds c history (plainSequences tables n p).2
      (naiveSequences c.blockStart c.maxBack out left (plainSequences tables n p).1)
      (c.executeBatches tables fuel i n d st) := by
  induction fuel generalizing i n d p st out left with
  | zero => omega
  | succ fuel ih =>
    rw [executeBatches]
    by_cases hzero : n = 0
    · subst hzero
      rw [if_pos rfl]
      exact Proceeds.done hagrees hmatches
    rw [if_neg hzero]
    simp only
    obtain ⟨d', hbatch, hmatches'⟩ := decodeBatch_plain ht (min n seqBatch == n) (min n seqBatch) hmatches
    rw [hbatch]
    simp only
    have hexecutes := executeBatch_executes hagrees hback i
      (plainBatch tables (min n seqBatch == n) (min n seqBatch) p).1
    have hbatchSize : seqBatch = 64 := rfl
    by_cases hlast : n ≤ seqBatch
    · -- The last batch.
      have hmin : min n seqBatch = n := Nat.min_eq_left hlast
      rw [hmin, beq_self_eq_true] at hexecutes hmatches' ⊢
      rw [plainBatch_last] at hexecutes hmatches' ⊢
      revert hexecutes
      generalize naiveSequences c.blockStart c.maxBack out left (plainSequences tables n p).1 = plain
      generalize c.executeBatch i st (plainSequences tables n p).1 = actual
      intro hexecutes
      cases hexecutes with
      | refused text hkeeps =>
        exact Proceeds.refused _ ((hkeeps.before hagrees.start).trans hagrees.history)
      | done hagrees' _ =>
        have hend := ih (i + n) 0 (by omega) hmatches' hagrees'
        rw [Nat.sub_self]
        exact hend
    · have hmin : min n seqBatch = seqBatch := Nat.min_eq_right (by omega)
      have hfalse : (seqBatch == n) = false := by
        rw [beq_eq_false_iff_ne]
        omega
      have hsplit := plainBatch_add tables seqBatch (by omega : 0 < n - seqBatch) p
      rw [show seqBatch + (n - seqBatch) = n by omega] at hsplit
      rw [hmin, hfalse] at hexecutes hmatches' ⊢
      rw [hsplit]
      simp only
      rw [naiveSequences_append]
      revert hexecutes
      generalize naiveSequences c.blockStart c.maxBack out left (plainBatch tables false seqBatch p).1 = plain
      generalize c.executeBatch i st (plainBatch tables false seqBatch p).1 = actual
      intro hexecutes
      cases hexecutes with
      | refused text hkeeps =>
        exact Proceeds.refused _ ((hkeeps.before hagrees.start).trans hagrees.history)
      | done hagrees' _ => exact ih (i + seqBatch) (n - seqBatch) (by omega) hmatches' hagrees'

end ExecutionContext

/-- The plain meaning of a block with `n` sequences. -/
def plainBlock (data : List Byte) (n : Nat) (tables : SeqTables) (reps : RepOffsets)
    (literals history : List Byte) (maxBack : Nat) : Option (List Byte) :=
  match streamBits data with
  | .error _ => none
  | .ok total =>
    let plain := plainSequences tables n (plainStart data total tables reps)
    if plain.2.reader.overread then none else naiveBlock history literals maxBack plain.1

/-- What is no bitstream is an error with a text. -/
theorem streamBits_error {data : List Byte} {e : ZstdFault} (h : streamBits data = .error e) :
    ∃ text, e = .error text := by
  rw [streamBits] at h
  cases hlast : data.getLast? with
  | none =>
    rw [hlast] at h
    cases h
    exact ⟨_, rfl⟩
  | some last =>
    rw [hlast] at h
    simp only at h
    by_cases hzero : last = 0
    · rw [if_pos hzero] at h
      cases h
      exact ⟨_, rfl⟩
    · rw [if_neg hzero] at h
      cases h

namespace ExecutionContext

/-- The execution, the start of the decoder by its name. -/
theorem executeSequences_eq (c : ExecutionContext) (data : List Byte) (n : Nat) (tables : SeqTables)
    (reps : RepOffsets) (out : List Byte) : c.executeSequences data n tables reps out =
      match startDecoder data tables reps with
      | .error e => (.error e, { out, op := c.blockStart, litPos := 0 }, reps)
      | .ok d =>
        match c.executeBatches tables (n + 1) 0 n d { out, op := c.blockStart, litPos := 0 } with
        | (.error e, d, st) => (.error e, st, d.reps)
        | (.ok (), d, st) =>
          if d.reader.isOverflowed then (.error (.error "sequence bitstream overread"), st, d.reps)
          else
            let (result, st) := c.trailingLiterals st
            (result, st, d.reps) := rfl

/-- What comes of a run over the sequences, whatever deals with the literals that are left. -/
theorem trailing_eq (trailing : Execution → Except ZstdFault Unit × Execution) {d : SeqDecoder} {st : Execution}
    {actual : Except ZstdFault Unit × SeqDecoder × Execution} {ended : Except ZstdFault Unit × Execution × RepOffsets} :
    actual = (.ok (), d, st) →
    ended = (match actual with
      | (.error e, d, st) => (.error e, st, d.reps)
      | (.ok (), d, st) =>
        if d.reader.isOverflowed then (.error (.error "sequence bitstream overread"), st, d.reps)
        else
          let (result, st) := trailing st
          (result, st, d.reps)) →
    (ended.1, ended.2.1) =
      if d.reader.isOverflowed then (.error (.error "sequence bitstream overread"), st) else trailing st := by
  rintro rfl rfl
  simp only
  by_cases hover : d.reader.isOverflowed = true
  · rw [if_pos hover, if_pos hover]
  · rw [if_neg hover, if_neg hover]

section

variable {c : ExecutionContext} {data out : List Byte} {n : Nat} {tables : SeqTables} {reps : RepOffsets}
  {d d' : SeqDecoder} {st : Execution}

theorem executeSequences_refused {e : ZstdFault} (hstart : startDecoder data tables reps = .ok d)
    (h : c.executeBatches tables (n + 1) 0 n d { out, op := c.blockStart, litPos := 0 } = (.error e, d', st)) :
    c.executeSequences data n tables reps out = (.error e, st, d'.reps) := by
  rw [executeSequences_eq, hstart]
  simp only [h]

theorem executeSequences_done (hstart : startDecoder data tables reps = .ok d)
    (h : c.executeBatches tables (n + 1) 0 n d { out, op := c.blockStart, litPos := 0 } = (.ok (), d', st)) :
    ((c.executeSequences data n tables reps out).1, (c.executeSequences data n tables reps out).2.1) =
      if d'.reader.isOverflowed then (.error (.error "sequence bitstream overread"), st)
      else c.trailingLiterals st := by
  have heq := c.executeSequences_eq data n tables reps out
  rw [hstart] at heq
  exact trailing_eq c.trailingLiterals h heq

end

/-- The whole execution, from the start of the block. -/
theorem executeSequences_settles {c : ExecutionContext} {history out : List Byte} {tables : SeqTables}
    (ht : tables.Serve) (hback : c.maxBack ≤ c.blockStart)
    (hagrees : Agrees c history { out, op := c.blockStart, litPos := 0 } history c.literals)
    (data : List Byte) (n : Nat) (reps : RepOffsets) :
    SameOutcome history
      (match streamBits data with
      | .error _ => none
      | .ok total =>
        let plain := plainSequences tables n (plainStart data total tables reps)
        if plain.2.reader.overread then none
        else
          match naiveSequences c.blockStart c.maxBack history c.literals plain.1 with
          | none => none
          | some (out, left) =>
            if maxBlockSize < (out ++ left).length - c.blockStart then none else some (out ++ left))
      (settleOutput c.blockStart
        ((c.executeSequences data n tables reps out).1, (c.executeSequences data n tables reps out).2.1)) := by
  cases hstream : streamBits data with
  | error e =>
    obtain ⟨text, rfl⟩ := streamBits_error hstream
    rw [executeSequences_eq, startDecoder_error hstream]
    simp only [settleOutput, hagrees.history]
    exact SameOutcome.refused _
  | ok total =>
    obtain ⟨d, hstart, hmatches⟩ := startDecoder_plain ht hstream reps
    have hproceeds := executeBatches_proceeds ht hback (n + 1) 0 n (Nat.lt_succ_self n) hmatches hagrees
    simp only
    revert hproceeds
    generalize naiveSequences c.blockStart c.maxBack history c.literals _ = plain
    generalize hactual : c.executeBatches tables (n + 1) 0 n d { out, op := c.blockStart, litPos := 0 } = actual
    intro hproceeds
    cases hproceeds with
    | refused text hhistory =>
      rw [executeSequences_refused hstart hactual]
      simp only [ite_self, settleOutput, hhistory]
      exact SameOutcome.refused _
    | @done d' st out' left hagrees' hmatches' =>
      rw [executeSequences_done hstart hactual, hmatches'.reader.isOverflowed]
      by_cases hpast : (plainSequences tables n (plainStart data total tables reps)).2.reader.overread = true
      · rw [if_pos hpast, if_pos hpast]
        simp only [settleOutput, hagrees'.history]
        exact SameOutcome.refused _
      · rw [if_neg hpast, if_neg hpast]
        exact trailingLiterals_settles hagrees'

end ExecutionContext

/-- A block with sequences comes to what its plain meaning is. -/
theorem decodeAndExecuteSequences_plain (data : List Byte) {n : Nat} (hsome : 0 < n)
    {ll of ml : Nat × List FseEntry} (hfit : (SeqTables.built ll of ml).fit = true) (reps : RepOffsets)
    (literals : List Byte) {history : List Byte} {maxBack : Nat} (hback : maxBack ≤ history.length) :
    SameOutcome history (plainBlock data n (.built ll of ml) reps literals history maxBack)
      ((decodeAndExecuteSequences data n (.built ll of ml) reps literals history maxBack).1,
        (decodeAndExecuteSequences data n (.built ll of ml) reps literals history maxBack).2.1) := by
  have ht := SeqTables.built_serve hfit
  rw [decodeAndExecuteSequences, if_neg (by omega)]
  by_cases hempty : data = []
  · subst hempty
    rw [if_pos rfl]
    exact SameOutcome.refused _
  · rw [if_neg hempty, if_neg (by rw [hfit]; decide)]
    exact ExecutionContext.executeSequences_settles ht hback (blockBuffer_agrees history literals maxBack)
      data n reps

end Iluvatar
