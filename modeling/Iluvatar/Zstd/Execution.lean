/-
Executing the sequences of a block, beside the plain procedure.

The plain procedure appends to a growing list, byte by byte for a match.  The code writes
whole chunks into a buffer with room for the largest block and the slack, and the buffer up
to the cursor is the list all the way.
-/
import Iluvatar.Zstd.Copying

namespace Iluvatar

open Buffer

/-- One sequence: literals, then a match, onto the output `out`; `left` are the literals left. -/
def naiveSequence (blockStart maxBack : Nat) (out left : List Byte) (seq : Sequence) :
    Option (List Byte × List Byte) :=
  if left.length < seq.literalLength then none
  else
    let out := out ++ left.take seq.literalLength
    if maxBlockSize < out.length - blockStart then none
    else if seq.offset = 0 ∨ out.length - blockStart + maxBack < seq.offset then none
    else
      match extend seq.offset seq.matchLength out with
      | none => none
      | some out =>
        if maxBlockSize < out.length - blockStart then none
        else some (out, left.drop seq.literalLength)

def naiveSequences (blockStart maxBack : Nat) :
    List Byte → List Byte → List Sequence → Option (List Byte × List Byte)
  | out, left, [] => some (out, left)
  | out, left, seq :: seqs =>
    match naiveSequence blockStart maxBack out left seq with
    | none => none
    | some (out, left) => naiveSequences blockStart maxBack out left seqs

/-- The plain procedure: the output with the block appended. -/
def naiveBlock (history literals : List Byte) (maxBack : Nat) (seqs : List Sequence) :
    Option (List Byte) :=
  match naiveSequences history.length maxBack history literals seqs with
  | none => none
  | some (out, left) =>
    if maxBlockSize < (out ++ left).length - history.length then none else some (out ++ left)

/-- The same output, or an error that leaves the history as it was. -/
inductive SameOutcome (history : List Byte) : Option (List Byte) → Except ZstdFault Unit × List Byte → Prop
  | produced (out : List Byte) : SameOutcome history (some out) (.ok (), out)
  | refused (text : String) : SameOutcome history none (.error (.error text), history)

/-- From `st` to `st'` the bytes up to the cursor stayed, and so did the buffer's length. -/
structure Keeps (st st' : Execution) : Prop where
  length : st'.out.length = st.out.length
  forward : st.op ≤ st'.op
  produced : st'.out.take st.op = st.out.take st.op

theorem Keeps.refl (st : Execution) : Keeps st st := ⟨rfl, Nat.le_refl _, rfl⟩

theorem Keeps.before {st st' : Execution} (h : Keeps st st') {n : Nat} (hn : n ≤ st.op) :
    st'.out.take n = st.out.take n := by
  have hproduced := congrArg (List.take n) h.produced
  rwa [List.take_take, List.take_take, Nat.min_eq_left hn] at hproduced

theorem Keeps.trans {st st' st'' : Execution} (h : Keeps st st') (h' : Keeps st' st'') : Keeps st st'' := by
  refine ⟨h'.length.trans h.length, Nat.le_trans h.forward h'.forward, ?_⟩
  rw [h'.before h.forward, h.produced]

/-- The buffer up to the cursor is the plain procedure's output. -/
structure Agrees (c : ExecutionContext) (history : List Byte) (st : Execution) (out left : List Byte) :
    Prop where
  length : st.out.length = c.limit + wildcopySlack
  start : c.blockStart ≤ st.op
  limit : st.op ≤ c.limit
  output : st.out.take st.op = out
  history : st.out.take c.blockStart = history
  taken : st.litPos ≤ c.literals.length
  left : c.literals.drop st.litPos = left

/-- What the execution comes to beside what the plain procedure comes to. -/
inductive Executes (c : ExecutionContext) (history : List Byte) (st : Execution) :
    Option (List Byte × List Byte) → Except ZstdFault Unit × Execution → Prop
  | done {st' : Execution} {out left : List Byte} (hagrees : Agrees c history st' out left)
      (hkeeps : Keeps st st') : Executes c history st (some (out, left)) (.ok (), st')
  | refused {st' : Execution} (text : String) (hkeeps : Keeps st st') :
      Executes c history st none (.error (.error text), st')

theorem Executes.agrees {c : ExecutionContext} {history : List Byte} {st st' : Execution}
    {plain : Option (List Byte × List Byte)} (h : Executes c history st plain (.ok (), st')) :
    ∃ out left, Agrees c history st' out left := by
  cases h with
  | done hagrees _ => exact ⟨_, _, hagrees⟩

namespace Agrees

variable {c : ExecutionContext} {history out left : List Byte} {st : Execution}

theorem out_length (h : Agrees c history st out left) : out.length = st.op := by
  have hlength := h.length
  have hlimit := h.limit
  rw [← h.output, List.length_take]
  omega

theorem left_length (h : Agrees c history st out left) : left.length = c.literals.length - st.litPos := by
  rw [← h.left, List.length_drop]

/-- A longer output still has the history. -/
theorem advance {st' : Execution} {out' left' : List Byte} (h : Agrees c history st out left)
    (hkeeps : Keeps st st') (hlimit : st'.op ≤ c.limit) (houtput : st'.out.take st'.op = out')
    (htaken : st'.litPos ≤ c.literals.length) (hleft : c.literals.drop st'.litPos = left') :
    Agrees c history st' out' left' :=
  { length := hkeeps.length.trans h.length
    start := Nat.le_trans h.start hkeeps.forward
    limit := hlimit
    output := houtput
    history := (hkeeps.before h.start).trans h.history
    taken := htaken
    left := hleft }

/-- The literals of a sequence. -/
theorem copyLiterals (h : Agrees c history st out left) {n : Nat} (hleft : n ≤ left.length)
    (hroom : n ≤ c.limit - st.op) :
    ∃ buf, c.copyLiterals st n = .ok buf ∧
      Keeps st { out := buf, op := st.op + n, litPos := st.litPos + n } ∧
      Agrees c history { out := buf, op := st.op + n, litPos := st.litPos + n } (out ++ left.take n)
        (left.drop n) := by
  have hlength := h.length
  have hlimit := h.limit
  have htaken := h.taken
  rw [h.left_length] at hleft
  rw [wildcopySlack] at hlength
  obtain ⟨buf, hcopy, hbuf, htake⟩ := @ExecutionContext.copyLiterals_appends c st n (by omega) (by omega)
  rw [h.output, h.left] at htake
  have hkeeps : Keeps st { out := buf, op := st.op + n, litPos := st.litPos + n } := by
    refine ⟨hbuf, Nat.le_add_right _ _, ?_⟩
    have hbefore := congrArg (List.take st.op) htake
    rwa [List.take_take, Nat.min_eq_left (by omega), List.take_append_of_le_length (Nat.le_of_eq h.out_length.symm), ← h.output, List.take_take, Nat.min_self] at hbefore
  refine ⟨buf, hcopy, hkeeps, h.advance hkeeps ?_ htake ?_ ?_⟩
  · show st.op + n ≤ c.limit
    omega
  · show st.litPos + n ≤ c.literals.length
    omega
  · rw [← h.left, List.drop_drop]

/-- The match of a sequence. -/
theorem copyMatch (h : Agrees c history st out left) (hback : c.maxBack ≤ c.blockStart)
    {offset n : Nat} (hpos : offset ≠ 0) (hnear : offset ≤ st.op - c.blockStart + c.maxBack)
    (hroom : n ≤ c.limit - st.op) :
    ∃ buf out', Iluvatar.copyMatch st.out st.op offset n = .ok buf ∧ extend offset n out = some out' ∧
      Keeps st { st with out := buf, op := st.op + n } ∧
      Agrees c history { st with out := buf, op := st.op + n } out' left := by
  have hlength := h.length
  have hlimit := h.limit
  have hstart := h.start
  rw [wildcopySlack] at hlength
  obtain ⟨buf, hcopy, hbuf, hextend⟩ := @copyMatch_extends st.out st.op offset n (by omega)
    (by omega) (by omega)
  rw [h.output] at hextend
  have hkeeps : Keeps st { st with out := buf, op := st.op + n } := by
    refine ⟨hbuf, Nat.le_add_right _ _, ?_⟩
    have hbefore := (extend_appends hextend).1
    rwa [h.out_length, List.take_take, Nat.min_eq_left (Nat.le_add_right _ _), ← h.output] at hbefore
  refine ⟨buf, _, hcopy, hextend, hkeeps, h.advance hkeeps ?_ rfl h.taken h.left⟩
  show st.op + n ≤ c.limit
  omega

end Agrees

namespace ExecutionContext

variable {c : ExecutionContext} {history out left : List Byte} {st : Execution}

/-- One sequence. -/
theorem executeSequence_executes (h : Agrees c history st out left) (hback : c.maxBack ≤ c.blockStart)
    (i : Nat) (seq : Sequence) :
    Executes c history st (naiveSequence c.blockStart c.maxBack out left seq) (c.executeSequence i st seq) := by
  have hout := h.out_length
  have hleft := h.left_length
  have hstart := h.start
  have hlimit := h.limit
  have hend : c.limit = c.blockStart + maxBlockSize := rfl
  rw [naiveSequence, executeSequence]
  by_cases hmissing : left.length < seq.literalLength
  · rw [if_pos hmissing, if_pos (Or.inl (by omega))]
    exact Executes.refused _ (Keeps.refl _)
  rw [if_neg hmissing]
  have hgrown : (out ++ left.take seq.literalLength).length = st.op + seq.literalLength := by
    rw [List.length_append, List.length_take, hout]
    omega
  simp only [hgrown]
  by_cases hlong : maxBlockSize < st.op + seq.literalLength - c.blockStart
  · rw [if_pos hlong, if_pos (Or.inr (by omega))]
    exact Executes.refused _ (Keeps.refl _)
  have hfits : ¬(c.literals.length - st.litPos < seq.literalLength ∨ c.limit - st.op < seq.literalLength) := by
    omega
  rw [if_neg hlong, if_neg hfits]
  obtain ⟨buf, hcopy, hkeeps, hagrees⟩ := h.copyLiterals (by omega) (by omega : seq.literalLength ≤ c.limit - st.op)
  rw [hcopy]
  simp only
  by_cases hfar : seq.offset = 0 ∨ st.op + seq.literalLength - c.blockStart + c.maxBack < seq.offset
  · rw [if_pos hfar, if_pos (by omega)]
    exact Executes.refused _ hkeeps
  rw [if_neg hfar]
  by_cases hroom : c.limit - (st.op + seq.literalLength) < seq.matchLength
  · -- The plain procedure notices the overflow after the match.
    rw [if_pos (by omega)]
    cases hextend : extend seq.offset seq.matchLength (out ++ left.take seq.literalLength) with
    | none => exact Executes.refused _ hkeeps
    | some out' =>
      have hlength := (extend_appends hextend).2
      simp only
      rw [if_pos (by omega)]
      exact Executes.refused _ hkeeps
  have hpos : seq.offset ≠ 0 := by omega
  have hnear : seq.offset ≤ st.op + seq.literalLength - c.blockStart + c.maxBack := by omega
  have hmatches : seq.matchLength ≤ c.limit - (st.op + seq.literalLength) := by omega
  obtain ⟨buf', out', hmatch, hextend, hkeeps', hagrees'⟩ := hagrees.copyMatch hback hpos hnear hmatches
  have hlength := (extend_appends hextend).2
  rw [if_neg (by omega), hmatch, hextend]
  simp only
  rw [if_neg (by omega)]
  exact Executes.done hagrees' (hkeeps.trans hkeeps')

/-- All sequences. -/
theorem executeBatch_executes (h : Agrees c history st out left) (hback : c.maxBack ≤ c.blockStart)
    (i : Nat) (seqs : List Sequence) :
    Executes c history st (naiveSequences c.blockStart c.maxBack out left seqs) (c.executeBatch i st seqs) := by
  induction seqs generalizing i st out left with
  | nil => exact Executes.done h (Keeps.refl _)
  | cons seq seqs ih =>
    rw [naiveSequences, executeBatch]
    have hone := executeSequence_executes h hback i seq
    revert hone
    generalize naiveSequence c.blockStart c.maxBack out left seq = plain
    generalize c.executeSequence i st seq = actual
    intro hone
    cases hone with
    | refused text hkeeps => exact Executes.refused _ hkeeps
    | done hagrees hkeeps =>
      have hrest := ih hagrees (i + 1)
      revert hrest
      simp only
      generalize naiveSequences c.blockStart c.maxBack _ _ seqs = plain
      generalize c.executeBatch (i + 1) _ seqs = actual
      intro hrest
      cases hrest with
      | refused text hkeeps' => exact Executes.refused _ (hkeeps.trans hkeeps')
      | done hagrees' hkeeps' => exact Executes.done hagrees' (hkeeps.trans hkeeps')

/-- The literals that are left keep what was produced. -/
theorem trailingLiterals_keeps (h : Agrees c history st out left) : Keeps st (c.trailingLiterals st).2 := by
  have hlimit := h.limit
  have hbuf := h.length
  rw [trailingLiterals]
  by_cases hlong : c.limit - st.op < c.literals.length - st.litPos
  · rw [if_pos hlong]
    exact Keeps.refl _
  · have hlength : (c.literals.drop st.litPos).length = c.literals.length - st.litPos := List.length_drop
    rw [if_neg hlong, putBytes, if_pos (by omega)]
    exact ⟨splice_length (by omega), Nat.le_add_right _ _, take_splice_before (by omega)⟩

/-- The literals that are left, and the end of the block. -/
theorem trailingLiterals_settles (h : Agrees c history st out left) :
    SameOutcome history
      (if maxBlockSize < (out ++ left).length - c.blockStart then none else some (out ++ left))
      (settleOutput c.blockStart (c.trailingLiterals st)) := by
  have hout := h.out_length
  have hleft := h.left_length
  have hstart := h.start
  have hlimit := h.limit
  have hbuf := h.length
  have hend : c.limit = c.blockStart + maxBlockSize := rfl
  rw [List.length_append, trailingLiterals]
  by_cases hlong : maxBlockSize < out.length + left.length - c.blockStart
  · rw [if_pos hlong, if_pos (by omega), settleOutput, h.history]
    exact SameOutcome.refused _
  · rw [if_neg hlong, if_neg (by omega), h.left, putBytes, if_pos (by omega), ← hleft]
    simp only [settleOutput]
    rw [take_splice (by omega) (Nat.le_refl _), h.output, List.take_length]
    exact SameOutcome.produced _

end ExecutionContext

/-- The buffer at the start of a block. -/
theorem blockBuffer_agrees (history literals : List Byte) (maxBack : Nat) :
    Agrees { literals, blockStart := history.length, maxBack } history
      { out := blockBuffer history, op := history.length, litPos := 0 } history literals := by
  have htake : (blockBuffer history).take history.length = history := List.take_left
  refine
    { length := ?_
      start := Nat.le_refl _
      limit := Nat.le_add_right _ _
      output := htake
      history := htake
      taken := Nat.zero_le _
      left := rfl }
  rw [blockBuffer, List.length_append, List.length_replicate, ExecutionContext.limit, Nat.add_assoc]

/-- Sequences of a block, one at least, and the literals after them. -/
theorem executeDecoded_settles {history : List Byte} (literals : List Byte) {maxBack : Nat}
    {seqs : List Sequence} (hback : maxBack ≤ history.length) (hsome : seqs ≠ []) :
    SameOutcome history (naiveBlock history literals maxBack seqs)
      (executeDecoded history literals maxBack seqs) := by
  have hstart := blockBuffer_agrees history literals maxBack
  have hbatch := ExecutionContext.executeBatch_executes hstart hback 0 seqs
  rw [executeDecoded, if_neg hsome, naiveBlock]
  simp only
  revert hbatch
  simp only
  generalize naiveSequences history.length maxBack history literals seqs = plain
  generalize ExecutionContext.executeBatch { literals, blockStart := history.length, maxBack } 0
    { out := blockBuffer history, op := history.length, litPos := 0 } seqs = actual
  intro hbatch
  cases hbatch with
  | refused text hkeeps =>
    simp only [settleOutput]
    rw [hkeeps.before (Nat.le_refl _), hstart.output]
    exact SameOutcome.refused _
  | done hagrees hkeeps => exact ExecutionContext.trailingLiterals_settles hagrees

/-- The buffer a run over `seqs` starts from. -/
def ExecutionContext.atStart (c : ExecutionContext) (history : List Byte) : Execution :=
  { out := blockBuffer history, op := c.blockStart, litPos := 0 }

/-- Wherever a run stands, what comes after leaves the bytes up to the cursor, in the buffer it has. -/
def KeepsProduced (history literals : List Byte) (maxBack : Nat) (seqs : List Sequence) : Prop :=
  let c : ExecutionContext := { literals, blockStart := history.length, maxBack }
  ∀ first rest st, seqs = first ++ rest → c.executeBatch 0 (c.atStart history) first = (.ok (), st) →
    Keeps st (c.executeBatch first.length st rest).2 ∧
      ((c.executeBatch first.length st rest).1 = .ok () →
        Keeps st (c.trailingLiterals (c.executeBatch first.length st rest).2).2)

theorem keepsProduced {history : List Byte} (literals : List Byte) {maxBack : Nat} (seqs : List Sequence)
    (hback : maxBack ≤ history.length) : KeepsProduced history literals maxBack seqs := by
  intro first rest st _ hfirst
  have hbatch := ExecutionContext.executeBatch_executes (blockBuffer_agrees history literals maxBack)
    hback 0 first
  simp only [ExecutionContext.atStart] at hfirst
  rw [hfirst] at hbatch
  obtain ⟨out, left, hagrees⟩ := hbatch.agrees
  have hrest := ExecutionContext.executeBatch_executes hagrees hback first.length rest
  revert hrest
  generalize naiveSequences history.length maxBack out left rest = plain
  generalize ExecutionContext.executeBatch { literals, blockStart := history.length, maxBack }
    first.length st rest = actual
  intro hrest
  cases hrest with
  | refused text hkeeps => exact ⟨hkeeps, fun h => by cases h⟩
  | done hagrees' hkeeps =>
    exact ⟨hkeeps, fun _ => hkeeps.trans (ExecutionContext.trailingLiterals_keeps hagrees')⟩

/-- Where a block has sequences, or literals that fit, its execution is the plain procedure's. -/
theorem executeDecoded_naive (history literals : List Byte) (maxBack : Nat) (seqs : List Sequence)
    (hback : maxBack ≤ history.length) :
    (SameOutcome history (naiveBlock history literals maxBack seqs)
        (executeDecoded history literals maxBack seqs) ∧
      KeepsProduced history literals maxBack seqs) ↔
      (seqs = [] → literals.length ≤ maxBlockSize) := by
  have hkeeps := keepsProduced literals seqs hback
  by_cases hnone : seqs = []
  · subst hnone
    have hgrown : (history ++ literals).length - history.length = literals.length := by
      rw [List.length_append]
      omega
    have hcode : executeDecoded history literals maxBack [] = (.ok (), history ++ literals) := rfl
    have hplain : naiveBlock history literals maxBack [] =
        if maxBlockSize < literals.length then none else some (history ++ literals) := by
      rw [← hgrown]
      rfl
    rw [hplain, hcode]
    by_cases hlong : maxBlockSize < literals.length
    · -- The code does not look at the length of the literals here.
      rw [if_pos hlong]
      constructor
      · rintro ⟨hsame, -⟩
        cases hsame
      · intro hfits
        have hle := hfits rfl
        omega
    · rw [if_neg hlong]
      exact ⟨fun _ _ => Nat.le_of_not_lt hlong, fun _ => ⟨SameOutcome.produced _, hkeeps⟩⟩
  · exact ⟨fun _ hempty => absurd hempty hnone,
      fun _ => ⟨executeDecoded_settles literals hback hnone, hkeeps⟩⟩

/-- A match of three bytes from one back, after a byte of literals. -/
theorem executeDecoded_naive_run :
    (SameOutcome [] (naiveBlock [] [7, 9] 0 [⟨1, 3, 1⟩]) (executeDecoded [] [7, 9] 0 [⟨1, 3, 1⟩]) ∧
      KeepsProduced [] [7, 9] 0 [⟨1, 3, 1⟩]) ↔
      (([⟨1, 3, 1⟩] : List Sequence) = [] → ([7, 9] : List Byte).length ≤ maxBlockSize) :=
  executeDecoded_naive [] [7, 9] 0 [⟨1, 3, 1⟩] (Nat.le_refl 0)

/-- Without sequences, a block of literals larger than the largest block is let through. -/
theorem executeDecoded_unbounded :
    ¬ SameOutcome [] (naiveBlock [] (List.replicate (maxBlockSize + 1) 0) 0 [])
      (executeDecoded [] (List.replicate (maxBlockSize + 1) 0) 0 []) := by
  have hcode : executeDecoded [] (List.replicate (maxBlockSize + 1) 0) 0 [] =
      (.ok (), List.replicate (maxBlockSize + 1) 0) := rfl
  have hlong : maxBlockSize <
      (([] : List Byte) ++ List.replicate (maxBlockSize + 1) 0).length - ([] : List Byte).length := by
    rw [List.nil_append, List.length_replicate]
    exact Nat.lt_succ_self _
  rw [hcode, naiveBlock, naiveSequences]
  simp only
  rw [if_pos hlong]
  intro h
  cases h

end Iluvatar
