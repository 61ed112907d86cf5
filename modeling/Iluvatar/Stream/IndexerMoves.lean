/-
Everything a caller can do with a `StreamIndexer`, in any order, and the invariant rule for it.

Nothing is asked of the decompressor or of what it is fed.
-/
import Iluvatar.Stream.Indexer

namespace Iluvatar

variable {σ κ τ : Type}

namespace StreamIndexer

/-- The indexers a caller can bring about from `start`, where `ok` holds before every round of
`step`. -/
inductive Reached (impl : CheckpointStrategy τ) (ok : StreamIndexer σ κ τ → Prop)
    (start : StreamIndexer σ κ τ) : StreamIndexer σ κ τ → Prop where
  | start : Reached impl ok start start
  | round {x} (h : Reached impl ok start x) (hok : ok x) :
      Reached impl ok start (stepOnce impl x).2
  | provideData {x} (h : Reached impl ok start x) (data : List Byte) :
      Reached impl ok start (x.provideData data)
  | signalEof {x} (h : Reached impl ok start x) : Reached impl ok start x.signalEof
  | setStopAt {x} (h : Reached impl ok start x) (offset : Nat) :
      Reached impl ok start (x.setStopAt offset)
  | setEmitOutput {x} (h : Reached impl ok start x) (emit : Bool) :
      Reached impl ok start (x.setEmitOutput emit)
  | readOutput {x} (h : Reached impl ok start x) (len : Nat) :
      Reached impl ok start (x.readOutput len).2

/-- What a caller does: a round of `step`, or a call. -/
inductive Move where
  | round
  | provideData (data : List Byte)
  | signalEof
  | setStopAt (offset : Nat)
  | setEmitOutput (emit : Bool)
  | readOutput (len : Nat)

def Move.apply (impl : CheckpointStrategy τ) (x : StreamIndexer σ κ τ) : Move → StreamIndexer σ κ τ
  | round => (stepOnce impl x).2
  | provideData data => x.provideData data
  | signalEof => x.signalEof
  | setStopAt offset => x.setStopAt offset
  | setEmitOutput emit => x.setEmitOutput emit
  | readOutput len => (x.readOutput len).2

/-- Move after move. -/
def run (impl : CheckpointStrategy τ) (x : StreamIndexer σ κ τ) (moves : List Move) : StreamIndexer σ κ τ :=
  moves.foldl (Move.apply impl) x

/-- A move in the middle of a run. -/
theorem run_take_succ (impl : CheckpointStrategy τ) (x : StreamIndexer σ κ τ) {moves : List Move} {k : Nat} {m : Move}
    (h : moves[k]? = some m) : run impl x (moves.take (k + 1)) = m.apply impl (run impl x (moves.take k)) := by
  rw [List.take_add_one, h, run, List.foldl_append]
  rfl

/-- A call of `step` is a number of rounds. -/
theorem Reached.step {impl : CheckpointStrategy τ} {start : StreamIndexer σ κ τ} :
    ∀ {fuel x r x'}, Reached impl (fun _ => True) start x → step impl fuel x = some (r, x') →
      Reached impl (fun _ => True) start x' := by
  intro fuel
  induction fuel with
  | zero => intro x r x' _ hstep; exact absurd hstep (by simp [StreamIndexer.step, Sansio.untilSome])
  | succ fuel ih =>
    intro x r x' h hstep
    have hround := h.round trivial
    rw [StreamIndexer.step, Sansio.untilSome] at hstep
    generalize stepOnce impl x = y at hstep hround
    obtain ⟨request, y⟩ := y
    cases request with
    | none => exact ih hround hstep
    | some request =>
      obtain ⟨_, rfl⟩ := Prod.mk.inj (Option.some.inj hstep)
      exact hround

/-- The decode call of a round: it takes `x` to `x₁`, whose bytes are covered. -/
structure Decodes (impl : CheckpointStrategy τ) (x : StreamIndexer σ κ τ) (result : DecompressResult)
    (d : σ) : Prop where
  processing : x.state = .processing
  drained : ¬ x.outRead < x.outBuf.length
  fed : ¬ (x.inputBuf.length ≤ x.inputPos ∧ x.eof = false)
  decodes : x.index.codec.decompress x.decompressor x.inputLeft bufSize = .ok (result, d)

/-- A stop is due, and the stream has not ended by itself. -/
def Stops (hadInput : Bool) (result : DecompressResult) (x : StreamIndexer σ κ τ) : Prop :=
  result.status ≠ .streamEnd ∧
    ¬ (hadInput = false ∧ result.bytesConsumed = 0 ∧ result.bytesProduced = 0) ∧
    ∃ stop, x.stopAt = some stop ∧ stop ≤ x.unpackedPos

/-- What an invariant has to be kept by. -/
structure Kept (impl : CheckpointStrategy τ) (ok P : StreamIndexer σ κ τ → Prop) : Prop where
  okState : ∀ {x}, x.state = .needInput → x.eof = true → ok x → ok { x with state := .processing }
  withState : ∀ {x st}, P x → P { x with state := st }
  complete : ∀ {x}, P x →
    P { x with
      index := { x.index with complete := true, unpackedLen := some x.unpackedPos }
      state := .done }
  covered : ∀ {x result d x₁}, P x → ok x → Decodes impl x result d →
    cover impl x.unpackedPos result (x.advance result d) = .ok x₁ → P x₁
  failed : ∀ {x result d f}, P x → ok x → Decodes impl x result d →
    cover impl x.unpackedPos result (x.advance result d) = .error f →
    P ((x.advance result d).asked impl result)
  stopped : ∀ {x result d x₁ x₂}, P x → ok x → Decodes impl x result d →
    cover impl x.unpackedPos result (x.advance result d) = .ok x₁ → P x₁ → Stops (!x.inputLeft.isEmpty) result x₁ →
    tryCheckpoint impl false x₁ = .ok x₂ → P x₂
  provideData : ∀ {x} data, P x → P (x.provideData data)
  signalEof : ∀ {x}, P x → P x.signalEof
  setStopAt : ∀ {x} offset, P x → P (x.setStopAt offset)
  setEmitOutput : ∀ {x} emit, P x → P (x.setEmitOutput emit)
  readOutput : ∀ {x} len, P x → P (x.readOutput len).2

section

variable {impl : CheckpointStrategy τ} {ok P : StreamIndexer σ κ τ → Prop}

theorem Kept.conclude (hP : Kept impl ok P) {result : DecompressResult} {hadInput : Bool}
    {x : StreamIndexer σ κ τ} (h : P x)
    (hstop : Stops hadInput result x → ∀ x₂, tryCheckpoint impl false x = .ok x₂ → P x₂) :
    P (conclude impl result hadInput x).2 := by
  unfold StreamIndexer.conclude
  simp only
  split
  · exact h
  · split
    · exact hP.complete h
    · rename_i hended
      split
      · rename_i hdue
        have hdue : Stops hadInput result x := by
          refine ⟨fun hend => hended (.inl hend), ?_, ?_⟩
          · rintro ⟨hnone, hconsumed, hproduced⟩
            exact hended (.inr (by simp [hnone, hconsumed, hproduced]))
          · cases hat : x.stopAt with
            | none => exact absurd hdue (by simp [hat])
            | some stop => exact ⟨stop, rfl, by simpa [hat] using hdue⟩
        cases htry : tryCheckpoint impl false x with
        | error f => exact h
        | ok x₂ => exact hP.withState (hstop hdue x₂ htry)
      · split
        · exact h
        · split
          · split
            · exact h
            · exact hP.withState h
          · split <;> exact h

theorem Kept.process (hP : Kept impl ok P) {x : StreamIndexer σ κ τ} (hstate : x.state = .processing) (h : P x)
    (hok : ok x) : P (process impl x).2 := by
  unfold StreamIndexer.process
  by_cases hlt : x.outRead < x.outBuf.length
  · rw [if_pos hlt]
    exact h
  · rw [if_neg hlt]
    by_cases hwait : x.inputBuf.length ≤ x.inputPos ∧ x.eof = false
    · rw [if_pos hwait]
      exact hP.withState h
    · rw [if_neg hwait]
      simp only
      cases hdec : x.index.codec.decompress x.decompressor x.inputLeft bufSize with
      | error f => exact h
      | ok r =>
        obtain ⟨result, d⟩ := r
        have hdecodes : Decodes impl x result d := ⟨hstate, hlt, hwait, hdec⟩
        simp only
        cases hcover : cover impl x.unpackedPos result (x.advance result d) with
        | error f => exact hP.failed h hok hdecodes hcover
        | ok x₁ =>
          have hcovered := hP.covered h hok hdecodes hcover
          exact hP.conclude hcovered
            fun hdue x₂ htry => hP.stopped h hok hdecodes hcover hcovered hdue htry

theorem Kept.stepOnce (hP : Kept impl ok P) {x : StreamIndexer σ κ τ} (h : P x) (hok : ok x) :
    P (stepOnce impl x).2 := by
  unfold StreamIndexer.stepOnce
  cases hstate : x.state with
  | done => exact h
  | seek offset => exact hP.withState h
  | needInput =>
    show P (ite (x.eof = true) _ _ : Option EngineRequest × StreamIndexer σ κ τ).2
    by_cases heof : x.eof = true
    · rw [if_pos heof]
      exact hP.process rfl (hP.withState h) (hP.okState hstate heof hok)
    · rw [if_neg heof]
      exact h
  | processing => exact hP.process hstate h hok

/-- A move that is part of a run. -/
theorem Kept.take_succ (hP : Kept impl ok P) {x : StreamIndexer σ κ τ} {moves : List Move} {k : Nat}
    (h : P (x.run impl (moves.take k))) (hok : moves[k]? = some .round → ok (x.run impl (moves.take k))) :
    P (x.run impl (moves.take (k + 1))) := by
  cases hmove : moves[k]? with
  | none =>
    rw [List.take_add_one, hmove, Option.toList_none, List.append_nil]
    exact h
  | some m =>
    rw [run_take_succ impl x hmove]
    cases m with
    | round => exact hP.stepOnce h (hok hmove)
    | provideData data => exact hP.provideData data h
    | signalEof => exact hP.signalEof h
    | setStopAt offset => exact hP.setStopAt offset h
    | setEmitOutput emit => exact hP.setEmitOutput emit h
    | readOutput len => exact hP.readOutput len h

theorem Kept.run (hP : Kept impl ok P) {x : StreamIndexer σ κ τ} (hstart : P x) {moves : List Move}
    (hok : ∀ k : Nat, moves[k]? = some .round → ok (x.run impl (moves.take k))) (k : Nat) :
    P (x.run impl (moves.take k)) := by
  induction k with
  | zero => exact hstart
  | succ k ih => exact hP.take_succ ih (hok k)

/-- What every move keeps holds of everything reached. -/
theorem Kept.reached (hP : Kept impl ok P) {start x : StreamIndexer σ κ τ} (hstart : P start)
    (h : Reached impl ok start x) : P x := by
  induction h with
  | start => exact hstart
  | round _ hok ih => exact hP.stepOnce ih hok
  | provideData _ data ih => exact hP.provideData data ih
  | signalEof _ ih => exact hP.signalEof ih
  | setStopAt _ offset ih => exact hP.setStopAt offset ih
  | setEmitOutput _ emit ih => exact hP.setEmitOutput emit ih
  | readOutput _ len ih => exact hP.readOutput len ih

end

/-- What covering comes to: `y` is the indexer after the strategy was asked and obeyed, and `out`
what is emitted. -/
theorem cover_cases {impl : CheckpointStrategy τ} {before : Nat} {result : DecompressResult}
    {x x₁ : StreamIndexer σ κ τ} (h : cover impl before result x = .ok x₁) :
    x.unpackedPos ≤ x.index.indexedTo ∧ x₁ = x ∨
    x.index.indexedTo < x.unpackedPos ∧ ∃ y out,
      (result.bytesProduced = 0 ∧ y = x ∨
        0 < result.bytesProduced ∧
          ((impl.shouldCheckpoint x.strategy x.context).1 = false ∧
            y = { x with strategy := (impl.shouldCheckpoint x.strategy x.context).2 } ∨
          (impl.shouldCheckpoint x.strategy x.context).1 = true ∧
            tryCheckpoint impl true
              { x with strategy := (impl.shouldCheckpoint x.strategy x.context).2 } = .ok y)) ∧
      (out = (y.outBuf, y.outRead) ∨
        0 < result.bytesProduced ∧ out = (result.produced, y.index.indexedTo - before)) ∧
      x₁ = { y with
        outBuf := out.1
        outRead := out.2
        index := { y.index with indexedTo := y.unpackedPos } } := by
  unfold cover at h
  by_cases hfresh : x.index.indexedTo < x.unpackedPos
  · rw [if_pos hfresh] at h
    refine .inr ⟨hfresh, ?_⟩
    by_cases hsome : 0 < result.bytesProduced
    · simp only [if_pos hsome] at h
      have hlaid : ∃ y,
          ((impl.shouldCheckpoint x.strategy x.context).1 = false ∧
            y = { x with strategy := (impl.shouldCheckpoint x.strategy x.context).2 } ∨
          (impl.shouldCheckpoint x.strategy x.context).1 = true ∧
            tryCheckpoint impl true
              { x with strategy := (impl.shouldCheckpoint x.strategy x.context).2 } = .ok y) ∧
          Except.ok x₁ = ((Except.ok y : Except Fault _).map fun x₁ : StreamIndexer σ κ τ =>
            if x₁.emitOutput = true then
              { x₁ with outBuf := result.produced, outRead := x₁.index.indexedTo - before }
            else x₁).map fun x₁ : StreamIndexer σ κ τ =>
              { x₁ with index := { x₁.index with indexedTo := x₁.unpackedPos } } := by
        by_cases hask : (impl.shouldCheckpoint x.strategy x.context).1 = true
        · rw [if_pos hask] at h
          cases htry : tryCheckpoint impl true
              { x with strategy := (impl.shouldCheckpoint x.strategy x.context).2 } with
          | error f =>
            rw [htry] at h
            cases h
          | ok y =>
            rw [htry] at h
            exact ⟨y, .inr ⟨hask, rfl⟩, h.symm⟩
        · rw [if_neg hask] at h
          exact ⟨_, .inl ⟨by simpa using hask, rfl⟩, h.symm⟩
      obtain ⟨y, hy, hx₁⟩ := hlaid
      have hx₁ := Except.ok.inj hx₁
      simp only at hx₁
      by_cases hemit : y.emitOutput = true
      · rw [if_pos hemit] at hx₁
        exact ⟨y, (result.produced, y.index.indexedTo - before), .inr ⟨hsome, hy⟩,
          .inr ⟨hsome, rfl⟩, hx₁⟩
      · rw [if_neg hemit] at hx₁
        exact ⟨y, (y.outBuf, y.outRead), .inr ⟨hsome, hy⟩, .inl rfl, hx₁⟩
    · simp only [if_neg hsome] at h
      exact ⟨x, (x.outBuf, x.outRead), .inl ⟨by omega, rfl⟩, .inl rfl, (Except.ok.inj h).symm⟩
  · rw [if_neg hfresh] at h
    exact .inl ⟨by omega, (Except.ok.inj h).symm⟩

/-- A thinning loop keeps what its rounds keep. -/
theorem thinWhile_rule (impl : CheckpointStrategy τ) {P : StreamIndexer σ κ τ → Prop}
    (hround : ∀ {x cp}, P x → (impl.shouldThin x.strategy x.context).1 = true →
      x.index.thin.1 = true → x.index.thin.2.lastCheckpoint = some cp →
      P { x with
        strategy := (impl.shouldThin x.strategy x.context).2
        index := x.index.thin.2
        checkpointDataBytes := x.index.thin.2.checkpointDataBytes
        lastCheckpointPos := cp.uncompressedOffset }) :
    ∀ n {x x' : StreamIndexer σ κ τ}, x.index.checkpoints.length ≤ n → P x →
      thinWhile impl x = .ok x' →
      ∃ y, P y ∧ x' = { y with strategy := (impl.shouldThin y.strategy y.context).2 } ∧
        ((impl.shouldThin y.strategy y.context).1 = false ∨ y.index.thin.1 = false) := by
  intro n
  induction n with
  | zero =>
    intro x x' hlen h hrun
    have hnil : x.index.checkpoints = [] := List.length_eq_zero_iff.mp (by omega)
    have hthin : x.index.thin.1 = false := by simp [StreamIndex.thin, hnil]
    rw [thinWhile] at hrun
    simp only [hthin, Bool.false_eq_true, dite_false] at hrun
    refine ⟨x, h, ?_, .inr hthin⟩
    split at hrun <;> exact (Except.ok.inj hrun).symm
  | succ n ih =>
    intro x x' hlen h hrun
    rw [thinWhile] at hrun
    simp only at hrun
    by_cases hask : (impl.shouldThin x.strategy x.context).1 = true
    · rw [if_pos hask] at hrun
      by_cases hthin : x.index.thin.1 = true
      · rw [dif_pos hthin] at hrun
        have hshort := StreamIndex.thin_length_lt x.index hthin
        cases hlast : x.index.thin.2.lastCheckpoint with
        | none =>
          simp only [hlast] at hrun
          cases hrun
        | some cp =>
          simp only [hlast] at hrun
          exact ih (by show x.index.thin.2.checkpoints.length ≤ n; omega)
            (hround h hask hthin hlast) hrun
      · rw [dif_neg hthin] at hrun
        exact ⟨x, h, (Except.ok.inj hrun).symm, .inr (by simpa using hthin)⟩
    · rw [if_neg hask] at hrun
      exact ⟨x, h, (Except.ok.inj hrun).symm, .inl (by simpa using hask)⟩

end StreamIndexer
end Iluvatar
