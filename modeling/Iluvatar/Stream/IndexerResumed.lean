/-
What a resumed `StreamIndexer` does to the part of its index that was there before.
-/
import Iluvatar.Compress.None
import Iluvatar.Stream.Thinning

namespace Iluvatar

variable {σ κ τ : Type}

namespace StreamIndexer

/-- Where the next byte handed out lies. -/
def outputPos (x : StreamIndexer σ κ τ) : Nat := x.unpackedPos - x.pending.length

/-- The checkpoints of `index` are in place, those laid since lie past it, and so does all that
is handed out. -/
structure Untouched (index : StreamIndex σ κ) (x : StreamIndexer σ κ τ) : Prop where
  checkpoints : ∃ added, x.index.checkpoints = index.checkpoints ++ added ∧
    ∀ cp ∈ added, index.indexedTo ≤ cp.uncompressedOffset
  indexed : index.indexedTo ≤ x.index.indexedTo
  output : x.pending ≠ [] → index.indexedTo ≤ x.outputPos

/-- The next round decodes: no output waits, and there is input or it is known that no more comes. -/
def Decoding (x : StreamIndexer σ κ τ) : Prop :=
  ¬ x.outRead < x.outBuf.length ∧
    (x.state = .processing ∧ ¬ (x.inputBuf.length ≤ x.inputPos ∧ x.eof = false) ∨
      x.state = .needInput ∧ x.eof = true)

/-- What is decoded next ends, where a stop is due, before it is past `first`, and the decoder can lay
a checkpoint there. -/
def EndsBefore (first : Nat) (x : StreamIndexer σ κ τ) : Prop :=
  ∃ result d stop last cp,
    x.index.codec.decompress x.decompressor x.inputLeft bufSize = .ok (result, d) ∧
    result.status ≠ .streamEnd ∧
    ¬ (x.inputLeft = [] ∧ result.bytesConsumed = 0 ∧ result.bytesProduced = 0) ∧
    x.stopAt = some stop ∧ stop ≤ x.unpackedPos + result.bytesProduced ∧
    x.unpackedPos + result.bytesProduced < first ∧
    x.index.lastCheckpoint = some last ∧
    ¬ (x.unpackedPos + result.bytesProduced = x.lastCheckpointPos ∧
      last.uncompressedOffset = x.unpackedPos + result.bytesProduced) ∧
    x.index.codec.checkpoint d (x.compressedPos + result.bytesConsumed)
      (x.unpackedPos + result.bytesProduced) = .ok (some cp)

/-- The next round stops before it is past `first`, where the decoder can lay a checkpoint. -/
def StopsBefore (first : Nat) (x : StreamIndexer σ κ τ) : Prop := x.Decoding ∧ x.EndsBefore first

/-- A strategy that never asks for thinning. -/
def NeverThins (impl : CheckpointStrategy τ) : Prop := ∀ s ctx, (impl.shouldThin s ctx).1 = false

variable {impl : CheckpointStrategy τ} {index : StreamIndex σ κ}

theorem thinWhile_never (hnever : NeverThins impl) (x : StreamIndexer σ κ τ) :
    thinWhile impl x = .ok { x with strategy := (impl.shouldThin x.strategy x.context).2 } := by
  rw [thinWhile]
  simp only
  rw [if_neg (by rw [hnever]; exact Bool.false_ne_true)]

/-- What laying a checkpoint does where nothing is thinned. -/
theorem tryCheckpoint_never (hnever : NeverThins impl) {notify : Bool} {x x' : StreamIndexer σ κ τ}
    (hrun : tryCheckpoint impl notify x = .ok x') :
    x' = x ∨ ∃ cp last strategy,
      x.index.codec.checkpoint x.decompressor x.compressedPos x.unpackedPos = .ok (some cp) ∧
      x.index.lastCheckpoint = some last ∧
      ¬ (x.unpackedPos = x.lastCheckpointPos ∧ last.uncompressedOffset = x.unpackedPos) ∧
      x' = { x with
        strategy := strategy
        checkpointDataBytes := x.checkpointDataBytes + cp.estimatedSize x.index.codec
        index := { x.index with checkpoints := x.index.checkpoints ++ [cp] }
        lastCheckpointPos := x.unpackedPos } := by
  unfold tryCheckpoint at hrun
  cases hlast : x.index.lastCheckpoint with
  | none =>
    rw [hlast] at hrun
    cases hrun
  | some last =>
    rw [hlast] at hrun
    simp only at hrun
    by_cases hhere : x.unpackedPos = x.lastCheckpointPos ∧ last.uncompressedOffset = x.unpackedPos
    · rw [if_pos hhere] at hrun
      exact .inl (Except.ok.inj hrun).symm
    · rw [if_neg hhere] at hrun
      cases hcp : x.index.codec.checkpoint x.decompressor x.compressedPos x.unpackedPos with
      | error e =>
        simp only [hcp] at hrun
        cases hrun
      | ok o =>
        cases o with
        | none =>
          simp only [hcp] at hrun
          exact .inl (Except.ok.inj hrun).symm
        | some cp =>
          simp only [hcp] at hrun
          rw [thinWhile_never hnever] at hrun
          cases notify with
          | false => exact .inr ⟨cp, last, _, rfl, rfl, hhere, (Except.ok.inj hrun).symm⟩
          | true => exact .inr ⟨cp, last, _, rfl, rfl, hhere, (Except.ok.inj hrun).symm⟩

/-- Only the table grew, and only past the index. -/
theorem Untouched.lay (hnever : NeverThins impl) (hplaces : index.codec.Places) {notify : Bool}
    {x x' : StreamIndexer σ κ τ} (h : Untouched index x) (hcodec : x.index.codec = index.codec)
    (hpast : ∀ cp last,
      x.index.codec.checkpoint x.decompressor x.compressedPos x.unpackedPos = .ok (some cp) →
      x.index.lastCheckpoint = some last →
      ¬ (x.unpackedPos = x.lastCheckpointPos ∧ last.uncompressedOffset = x.unpackedPos) →
      index.indexedTo ≤ x.unpackedPos)
    (hrun : tryCheckpoint impl notify x = .ok x') :
    Untouched index x' ∧ x'.index.codec = index.codec ∧ x'.unpackedPos = x.unpackedPos ∧
      x'.index.indexedTo = x.index.indexedTo ∧ x'.outBuf = x.outBuf ∧ x'.outRead = x.outRead := by
  rcases tryCheckpoint_never hnever hrun with rfl | ⟨cp, last, strategy, hcp, hlast, hnew, rfl⟩
  · exact ⟨h, hcodec, rfl, rfl, rfl, rfl⟩
  · refine ⟨⟨?_, h.indexed, h.output⟩, hcodec, rfl, rfl, rfl, rfl⟩
    obtain ⟨added, hadded, hout⟩ := h.checkpoints
    have hplace := hplaces _ _ _ _ (hcodec ▸ hcp)
    have hpast := hpast cp last hcp hlast hnew
    refine ⟨added ++ [cp], ?_, ?_⟩
    · show x.index.checkpoints ++ [cp] = _
      rw [hadded, List.append_assoc]
    · intro cp' hmem
      rcases List.mem_append.mp hmem with hmem | hmem
      · exact hout cp' hmem
      · rw [List.mem_singleton.mp hmem, hplace]
        exact hpast

theorem Untouched.same {x x' : StreamIndexer σ κ τ} (h : Untouched index x)
    (hcheckpoints : x'.index.checkpoints = x.index.checkpoints)
    (hindexed : x.index.indexedTo ≤ x'.index.indexedTo)
    (houtput : x'.pending ≠ [] → index.indexedTo ≤ x'.outputPos) : Untouched index x' := by
  refine ⟨?_, Nat.le_trans h.indexed hindexed, houtput⟩
  rw [hcheckpoints]
  exact h.checkpoints

theorem pending_nil {x : StreamIndexer σ κ τ} (h : ¬ x.outRead < x.outBuf.length) :
    x.pending = [] := List.drop_eq_nil_of_le (Nat.le_of_not_lt h)

/-- Covering the bytes of a decode call leaves what was covered before alone. -/
theorem Untouched.cover (hnever : NeverThins impl) (hplaces : index.codec.Places)
    {x x₁ : StreamIndexer σ κ τ} {result : DecompressResult} {d : σ} (h : Untouched index x)
    (hcodec : x.index.codec = index.codec) (hdrained : ¬ x.outRead < x.outBuf.length)
    (hrun : cover impl x.unpackedPos result (x.advance result d) = .ok x₁) :
    Untouched index x₁ ∧ x₁.index.codec = index.codec := by
  have hnone : (x.advance result d).pending = [] := pending_nil hdrained
  have hadvance : Untouched index (x.advance result d) :=
    h.same rfl (Nat.le_refl _) (fun hsome => absurd hnone hsome)
  have hindexed := h.indexed
  rcases cover_cases hrun with ⟨_, rfl⟩ | ⟨hfresh, y, out, hy, hout, rfl⟩
  · exact ⟨hadvance, hcodec⟩
  · have hpast : index.indexedTo ≤ (x.advance result d).unpackedPos := by
      have hold : (x.advance result d).index.indexedTo = x.index.indexedTo := rfl
      omega
    have hlaid : Untouched index y ∧ y.index.codec = index.codec ∧
        y.unpackedPos = (x.advance result d).unpackedPos ∧
        y.index.indexedTo = x.index.indexedTo ∧ y.outBuf = x.outBuf ∧ y.outRead = x.outRead := by
      rcases hy with ⟨_, rfl⟩ | ⟨_, ⟨_, rfl⟩ | ⟨_, htry⟩⟩
      · exact ⟨hadvance, hcodec, rfl, rfl, rfl, rfl⟩
      · exact ⟨⟨hadvance.checkpoints, hadvance.indexed, hadvance.output⟩, hcodec, rfl, rfl, rfl, rfl⟩
      · have hasked : Untouched index { x.advance result d with
            strategy := (impl.shouldCheckpoint (x.advance result d).strategy
              (x.advance result d).context).2 } :=
          ⟨hadvance.checkpoints, hadvance.indexed, hadvance.output⟩
        exact hasked.lay hnever hplaces hcodec (fun _ _ _ _ _ => hpast) htry
    obtain ⟨huntouched, hcodec', hunpacked, hindexed', houtBuf, houtRead⟩ := hlaid
    refine ⟨huntouched.same rfl ?_ ?_, hcodec'⟩
    · show y.index.indexedTo ≤ y.unpackedPos
      have hold : (x.advance result d).index.indexedTo = x.index.indexedTo := rfl
      omega
    · intro hsome
      rcases hout with rfl | ⟨_, rfl⟩
      · refine absurd (pending_nil ?_) hsome
        show ¬ y.outRead < y.outBuf.length
        rw [houtBuf, houtRead]
        exact hdrained
      · have hlen : List.length (List.drop (y.index.indexedTo - x.unpackedPos) result.produced) =
            result.produced.length - (y.index.indexedTo - x.unpackedPos) := List.length_drop
        have hproduced : (x.advance result d).unpackedPos =
            x.unpackedPos + result.produced.length := rfl
        show index.indexedTo ≤ y.unpackedPos -
          (List.drop (y.index.indexedTo - x.unpackedPos) result.produced).length
        omega

/-- What a resumed indexer keeps, as long as it does not stop inside what was indexed before. -/
theorem kept_untouched (hnever : NeverThins impl) (hplaces : index.codec.Places) :
    Kept impl (fun x => ¬ StopsBefore index.indexedTo x)
      fun x => Untouched index x ∧ x.index.codec = index.codec where
  okState := fun hstate heof hok hstops => hok ⟨⟨hstops.1.1, .inr ⟨hstate, heof⟩⟩, hstops.2⟩
  withState := fun h => ⟨⟨h.1.checkpoints, h.1.indexed, h.1.output⟩, h.2⟩
  complete := fun h => ⟨⟨h.1.checkpoints, h.1.indexed, h.1.output⟩, h.2⟩
  covered := fun h _ hdecodes hrun => h.1.cover hnever hplaces h.2 hdecodes.drained hrun
  failed := by
    intro x result d f h _ hdecodes _
    have hnone : (x.advance result d).pending = [] := pending_nil hdecodes.drained
    unfold asked
    split
    · exact ⟨h.1.same rfl (Nat.le_refl _) (fun hsome => absurd hnone hsome), h.2⟩
    · exact ⟨h.1.same rfl (Nat.le_refl _) (fun hsome => absurd hnone hsome), h.2⟩
  stopped := by
    intro x result d x₁ x₂ h hok hdecodes hrun h₁ hstops htry
    obtain ⟨hstatus, hmoves, stop, hstop, hdue⟩ := hstops
    refine (Untouched.lay hnever hplaces h₁.1 h₁.2 ?_ htry).imp_right fun hrest => hrest.1
    intro cp last hcp hlast hnew
    by_contra hinside
    -- Below the index nothing is fresh, so covering did nothing.
    have hindexed := h.1.indexed
    have hsame : x₁ = x.advance result d := by
      rcases cover_cases hrun with ⟨_, rfl⟩ | ⟨hfresh, y, out, hy, _, rfl⟩
      · rfl
      · have hunpacked : y.unpackedPos = (x.advance result d).unpackedPos := by
          rcases hy with ⟨_, rfl⟩ | ⟨_, ⟨_, rfl⟩ | ⟨_, htry⟩⟩
          · rfl
          · rfl
          · rcases tryCheckpoint_never hnever htry with rfl | ⟨_, _, _, _, _, _, rfl⟩ <;> rfl
        have hold : (x.advance result d).index.indexedTo = x.index.indexedTo := rfl
        have hinside : ¬ index.indexedTo ≤ y.unpackedPos := hinside
        omega
    subst hsame
    apply hok
    refine ⟨⟨hdecodes.drained, .inl ⟨hdecodes.processing, hdecodes.fed⟩⟩, result, d, stop, last, cp, hdecodes.decodes,
      hstatus, ?_, hstop, hdue, Nat.lt_of_not_le hinside, hlast, hnew, hcp⟩
    rintro ⟨hnil, hidle⟩
    exact hmoves ⟨by rw [hnil]; rfl, hidle⟩
  provideData := fun _ h => ⟨⟨h.1.checkpoints, h.1.indexed, h.1.output⟩, h.2⟩
  signalEof := fun h => ⟨⟨h.1.checkpoints, h.1.indexed, h.1.output⟩, h.2⟩
  setStopAt := fun _ h => ⟨⟨h.1.checkpoints, h.1.indexed, h.1.output⟩, h.2⟩
  setEmitOutput := fun _ h => ⟨⟨h.1.checkpoints, h.1.indexed, h.1.output⟩, h.2⟩
  readOutput := by
    intro x len h
    unfold readOutput
    simp only
    split
    · exact h
    · rename_i hsome
      split
      · exact ⟨h.1.same rfl (Nat.le_refl _) (fun hsome => absurd rfl hsome), h.2⟩
      · refine ⟨h.1.same rfl (Nat.le_refl _) ?_, h.2⟩
        intro _
        have hpending : x.pending ≠ [] := by
          intro hnil
          have hlen := congrArg List.length hnil
          rw [pending, List.length_drop, List.length_nil] at hlen
          omega
        have hold := h.1.output hpending
        have hlen : x.pending.length = x.outBuf.length - x.outRead := List.length_drop
        have hlen' : (List.drop (x.outRead + min (x.outBuf.length - x.outRead) len) x.outBuf).length =
          x.outBuf.length - (x.outRead + min (x.outBuf.length - x.outRead) len) := List.length_drop
        unfold outputPos at hold ⊢
        show index.indexedTo ≤ x.unpackedPos -
          (List.drop (x.outRead + min (x.outBuf.length - x.outRead) len) x.outBuf).length
        omega

theorem resume_untouched {strategy : τ} {x : StreamIndexer σ κ τ}
    (hresume : resume index strategy = .ok x) :
    Untouched index x ∧ x.index.codec = index.codec := by
  have hparts : ∃ d state c u, x = withParts d index strategy state c u := by
    unfold resume at hresume
    split at hresume
    · cases hresume
    · split at hresume
      · cases hresume
      · split at hresume
        · cases hresume
        · split at hresume
          · cases hresume
          · exact ⟨_, _, _, _, (Except.ok.inj hresume).symm⟩
  obtain ⟨d, state, c, u, rfl⟩ := hparts
  exact ⟨⟨⟨[], (List.append_nil _).symm, by simp⟩, Nat.le_refl _, fun hsome => absurd rfl hsome⟩, rfl⟩

theorem process_lays (hnever : NeverThins impl) {x : StreamIndexer σ κ τ} {first : Nat}
    (hdrained : ¬ x.outRead < x.outBuf.length) (hfed : ¬ (x.inputBuf.length ≤ x.inputPos ∧ x.eof = false))
    (hfirst : first ≤ x.index.indexedTo) (hends : EndsBefore first x) :
    ∃ d c u last cp, u < first ∧ x.index.codec.checkpoint d c u = .ok (some cp) ∧
      x.index.lastCheckpoint = some last ∧
      ¬ (u = x.lastCheckpointPos ∧ last.uncompressedOffset = u) ∧
      (process impl x).2.index.checkpoints = x.index.checkpoints ++ [cp] := by
  obtain ⟨result, d, stop, last, cp, hdec, hstatus, hmoves, hstop, hdue, hinside, hlast, hnew, hcp⟩ :=
    hends
  refine ⟨_, _, _, last, cp, hinside, hcp, hlast, hnew, ?_⟩
  have hstep : (process impl x).2 =
      (conclude impl result (!x.inputLeft.isEmpty) (x.advance result d)).2 := by
    have hcover : cover impl x.unpackedPos result (x.advance result d) =
        .ok (x.advance result d) := by
      unfold StreamIndexer.cover
      rw [if_neg]
      show ¬ x.index.indexedTo < x.unpackedPos + result.bytesProduced
      omega
    unfold process
    rw [if_neg hdrained, if_neg hfed]
    simp only [hdec, hcover]
  have hidle : ¬ ((!(!x.inputLeft.isEmpty) && result.bytesConsumed == 0 &&
      result.bytesProduced == 0) = true) := by
    intro hidle
    simp only [Bool.not_not, Bool.and_eq_true, List.isEmpty_iff, beq_iff_eq] at hidle
    exact hmoves ⟨hidle.1.1, hidle.1.2, hidle.2⟩
  have hstopped : ((x.advance result d).stopAt.any fun stop =>
      decide (stop ≤ (x.advance result d).unpackedPos)) = true := by
    show (x.stopAt.any fun stop => decide (stop ≤ x.unpackedPos + result.bytesProduced)) = true
    rw [hstop]
    exact decide_eq_true hdue
  have htry : ∃ strategy, tryCheckpoint impl false (x.advance result d) = .ok
      { x.advance result d with
        strategy := strategy
        checkpointDataBytes := x.checkpointDataBytes + cp.estimatedSize x.index.codec
        index := { x.index with checkpoints := x.index.checkpoints ++ [cp] }
        lastCheckpointPos := x.unpackedPos + result.bytesProduced } := by
    have hlast : (x.advance result d).index.lastCheckpoint = some last := hlast
    have hcp : (x.advance result d).index.codec.checkpoint (x.advance result d).decompressor
        (x.advance result d).compressedPos (x.advance result d).unpackedPos = .ok (some cp) := hcp
    unfold tryCheckpoint
    rw [hlast]
    simp only
    rw [if_neg (by exact hnew), hcp]
    simp only
    rw [thinWhile_never hnever]
    exact ⟨_, rfl⟩
  obtain ⟨strategy, htry⟩ := htry
  rw [hstep]
  unfold conclude
  simp only
  rw [if_neg (fun h => hidle h.1), if_neg (fun h => h.elim hstatus hidle), if_pos hstopped, htry]

/-- A stop inside what was indexed before lays a checkpoint there. -/
theorem stopsBefore_lays (hnever : NeverThins impl) {x : StreamIndexer σ κ τ} {first : Nat}
    (hfirst : first ≤ x.index.indexedTo) (hstops : StopsBefore first x) :
    ∃ d c u last cp, u < first ∧ x.index.codec.checkpoint d c u = .ok (some cp) ∧
      x.index.lastCheckpoint = some last ∧
      ¬ (u = x.lastCheckpointPos ∧ last.uncompressedOffset = u) ∧
      (stepOnce impl x).2.index.checkpoints = x.index.checkpoints ++ [cp] := by
  obtain ⟨⟨hdrained, hfed | ⟨hstate, heof⟩⟩, hends⟩ := hstops
  · have hstep : stepOnce impl x = process impl x := by
      unfold stepOnce
      rw [hfed.1]
    rw [hstep]
    exact process_lays hnever hdrained hfed.2 hfirst hends
  · have hstep : stepOnce impl x = process impl { x with state := .processing } := by
      unfold stepOnce
      rw [hstate]
      exact if_pos heof
    rw [hstep]
    have hfed : ¬ (x.inputBuf.length ≤ x.inputPos ∧ x.eof = false) := by
      rintro ⟨_, hnot⟩
      rw [heof] at hnot
      cases hnot
    exact @process_lays _ _ _ impl hnever { x with state := .processing } first hdrained hfed hfirst hends

/-- No move lowers how far the index reaches. -/
theorem kept_indexed (hnever : NeverThins impl) (n : Nat) :
    Kept impl (fun _ => True) fun x : StreamIndexer σ κ τ => n ≤ x.index.indexedTo where
  okState := fun _ _ _ => trivial
  withState := fun h => h
  complete := fun h => h
  covered := by
    intro x result d x₁ h _ _ hrun
    rcases cover_cases hrun with ⟨_, rfl⟩ | ⟨hfresh, y, out, hy, _, rfl⟩
    · exact h
    · have hunpacked : y.unpackedPos = (x.advance result d).unpackedPos := by
        rcases hy with ⟨_, rfl⟩ | ⟨_, ⟨_, rfl⟩ | ⟨_, htry⟩⟩
        · rfl
        · rfl
        · rcases tryCheckpoint_never hnever htry with rfl | ⟨_, _, _, _, _, _, rfl⟩ <;> rfl
      have hold : (x.advance result d).index.indexedTo = x.index.indexedTo := rfl
      show n ≤ y.unpackedPos
      omega
  failed := by
    intro x result d f h _ _ _
    unfold asked
    split <;> exact h
  stopped := by
    intro x result d x₁ x₂ _ _ _ _ h₁ _ htry
    rcases tryCheckpoint_never hnever htry with rfl | ⟨_, _, _, _, _, _, rfl⟩ <;> exact h₁
  provideData := fun _ h => h
  signalEof := fun h => h
  setStopAt := fun _ h => h
  setEmitOutput := fun _ h => h
  readOutput := by
    intro x len h
    unfold StreamIndexer.readOutput
    simp only
    split
    · exact h
    · split <;> exact h

/-- A round leaves what the index covered alone if and only if it does not stop inside it. -/
theorem Untouched.stepOnce_iff (hnever : NeverThins impl) (hplaces : index.codec.Places) {x : StreamIndexer σ κ τ}
    (h : Untouched index x) (hcodec : x.index.codec = index.codec) :
    Untouched index (stepOnce impl x).2 ↔ ¬ StopsBefore index.indexedTo x := by
  constructor
  · intro hafter hstops
    obtain ⟨d, c, u, _, cp, hinside, hcp, _, _, hlaid⟩ := stopsBefore_lays hnever h.indexed hstops
    obtain ⟨added, hadded, _⟩ := h.checkpoints
    obtain ⟨added', hadded', hpast⟩ := hafter.checkpoints
    rw [hlaid, hadded, List.append_assoc] at hadded'
    have hmem : cp ∈ added' := by
      rw [← List.append_cancel_left hadded']
      simp
    have hle := hpast cp hmem
    rw [hplaces _ _ _ _ (hcodec ▸ hcp)] at hle
    omega
  · intro hok
    exact ((kept_untouched hnever hplaces).stepOnce ⟨h, hcodec⟩ hok).1

/-- A resumed indexer leaves what its index covered alone, in every state of a run, if and only if no
round of the run stops inside it where the decoder can lay a checkpoint; and no move of any run lowers
how far the index reaches. -/
theorem resumed_leaves_prefix (hnever : NeverThins impl) (hplaces : index.codec.Places)
    {strategy : τ} {x₀ : StreamIndexer σ κ τ} (hresume : resume index strategy = .ok x₀) (moves : List Move) :
    ((∀ k, Untouched index (x₀.run impl (moves.take k))) ↔
      ∀ k : Nat, moves[k]? = some .round → ¬ StopsBefore index.indexedTo (x₀.run impl (moves.take k))) ∧
      ∀ k, (x₀.run impl (moves.take k)).index.indexedTo ≤ (x₀.run impl (moves.take (k + 1))).index.indexedTo := by
  have hkept := kept_untouched hnever hplaces
  have hstart := resume_untouched hresume
  refine ⟨⟨fun hall k hround => ?_, fun hok k => (hkept.run hstart hok k).1⟩,
    fun k => (kept_indexed hnever _).take_succ (Nat.le_refl _) fun _ => trivial⟩
  have hround_ok : ∀ j : Nat, (x₀.run impl (moves.take j)).index.codec = index.codec → moves[j]? = some .round →
      ¬ StopsBefore index.indexedTo (x₀.run impl (moves.take j)) := by
    intro j hcodec hmove
    have hafter := hall (j + 1)
    rw [run_take_succ impl x₀ hmove] at hafter
    exact ((hall j).stepOnce_iff hnever hplaces hcodec).mp hafter
  have hcodec : ∀ j : Nat, (x₀.run impl (moves.take j)).index.codec = index.codec := by
    intro j
    induction j with
    | zero => exact hstart.2
    | succ j ih => exact (hkept.take_succ ⟨hall j, ih⟩ (hround_ok j ih)).2
  exact hround_ok k (hcodec k) hround

theorem fixedInterval_never : NeverThins CheckpointStrategy.fixedInterval := fun _ _ => rfl

theorem noneDecompressor_places : NoneDecompressor.codec.Places := by
  intro s c u cp hcp
  cases hcp
  rfl

/-- An index of stored bytes that covers ten of them, with the start as its only checkpoint. -/
def tenIndexed : StreamIndex NoneDecompressor Empty :=
  { StreamIndex.new NoneDecompressor.codec none with indexedTo := 10 }

/-- Stops at twelve, which the second slice is past, and at one, asked for when the indexer is done. -/
theorem resumed_leaves_prefix_ten :
    let x₀ := withParts NoneDecompressor.new tenIndexed 4 .needInput 0 0
    let moves : List Move := [.setStopAt 12, .provideData [1, 2, 3, 4, 5, 6, 7, 8], .round,
      .provideData [9, 10, 11, 12, 13, 14], .round, .setStopAt 1, .round]
    ∀ k, Untouched tenIndexed (x₀.run .fixedInterval (moves.take k)) := by
  intro x₀ moves
  refine ( resumed_leaves_prefix fixedInterval_never noneDecompressor_places rfl moves).1.mpr ?_
  intro k hround hstops
  obtain ⟨hdecoding, _, _, _, _, _, hdec, _, _, hstop, hdue, hinside, _⟩ := hstops
  have hk : k < 7 := (List.getElem?_eq_some_iff.mp hround).1
  rcases k with _ | _ | _ | _ | _ | _ | _ | k
  · cases hround
  · cases hround
  · cases hstop
    cases hdec
    exact absurd hdue (by decide)
  · cases hround
  · cases hdec
    exact absurd hinside (by decide)
  · cases hround
  · rcases hdecoding.2 with ⟨hstate, _⟩ | ⟨hstate, _⟩
    · exact absurd hstate (by decide +kernel)
    · exact absurd hstate (by decide +kernel)
  · omega

/-- Stopped at the first byte, a decoder resumed at the start of the ten lays a checkpoint three
bytes in. -/
theorem resumed_stop_lays_inside :
    let x₀ := withParts NoneDecompressor.new tenIndexed 4 .needInput 0 0
    let x := x₀.run .fixedInterval [.setStopAt 1, .provideData [1, 2, 3], .round]
    resume tenIndexed 4 = .ok x₀ ∧
      ∃ cp ∈ x.index.checkpoints, cp ∉ tenIndexed.checkpoints ∧
        cp.uncompressedOffset < tenIndexed.indexedTo := by
  intro x₀ x
  have hstops : StopsBefore 10 ((x₀.setStopAt 1).provideData [1, 2, 3]) := by
    refine ⟨⟨Nat.lt_irrefl 0, .inl ⟨rfl, by decide⟩⟩,
      { bytesConsumed := 3, produced := [1, 2, 3], status := .continue },
      { totalIn := 3, totalOut := 3 }, 1, .start,
      { compressedOffset := 3, bitOffset := 0, uncompressedOffset := 3, state := none },
      rfl, by decide, ?_, rfl, by decide, by decide, rfl, ?_, rfl⟩
    · rintro ⟨_, hnone, _⟩
      cases hnone
    · rintro ⟨hnone, _⟩
      cases hnone
  obtain ⟨d, c, u, last, cp, hinside, hcp, hlast, hnew, hlaid⟩ :=
    @stopsBefore_lays _ _ _ .fixedInterval fixedInterval_never _ 10 (Nat.le_refl 10) hstops
  obtain rfl := Option.some.inj hlast
  have hplace := noneDecompressor_places _ _ _ _ hcp
  refine ⟨rfl, cp, ?_, ?_, ?_⟩
  · show cp ∈ (stepOnce .fixedInterval ((x₀.setStopAt 1).provideData [1, 2, 3])).2.index.checkpoints
    rw [hlaid]
    simp
  · intro hmem
    obtain rfl := List.mem_singleton.mp hmem
    exact hnew ⟨hplace.symm, hplace⟩
  · show cp.uncompressedOffset < 10
    omega

end StreamIndexer
end Iluvatar
