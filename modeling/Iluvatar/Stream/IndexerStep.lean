/-
What one step of a `StreamIndexer` does.

`Sound` is the indexer's invariant: where its decompressor stands, what input is
still to come, the table it has laid, and how far it has covered the stream.
`Covers` says what a step hands out: exactly the bytes it newly covers.
-/
import Iluvatar.Stream.IndexerTable

namespace Iluvatar

open Sansio

variable {σ κ τ : Type}

namespace StreamIndexer

variable {codec : Codec σ κ} {packed plain : List Byte} {At : σ → Nat → Nat → Prop}

/-- The unread input continues the stream where the decompressor stands, up to `next`. -/
structure Fed (packed : List Byte) (next : Nat) (x : StreamIndexer σ κ τ) : Prop where
  place : next = x.compressedPos + x.inputLeft.length
  input : x.inputLeft <+: packed.drop x.compressedPos
  inputPos : x.inputPos ≤ x.inputBuf.length
  eof : x.eof = true → packed.length ≤ next

/-- Where the caller stands, by the indexer's state.  `next` is the packed offset the
caller reads from. -/
def Placed (packed : List Byte) (next : Nat) (x : StreamIndexer σ κ τ) : Prop :=
  match x.state with
  | .seek offset => offset = x.compressedPos ∧ x.inputBuf = [] ∧ x.inputPos = 0 ∧ x.eof = false
  | .needInput => Fed packed next x ∧ x.inputLeft = []
  | .processing => Fed packed next x
  | .done => True

/-- An index is complete only where its decoder reported the end of the stream, or
the stream has no bytes. -/
structure Completed (codec : Codec σ κ) (packed plain : List Byte) (x : StreamIndexer σ κ τ) :
    Prop where
  state : x.state = .done
  unpackedLen : x.index.unpackedLen = some plain.length
  indexedTo : x.index.indexedTo = plain.length
  reported : Reported codec x.decompressor ∨ packed = []

structure Sound (codec : Codec σ κ) (packed plain : List Byte) (At : σ → Nat → Nat → Prop)
    (next : Nat) (x : StreamIndexer σ κ τ) : Prop where
  laid : Laid codec At x
  stands : At x.decompressor x.compressedPos x.unpackedPos
  placed : Placed packed next x
  behind : x.unpackedPos ≤ x.index.indexedTo
  indexed : x.index.indexedTo ≤ plain.length
  unpackedLen : ∀ n, x.index.unpackedLen = some n → n = plain.length
  complete : x.index.complete = true → Completed codec packed plain x
  done : x.state = .done → x.index.complete = true ∨ x.stopAt ≠ none

theorem Sound.ongoing_of_state {next : Nat} {x : StreamIndexer σ κ τ}
    (h : Sound codec packed plain At next x) (hstate : x.state ≠ .done) :
    x.index.complete = false := by
  cases hcomplete : x.index.complete with
  | false => rfl
  | true => exact absurd (h.complete hcomplete).state hstate

/-- Moving a sound, unfinished indexer to another state of its loop. -/
theorem Sound.withState {next next' : Nat} {x : StreamIndexer σ κ τ}
    (h : Sound codec packed plain At next x) (state : State) (hongoing : x.index.complete = false)
    (hplaced : Placed packed next' { x with state }) (hstate : state ≠ .done) :
    Sound codec packed plain At next' { x with state } where
  laid := ⟨h.laid.table, h.laid.last, h.laid.reached, h.laid.bytes⟩
  stands := h.stands
  placed := hplaced
  behind := h.behind
  indexed := h.indexed
  unpackedLen := h.unpackedLen
  complete := fun hcomplete => absurd hcomplete (by simp [hongoing])
  done := fun hdone => absurd hdone hstate

/-- What a step hands out is what it newly covers. -/
structure Covers (plain : List Byte) (x x' : StreamIndexer σ κ τ) : Prop where
  emitOutput : x'.emitOutput = x.emitOutput
  stopAt : x'.stopAt = x.stopAt
  eof : x'.eof = x.eof
  grows : x.index.indexedTo ≤ x'.index.indexedTo
  pending : x.emitOutput = true → x.pending = [] →
    x'.pending = seg plain x.index.indexedTo x'.index.indexedTo

theorem Covers.same {x x' : StreamIndexer σ κ τ} (hemit : x'.emitOutput = x.emitOutput)
    (hstop : x'.stopAt = x.stopAt) (heof : x'.eof = x.eof)
    (hindexed : x'.index.indexedTo = x.index.indexedTo) (hpending : x'.pending = x.pending) :
    Covers plain x x' := by
  refine ⟨hemit, hstop, heof, Nat.le_of_eq hindexed.symm, fun _ hnil => ?_⟩
  rw [hindexed, seg_self, hpending, hnil]

theorem Covers.trans {x₁ x₂ x₃ : StreamIndexer σ κ τ} (h : Covers plain x₁ x₂)
    (hnil : x₁.emitOutput = true → x₁.pending = [] → x₂.pending = []) (h' : Covers plain x₂ x₃) :
    Covers plain x₁ x₃ := by
  refine ⟨h'.emitOutput.trans h.emitOutput, h'.stopAt.trans h.stopAt, h'.eof.trans h.eof,
    Nat.le_trans h.grows h'.grows, fun hemit hfirst => ?_⟩
  have hsecond := hnil hemit hfirst
  have hnone := h.pending hemit hfirst
  rw [hsecond] at hnone
  rw [h'.pending (h.emitOutput.trans hemit) hsecond, ← seg_append plain h.grows h'.grows, ← hnone]
  rfl

/-- Packed bytes to be taken and plain bytes to be made. -/
def work (packed plain : List Byte) (x : StreamIndexer σ κ τ) : Nat :=
  (packed.length - x.compressedPos) + (plain.length - x.unpackedPos)

/-- The packed offset a caller reads from after a request. -/
def nextAfter (next : Nat) : Option EngineRequest → Nat
  | some (.seekAndRead offset _) => offset
  | _ => next

/-- What a round of the source's loop may do, reporting `request` or nothing. -/
structure Outcome (codec : Codec σ κ) (packed plain : List Byte) (At : σ → Nat → Nat → Prop)
    (next : Nat) (x : StreamIndexer σ κ τ) (request : Option EngineRequest)
    (x' : StreamIndexer σ κ τ) : Prop where
  sound : Sound codec packed plain At (nextAfter next request) x'
  fine : ∀ f, request ≠ some (.error f)
  covers : Covers plain x x'
  silent : request = none →
    work packed plain x' < work packed plain x ∧ x'.pending = [] ∧ x'.state = .processing
  input : (request = some .needInput ∨ ∃ a b, request = some (.seekAndRead a b)) →
    Fed packed (nextAfter next request) x' ∧ x'.inputLeft = [] ∧ x'.index.complete = false
  moved : request = some .needInput → x'.eof = true → work packed plain x' < work packed plain x
  sought : ∀ a b, request = some (.seekAndRead a b) →
    (∃ offset, x.state = .seek offset) ∧ x' = { x with state := .needInput }
  ready : request = some .outputReady → x.pending = [] →
    work packed plain x' + x'.pending.length ≤ work packed plain x ∧ 0 < x'.pending.length
  ended : request = some .done → x'.state = .done
  work_le : work packed plain x' ≤ work packed plain x
  quiet : request ≠ some .outputReady → x.pending = [] → x'.pending = []
  settled : ∀ offset, x'.state ≠ .seek offset

theorem inputLeft_length (x : StreamIndexer σ κ τ) :
    x.inputLeft.length = x.inputBuf.length - x.inputPos := by
  simp [inputLeft]

/-- After a decode call the rest of the input still continues the stream. -/
theorem Fed.advance {next : Nat} {x : StreamIndexer σ κ τ} {result : DecompressResult} {d : σ}
    (h : Fed packed next x) (hle : result.bytesConsumed ≤ x.inputLeft.length) :
    Fed packed next (x.advance result d) := by
  have hleft : (x.advance result d).inputLeft = x.inputLeft.drop result.bytesConsumed := by
    rw [inputLeft, inputLeft, List.drop_drop]
    rfl
  have hnext := h.place
  have hpos := h.inputPos
  have hlen := x.inputLeft_length
  refine ⟨?_, ?_, ?_, h.eof⟩
  · rw [hleft, List.length_drop]
    show next = x.compressedPos + result.bytesConsumed + _
    omega
  · rw [hleft]
    show _ <+: packed.drop (x.compressedPos + result.bytesConsumed)
    rw [← List.drop_drop]
    exact List.IsPrefix.drop h.input _
  · show x.inputPos + result.bytesConsumed ≤ x.inputBuf.length
    omega

/-- `x'` differs from `x` in its strategy, its table, its pending output and how far it
has covered the stream. -/
def Recovered (x x' : StreamIndexer σ κ τ) : Prop :=
  x' = { x with
    strategy := x'.strategy
    index := { x.index with
      checkpoints := x'.index.checkpoints, indexedTo := x'.index.indexedTo }
    checkpointDataBytes := x'.checkpointDataBytes
    lastCheckpointPos := x'.lastCheckpointPos
    outBuf := x'.outBuf
    outRead := x'.outRead }

/-- The bytes no earlier pass covered are checkpointed and handed out, no others. -/
theorem cover_spec (impl : CheckpointStrategy τ) (hC : Obeys codec packed plain At)
    {before : Nat} {result : DecompressResult} {x : StreamIndexer σ κ τ} (h : Laid codec At x)
    (hstands : At x.decompressor x.compressedPos x.unpackedPos)
    (hbefore : before ≤ x.index.indexedTo)
    (hpos : x.unpackedPos = before + result.produced.length)
    (hproduced : result.produced = seg plain before x.unpackedPos) :
    ∃ x', cover impl before result x = .ok x' ∧ Laid codec At x' ∧ Recovered x x' ∧
      x'.index.indexedTo = max x.index.indexedTo x.unpackedPos ∧ Covers plain x x' ∧
      (x.pending = [] → x'.pending.length ≤ result.produced.length) := by
  rw [cover]
  by_cases hfresh : x.index.indexedTo < x.unpackedPos
  · rw [if_pos hfresh]
    have hmade : 0 < result.bytesProduced := by
      rw [DecompressResult.bytesProduced]
      omega
    rw [if_pos hmade]
    obtain ⟨x₁, hrun, hlaid, hrel⟩ : ∃ x₁,
        (if (impl.shouldCheckpoint x.strategy x.context).1 then
            tryCheckpoint impl true
              { x with strategy := (impl.shouldCheckpoint x.strategy x.context).2 }
          else .ok { x with strategy := (impl.shouldCheckpoint x.strategy x.context).2 }) =
          .ok x₁ ∧ Laid codec At x₁ ∧ Relaid x x₁ := by
      have hasked : Laid codec At
          { x with strategy := (impl.shouldCheckpoint x.strategy x.context).2 } :=
        ⟨h.table, h.last, h.reached, h.bytes⟩
      by_cases hask : (impl.shouldCheckpoint x.strategy x.context).1 = true
      · rw [if_pos hask]
        obtain ⟨x₁, hrun, hlaid, hrel⟩ := tryCheckpoint_laid impl true hC hasked hstands
        have hasks : Relaid x
            { x with strategy := (impl.shouldCheckpoint x.strategy x.context).2 } := rfl
        exact ⟨x₁, hrun, hlaid, hasks.trans hrel⟩
      · rw [if_neg hask]
        exact ⟨_, rfl, hasked, rfl⟩
    simp only [hrun, Except.map]
    rw [Relaid] at hrel
    have hindexed : x₁.index.indexedTo = x.index.indexedTo := by rw [hrel]
    have hunpacked : x₁.unpackedPos = x.unpackedPos := by rw [hrel]
    have hemit : x₁.emitOutput = x.emitOutput := by rw [hrel]
    have hmax : max x.index.indexedTo x.unpackedPos = x.unpackedPos := by omega
    have hlaid' : ∀ (out : List Byte) (n : Nat), Laid codec At { x₁ with
        outBuf := out, outRead := n
        index := { x₁.index with indexedTo := x₁.unpackedPos } } := fun _ _ =>
      ⟨⟨hlaid.table.sameCodec, hlaid.table.first, hlaid.table.increasing, hlaid.table.exact⟩,
        hlaid.last, hlaid.reached, hlaid.bytes⟩
    by_cases hemits : x₁.emitOutput = true
    · rw [if_pos hemits]
      refine ⟨_, rfl, hlaid' _ _, ?_, ?_, ⟨?_, by rw [hrel], by rw [hrel], ?_, ?_⟩, ?_⟩
      · rw [Recovered, hrel]
      · exact hunpacked.trans hmax.symm
      · exact hemit
      · show x.index.indexedTo ≤ x₁.unpackedPos
        omega
      · intro _ _
        show result.produced.drop (x₁.index.indexedTo - before) = seg plain _ x₁.unpackedPos
        rw [hproduced, seg_drop, hindexed, hunpacked]
        congr 1
        omega
      · intro _
        show (result.produced.drop _).length ≤ _
        rw [List.length_drop]
        exact Nat.sub_le _ _
    · rw [if_neg hemits]
      refine ⟨_, rfl, hlaid' _ _, ?_, ?_, ⟨?_, by rw [hrel], by rw [hrel], ?_, ?_⟩, ?_⟩
      · rw [Recovered, hrel]
      · exact hunpacked.trans hmax.symm
      · exact hemit
      · show x.index.indexedTo ≤ x₁.unpackedPos
        omega
      · intro hon _
        rw [← hemit] at hon
        exact absurd hon hemits
      · intro hnil
        have hsame : x₁.pending = x.pending := by rw [hrel]; rfl
        show x₁.pending.length ≤ _
        rw [hsame, hnil]
        exact Nat.zero_le _
  · rw [if_neg hfresh]
    refine ⟨x, rfl, h, rfl, by omega, Covers.same rfl rfl rfl rfl rfl, fun hnil => ?_⟩
    rw [hnil]
    exact Nat.zero_le _

theorem pending_eq_nil {x : StreamIndexer σ κ τ} (h : ¬ x.outRead < x.outBuf.length) :
    x.pending = [] := List.drop_eq_nil_of_le (by omega)

theorem inputLeft_eq_nil {x : StreamIndexer σ κ τ} (h : x.inputBuf.length ≤ x.inputPos) :
    x.inputLeft = [] := List.drop_eq_nil_of_le h

/-- Stopping, at the end of the stream or before it, reports what is still to be read. -/
theorem Sound.outcome_stop {next : Nat} {x₀ x : StreamIndexer σ κ τ}
    (h : Sound codec packed plain At next x) (hcovers : Covers plain x₀ x)
    (hstate : x.state = .done) (hle : work packed plain x ≤ work packed plain x₀)
    (hready : x₀.pending = [] → work packed plain x + x.pending.length ≤ work packed plain x₀) :
    Outcome codec packed plain At next x₀
      (some (if x.outRead < x.outBuf.length then .outputReady else .done)) x := by
  split
  case isTrue hlt =>
    refine ⟨h, by simp, hcovers, by simp, by simp, by simp, by simp, fun _ hnil => ?_, by simp,
      hle, by simp, by simp [hstate]⟩
    refine ⟨hready hnil, ?_⟩
    rw [pending, List.length_drop]
    omega
  case isFalse hdrained =>
    exact ⟨h, by simp, hcovers, by simp, by simp, by simp, by simp, by simp, fun _ => hstate,
      hle, fun _ _ => pending_eq_nil hdrained, by simp [hstate]⟩

/-- Asking for input when all of it is taken. -/
theorem Sound.outcome_needInput {next : Nat} {x₀ x : StreamIndexer σ κ τ}
    (h : Sound codec packed plain At next x) (hcovers : Covers plain x₀ x)
    (hfed : Fed packed next x) (hnil : x.inputLeft = []) (hongoing : x.index.complete = false)
    (hmoved : x.eof = true → work packed plain x < work packed plain x₀)
    (hle : work packed plain x ≤ work packed plain x₀)
    (hquiet : x₀.pending = [] → x.pending = []) (hsettled : ∀ offset, x.state ≠ .seek offset) :
    Outcome codec packed plain At next x₀ (some .needInput) x :=
  ⟨h, by simp, hcovers, by simp, fun _ => ⟨hfed, hnil, hongoing⟩, fun _ => hmoved, by simp,
    by simp, by simp, hle, fun _ => hquiet, hsettled⟩

theorem conclude_outcome (impl : CheckpointStrategy τ) (hC : Obeys codec packed plain At)
    {next : Nat} {x₀ x : StreamIndexer σ κ τ} {result : DecompressResult} {hadInput : Bool}
    (h : Sound codec packed plain At next x) (hstate : x.state = .processing)
    (hcovers : Covers plain x₀ x)
    (hend : result.status = .streamEnd →
      x.unpackedPos = plain.length ∧ Reported codec x.decompressor)
    (hidle : result.bytesConsumed = 0 ∧ result.bytesProduced = 0 →
      result.status = .streamEnd ∨ packed = [] ∧ plain = [])
    (hhad : result.bytesConsumed = 0 → x.inputBuf.length ≤ x.inputPos → hadInput = false)
    (hmoved : ¬ (result.bytesConsumed = 0 ∧ result.bytesProduced = 0) →
      work packed plain x < work packed plain x₀)
    (hle : work packed plain x ≤ work packed plain x₀)
    (hready : x₀.pending = [] → work packed plain x + x.pending.length ≤ work packed plain x₀) :
    Outcome codec packed plain At next x₀ (conclude impl result hadInput x).1
      (conclude impl result hadInput x).2 := by
  have hwithin := hC.within _ _ _ h.stands
  have hongoing := h.ongoing_of_state (by simp [hstate])
  have hfed : Fed packed next x := by
    have := h.placed
    simpa only [Placed, hstate] using this
  unfold conclude
  simp only
  generalize hidleAtEof :
    (!hadInput && result.bytesConsumed == 0 && result.bytesProduced == 0) = idleAtEof
  have hstill : idleAtEof = true → result.bytesConsumed = 0 ∧ result.bytesProduced = 0 := by
    rintro rfl
    simp only [Bool.and_eq_true, beq_iff_eq] at hidleAtEof
    exact ⟨hidleAtEof.1.2, hidleAtEof.2⟩
  have hcut : ¬ (idleAtEof = true ∧ result.status ≠ .streamEnd ∧ 0 < x.compressedPos) := by
    rintro ⟨hi, hstatus, hpos⟩
    rcases hidle (hstill hi) with hend' | ⟨hpacked, _⟩
    · exact hstatus hend'
    · rw [hpacked, List.length_nil] at hwithin
      omega
  rw [if_neg hcut]
  by_cases hended : result.status = .streamEnd ∨ idleAtEof = true
  · rw [if_pos hended]
    have hall : x.unpackedPos = plain.length ∧ (Reported codec x.decompressor ∨ packed = []) := by
      by_cases hstatus : result.status = .streamEnd
      · exact ⟨(hend hstatus).1, .inl (hend hstatus).2⟩
      · rcases hidle (hstill (hended.resolve_left hstatus)) with hend' | ⟨hpacked, hplain⟩
        · exact absurd hend' hstatus
        · refine ⟨?_, .inr hpacked⟩
          rw [hplain, List.length_nil] at hwithin ⊢
          omega
    have hdone : Sound codec packed plain At next { x with
        index := { x.index with complete := true, unpackedLen := some x.unpackedPos }
        state := .done } := by
      refine ⟨⟨⟨h.laid.table.sameCodec, h.laid.table.first, h.laid.table.increasing,
        h.laid.table.exact⟩, h.laid.last, h.laid.reached, h.laid.bytes⟩, h.stands, trivial,
        h.behind, h.indexed, ?_, fun _ => ?_, fun _ => .inl rfl⟩
      · intro n hn
        exact (Option.some.inj hn).symm.trans hall.1
      · exact ⟨rfl, congrArg some hall.1, Nat.le_antisymm h.indexed (hall.1 ▸ h.behind), hall.2⟩
    exact hdone.outcome_stop ⟨hcovers.emitOutput, hcovers.stopAt, hcovers.eof, hcovers.grows, hcovers.pending⟩ rfl
      hle hready
  · rw [if_neg hended]
    by_cases hstopped : (x.stopAt.any fun stop => decide (stop ≤ x.unpackedPos)) = true
    · rw [if_pos hstopped]
      obtain ⟨x₁, hrun, hlaid₁, hrel⟩ := tryCheckpoint_laid impl false hC h.laid h.stands
      rw [hrun]
      rw [Relaid] at hrel
      have hpending : x₁.pending = x.pending := by rw [hrel]; rfl
      have hindex : x₁.index.indexedTo = x.index.indexedTo := by rw [hrel]
      have hwork : work packed plain { x₁ with state := .done } = work packed plain x := by
        rw [hrel]
        rfl
      have hdone : Sound codec packed plain At next { x₁ with state := .done } := by
        refine ⟨⟨hlaid₁.table, hlaid₁.last, hlaid₁.reached, hlaid₁.bytes⟩, ?_, trivial, ?_, ?_,
          ?_, ?_, ?_⟩
        · show At x₁.decompressor x₁.compressedPos x₁.unpackedPos
          rw [hrel]
          exact h.stands
        · show x₁.unpackedPos ≤ x₁.index.indexedTo
          rw [hrel]
          exact h.behind
        · show x₁.index.indexedTo ≤ plain.length
          rw [hrel]
          exact h.indexed
        · show ∀ n, x₁.index.unpackedLen = some n → n = plain.length
          rw [hrel]
          exact h.unpackedLen
        · show x₁.index.complete = true → _
          rw [hrel]
          exact fun hcomplete => absurd hcomplete (by simp [hongoing])
        · intro _
          refine .inr ?_
          show x₁.stopAt ≠ none
          rw [hrel]
          intro hnone
          have hnone : x.stopAt = none := hnone
          rw [hnone] at hstopped
          exact Bool.noConfusion hstopped
      refine hdone.outcome_stop ⟨?_, ?_, ?_, ?_, ?_⟩ rfl ?_ ?_
      · show x₁.emitOutput = x₀.emitOutput
        rw [hrel]
        exact hcovers.emitOutput
      · show x₁.stopAt = x₀.stopAt
        rw [hrel]
        exact hcovers.stopAt
      · show x₁.eof = x₀.eof
        rw [hrel]
        exact hcovers.eof
      · show x₀.index.indexedTo ≤ x₁.index.indexedTo
        rw [hindex]
        exact hcovers.grows
      · intro hemit hnil
        show x₁.pending = seg plain x₀.index.indexedTo x₁.index.indexedTo
        rw [hpending, hindex]
        exact hcovers.pending hemit hnil
      · rw [hwork]
        exact hle
      · intro hnil
        show work packed plain { x₁ with state := .done } + x₁.pending.length ≤ _
        rw [hwork, hpending]
        exact hready hnil
    · rw [if_neg hstopped]
      by_cases hlt : x.outRead < x.outBuf.length
      · rw [if_pos hlt]
        refine ⟨h, by simp, hcovers, by simp, by simp, by simp, by simp, fun _ hnil => ?_,
          by simp, hle, by simp, by simp [hstate]⟩
        refine ⟨hready hnil, ?_⟩
        show 0 < x.pending.length
        rw [pending, List.length_drop]
        omega
      · rw [if_neg hlt]
        by_cases hout : x.inputBuf.length ≤ x.inputPos
        · rw [if_pos hout]
          have hnil := inputLeft_eq_nil hout
          by_cases heof : x.eof = true
          · rw [if_pos heof]
            refine h.outcome_needInput hcovers hfed hnil hongoing (fun _ => hmoved ?_) hle
              (fun _ => pending_eq_nil hlt) (by simp [hstate])
            rintro ⟨hnone, hmade⟩
            refine hended (.inr ?_)
            rw [← hidleAtEof, hhad hnone hout, hnone, hmade]
            rfl
          · rw [if_neg heof]
            have hfed' : Fed packed next { x with state := .needInput } :=
              ⟨hfed.place, hfed.input, hfed.inputPos, hfed.eof⟩
            exact (h.withState .needInput hongoing ⟨hfed', hnil⟩ (by simp)).outcome_needInput
              ⟨hcovers.emitOutput, hcovers.stopAt, hcovers.eof, hcovers.grows, hcovers.pending⟩ hfed' hnil hongoing
              (fun hends => absurd hends heof) hle (fun _ => pending_eq_nil hlt) (by simp)
        · rw [if_neg hout]
          have hmoves : ¬ (result.bytesConsumed = 0 ∧ result.bytesProduced = 0) := by
            intro hnone
            rcases hidle hnone with hstatus | ⟨hpacked, _⟩
            · exact hended (.inl hstatus)
            · have hinput := hfed.input
              rw [hpacked, List.drop_nil] at hinput
              have hlen₀ := x.inputLeft_length
              rw [List.eq_nil_of_prefix_nil hinput, List.length_nil] at hlen₀
              omega
          rw [if_neg hmoves]
          exact ⟨h, by simp, hcovers, fun _ => ⟨hmoved hmoves, pending_eq_nil hlt, hstate⟩,
            by simp, by simp, by simp, by simp, by simp, hle, fun _ _ => pending_eq_nil hlt,
            by simp [hstate]⟩

theorem process_outcome (impl : CheckpointStrategy τ) (hC : Obeys codec packed plain At)
    {next : Nat} {x : StreamIndexer σ κ τ} (h : Sound codec packed plain At next x)
    (hstate : x.state = .processing) :
    Outcome codec packed plain At next x (process impl x).1 (process impl x).2 := by
  have hfed : Fed packed next x := by
    have := h.placed
    simpa only [Placed, hstate] using this
  have hongoing := h.ongoing_of_state (by simp [hstate])
  obtain rfl := h.laid.table.sameCodec
  unfold process
  by_cases hlt : x.outRead < x.outBuf.length
  · rw [if_pos hlt]
    refine ⟨h, by simp, Covers.same rfl rfl rfl rfl rfl, by simp, by simp, by simp, by simp,
      fun _ hnil => ?_, by simp, Nat.le_refl _, fun _ => id, by simp [hstate]⟩
    rw [pending, List.drop_eq_nil_iff] at hnil
    exact absurd hlt (by omega)
  · rw [if_neg hlt]
    by_cases hwait : x.inputBuf.length ≤ x.inputPos ∧ x.eof = false
    · rw [if_pos hwait]
      have hnil := inputLeft_eq_nil hwait.1
      have hfed' : Fed packed next { x with state := .needInput } :=
        ⟨hfed.place, hfed.input, hfed.inputPos, hfed.eof⟩
      exact (h.withState .needInput hongoing ⟨hfed', hnil⟩ (by simp)).outcome_needInput
        (Covers.same rfl rfl rfl rfl rfl) hfed' hnil hongoing
        (fun hends => absurd hends (by simp [hwait.2])) (Nat.le_refl _) id (by simp)
    · rw [if_neg hwait]
      have hends : x.inputLeft = [] → packed.length ≤ x.compressedPos := by
        intro hnil
        have hlen := x.inputLeft_length
        have hplace := hfed.place
        rw [hnil, List.length_nil] at hlen hplace
        have heof : x.eof = true := by
          by_contra hlive
          exact hwait ⟨by omega, by simpa using hlive⟩
        have := hfed.eof heof
        omega
      obtain ⟨result, d, hdec, hgood⟩ := hC.decompress _ _ _ _ _ h.stands hfed.input hends
        (show 0 < bufSize by decide)
      have hproduced := eq_seg_of_prefix hgood.produced_eq
      obtain ⟨x₁, hcover, hlaid₁, hrec, hindexed, hcovers, hpending⟩ :=
        cover_spec impl hC (x := x.advance result d)
          ⟨h.laid.table, h.laid.last, Nat.le_trans h.laid.reached (Nat.le_add_right _ _),
            h.laid.bytes⟩ hgood.stands h.behind rfl hproduced
      simp only [hdec, hcover]
      rw [Recovered] at hrec
      have hfed' := hfed.advance (d := d) hgood.consumed_le
      have hunpacked : x₁.unpackedPos = x.unpackedPos + result.produced.length := by
        rw [hrec]
        rfl
      have hstate₁ : x₁.state = .processing := by rw [hrec]; exact hstate
      have hwithin := hC.within _ _ _ hgood.stands
      have hwork : work packed plain x₁ =
          (packed.length - (x.compressedPos + result.bytesConsumed)) +
            (plain.length - (x.unpackedPos + result.produced.length)) := by
        rw [hrec]
        rfl
      have hsound : Sound x.index.codec packed plain At next x₁ := by
        refine ⟨hlaid₁, ?_, ?_, ?_, ?_, ?_, ?_, ?_⟩
        · rw [hrec]
          exact hgood.stands
        · simp only [Placed, hstate₁]
          rw [hrec]
          exact ⟨hfed'.place, hfed'.input, hfed'.inputPos, hfed'.eof⟩
        · rw [hindexed, hrec]
          exact Nat.le_max_right _ _
        · rw [hindexed]
          exact Nat.max_le.mpr ⟨h.indexed, hwithin.2⟩
        · rw [hrec]
          exact h.unpackedLen
        · rw [hrec]
          exact fun hcomplete => absurd hcomplete (by simp [StreamIndexer.advance, hongoing])
        · rw [hstate₁]
          exact fun hdone => State.noConfusion hdone
      refine conclude_outcome impl hC hsound hstate₁
        ⟨hcovers.emitOutput, hcovers.stopAt, hcovers.eof, hcovers.grows, hcovers.pending⟩
        ?_ ?_ ?_ ?_ ?_ ?_
      · intro hstatus
        refine ⟨hunpacked.trans (hgood.ended hstatus), ?_⟩
        rw [hrec]
        exact ⟨_, _, _, _, hdec, hstatus⟩
      · intro hnone
        rcases hgood.idle hnone with ⟨hstatus, _⟩ | hempty
        · exact .inl hstatus
        · exact .inr hempty
      · intro hnone hout
        rw [hrec] at hout
        have hout : x.inputBuf.length ≤ x.inputPos + result.bytesConsumed := hout
        rw [inputLeft_eq_nil (by omega)]
        rfl
      · intro hsome
        rw [hwork]
        simp only [work, DecompressResult.bytesProduced] at hsome ⊢
        omega
      · rw [hwork]
        simp only [work]
        omega
      · intro hnil
        have hshort := hpending hnil
        rw [hwork]
        simp only [work]
        omega

/-- One round of the source's loop. -/
theorem stepOnce_outcome (impl : CheckpointStrategy τ) (hC : Obeys codec packed plain At)
    {next : Nat} {x : StreamIndexer σ κ τ} (h : Sound codec packed plain At next x) :
    Outcome codec packed plain At next x (stepOnce impl x).1 (stepOnce impl x).2 := by
  have hplaced := h.placed
  unfold stepOnce
  match hstate : x.state with
  | .done =>
    exact ⟨h, by simp, Covers.same rfl rfl rfl rfl rfl, by simp, by simp, by simp, by simp,
      by simp, fun _ => hstate, Nat.le_refl _, fun _ => id, by simp [hstate]⟩
  | .seek offset =>
    simp only [Placed, hstate] at hplaced
    obtain ⟨hoffset, hbuf, hpos, hlive⟩ := hplaced
    have hongoing := h.ongoing_of_state (by simp [hstate])
    have hnil : x.inputLeft = [] := by rw [inputLeft, hbuf, List.drop_nil]
    have hfed : Fed packed offset { x with state := .needInput } := by
      refine ⟨?_, ?_, ?_, ?_⟩
      · show offset = x.compressedPos + x.inputLeft.length
        rw [hnil, hoffset, List.length_nil, Nat.add_zero]
      · show x.inputLeft <+: _
        rw [hnil]
        exact List.nil_prefix
      · show x.inputPos ≤ _
        rw [hpos]
        exact Nat.zero_le _
      · exact fun heof => absurd heof (by simp [hlive])
    exact ⟨h.withState .needInput hongoing ⟨hfed, hnil⟩ (by simp), by simp,
      Covers.same rfl rfl rfl rfl rfl, by simp, fun _ => ⟨hfed, hnil, hongoing⟩, by simp,
      fun _ _ _ => ⟨⟨offset, hstate⟩, rfl⟩, by simp, by simp, Nat.le_refl _, fun _ => id, by simp⟩
  | .needInput =>
    simp only [Placed, hstate] at hplaced
    obtain ⟨hfed, hnil⟩ := hplaced
    have hongoing := h.ongoing_of_state (by simp [hstate])
    by_cases heof : x.eof = true
    · simp only [if_pos heof]
      have hfed' : Fed packed next { x with state := .processing } :=
        ⟨hfed.place, hfed.input, hfed.inputPos, hfed.eof⟩
      have hout := process_outcome impl hC (h.withState .processing hongoing hfed' (by simp)) rfl
      refine ⟨hout.sound, hout.fine,
        ⟨hout.covers.emitOutput, hout.covers.stopAt, hout.covers.eof, hout.covers.grows,
          hout.covers.pending⟩, hout.silent, hout.input,
        hout.moved, ?_, hout.ready, hout.ended, hout.work_le, hout.quiet, hout.settled⟩
      intro a b hsought
      obtain ⟨⟨offset, hseek⟩, _⟩ := hout.sought a b hsought
      exact State.noConfusion hseek
    · simp only [if_neg heof]
      exact h.outcome_needInput (Covers.same rfl rfl rfl rfl rfl) hfed hnil hongoing
        (fun hends => absurd hends heof) (Nat.le_refl _) id (by simp [hstate])
  | .processing => exact process_outcome impl hC h hstate

/-- One `step`. -/
theorem step_outcome (impl : CheckpointStrategy τ) (hC : Obeys codec packed plain At)
    {next fuel : Nat} {x x' : StreamIndexer σ κ τ} {request : EngineRequest}
    (h : Sound codec packed plain At next x) (hstep : step impl fuel x = some (request, x')) :
    Outcome codec packed plain At next x (some request) x' := by
  refine untilSome_rule (I := fun y => Sound codec packed plain At next y ∧
      (y = x ∨ Covers plain x y ∧ y.pending = [] ∧ work packed plain y ≤ work packed plain x ∧
        y.state = .processing))
    (Q := fun req y => Outcome codec packed plain At next x (some req) y)
    ?_ ?_ fuel x request x' ⟨h, .inl rfl⟩ hstep
  · rintro y y' ⟨hsound, hsame⟩ hsilent
    have hout := stepOnce_outcome impl hC hsound
    rw [hsilent] at hout
    simp only at hout
    obtain ⟨hwork, hnil, hstate⟩ := hout.silent rfl
    refine ⟨hout.sound, .inr ?_⟩
    rcases hsame with rfl | ⟨hcovers, hnil₀, hwork₀, _⟩
    · exact ⟨hout.covers, hnil, Nat.le_of_lt hwork, hstate⟩
    · exact ⟨hcovers.trans (fun _ _ => hnil₀) hout.covers, hnil, by omega, hstate⟩
  · rintro y request' y' ⟨hsound, hsame⟩ hreport
    have hout := stepOnce_outcome impl hC hsound
    rw [hreport] at hout
    simp only at hout
    rcases hsame with rfl | ⟨hcovers, hnil₀, hwork₀, hstate⟩
    · exact hout
    · refine ⟨hout.sound, hout.fine, hcovers.trans (fun _ _ => hnil₀) hout.covers, by simp,
        hout.input, ?_, ?_, ?_, hout.ended, Nat.le_trans hout.work_le hwork₀,
        fun hreq _ => hout.quiet hreq hnil₀, hout.settled⟩
      · intro hreq heof
        have := hout.moved hreq heof
        omega
      · intro a b hreq
        obtain ⟨⟨offset, hseek⟩, _⟩ := hout.sought a b hreq
        rw [hstate] at hseek
        exact State.noConfusion hseek
      · intro hreq _
        obtain ⟨hless, hpos⟩ := hout.ready hreq hnil₀
        exact ⟨by omega, hpos⟩

/-- Rounds enough for one `step` of any indexer over the stream. -/
def stepFuel (packed plain : List Byte) : Nat := packed.length + plain.length + 1

theorem step_reports (impl : CheckpointStrategy τ) (hC : Obeys codec packed plain At)
    {next : Nat} {x : StreamIndexer σ κ τ} (h : Sound codec packed plain At next x) :
    ∃ request x', step impl (stepFuel packed plain) x = some (request, x') := by
  refine untilSome_reports (I := Sound codec packed plain At next) (work packed plain) ?_ _ x h ?_
  · intro y y' hsound hsilent
    have hout := stepOnce_outcome impl hC hsound
    rw [hsilent] at hout
    simp only at hout
    exact ⟨hout.sound, (hout.silent rfl).1⟩
  · rw [work, stepFuel]
    omega

end StreamIndexer
end Iluvatar
