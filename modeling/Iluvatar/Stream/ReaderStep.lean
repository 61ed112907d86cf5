/-
Every operation of a `StreamReader` keeps what the reader owes its range.
-/
import Iluvatar.Stream.ReaderServe

namespace Iluvatar

open Sansio

variable {σ κ : Type}

namespace StreamReader

variable {codec : Codec σ κ} {packed plain : List Byte} {At : σ → Nat → Nat → Prop}
variable {r : StreamReader σ κ} {offset len : Nat} {delivered : List Byte}

theorem bufferedLen_eq_zero (hserve : r.serveable = 0) (hleft : 0 < r.rangeLeft) :
    r.bufferedLen = 0 := by
  rw [serveable_eq] at hserve
  omega

theorem buffered_eq_nil (h : r.bufferedLen = 0) : r.buffered = [] :=
  List.eq_nil_of_length_eq_zero (by rw [buffered_length, h])

theorem eof_of_not_waiting (h : ¬ (!(!r.inputLeft.isEmpty) && !r.eof) = true) :
    r.inputLeft = [] → r.eof = true := by
  intro hnil
  simpa [hnil] using h

/-- Waiting for input in the middle of a skip or an emit. -/
theorem waiting_outcome {c : Nat} {state : State}
    (hs : Standing packed plain At r c)
    (hwait : (!(!r.inputLeft.isEmpty) && !r.eof) = true)
    (hphase : r.inputLeft = [] → Phase plain { r with state } offset len delivered) :
    Outcome codec packed plain At offset len delivered r (some .needInput) { r with state } := by
  simp only [Bool.not_not, Bool.and_eq_true, List.isEmpty_iff, Bool.not_eq_true'] at hwait
  obtain ⟨hnil, hlive⟩ := hwait
  refine outcome_needInput (.inr ⟨c, hs.withState state, hphase hnil⟩) ?_ (Nat.le_refl _)
    ⟨hnil, hs.started⟩ ?_
  · exact ⟨rfl, rfl, rfl, rfl, rfl, rfl, rfl, id⟩
  · intro heof
    exact absurd heof (by simp [hlive])

theorem Range.frame {r' : StreamReader σ κ} (h : Range plain r offset len delivered)
    (hframe : Frame r r') : Range plain r' offset len delivered where
  unpackedLen := by rw [hframe.unpackedLen]; exact h.unpackedLen
  requireFull := by rw [hframe.unpackedLen, hframe.requireFull]; exact h.requireFull
  targetOffset := by rw [hframe.targetOffset]; exact h.targetOffset
  targetLen := by rw [hframe.unpackedLen, hframe.targetLen]; exact h.targetLen
  rangeLeft := by rw [hframe.rangeLeft, hframe.targetLen]; exact h.rangeLeft
  delivered := h.delivered

theorem inputLeft_advance {result : DecompressResult} {d : σ} (hnil : r.inputLeft = []) :
    (r.advance result d).inputLeft = [] := by
  rw [inputLeft, List.drop_eq_nil_iff] at hnil ⊢
  simp only [advance]
  omega

/-- A decode call that gave the caller bytes of its range. -/
theorem produced_outcome {r₃ : StreamReader σ κ} {c room dropped left : Nat}
    {result : DecompressResult} {d : σ}
    (hs : Standing packed plain At r c) (hrange : Range plain r offset len delivered)
    (hgood : GoodCall At packed plain c r.unpackedPos r.inputLeft room result d)
    (hadv : Advanced r r₃ result d dropped) (hframe : Frame r r₃)
    (hdropped : dropped < result.produced.length) (howed : 0 < r.rangeLeft)
    (hplace : r.unpackedPos + dropped = offset + delivered.length)
    (hleft : left = r.rangeLeft - (result.produced.length - dropped))
    (hstate : r₃.state = (if left = 0 then .done else .emitting left) ∨
      r₃.state = .done ∧ result.status = .streamEnd) :
    Outcome codec packed plain At offset len delivered r (some .outputReady) r₃ := by
  have hs₃ := hadv.standing hs hgood (by omega)
  have hbuf := hadv.bufferedLen
  have hpos := hadv.unpackedPos
  have hsame := hframe.rangeLeft
  refine outcome_outputReady (.inr ⟨_, hs₃, ?_⟩) hframe (hadv.work_le hs hgood.consumed_le)
    (by rw [serveable_eq]; omega)
  refine (hrange.frame hframe).produced_phase hs₃ (by omega)
    (show left = r₃.rangeLeft - r₃.bufferedLen by omega) ?_
  rcases hstate with hstate | ⟨hstate, hend⟩
  · exact .inl hstate
  · exact .inr ⟨hstate, by rw [hpos]; exact hgood.ended hend⟩

theorem skip_outcome {c remaining : Nat} (hC : Obeys codec packed plain At)
    (hs : Standing packed plain At r c) (hcodec : r.codec = codec)
    (hrange : Range plain r offset len delivered) (h : Skips r offset delivered remaining) :
    Outcome codec packed plain At offset len delivered r (r.skip remaining).1
      (r.skip remaining).2 := by
  unfold skip
  simp only
  by_cases hwait : (!(!r.inputLeft.isEmpty) && !r.eof) = true
  · rw [if_pos hwait]
    exact waiting_outcome hs hwait fun hnil =>
      ⟨⟨h.pos, h.empty, h.target, h.none, h.range⟩, hnil⟩
  · rw [if_neg hwait]
    obtain ⟨result, d, hdec, hgood⟩ := hs.decode hC (eof_of_not_waiting hwait)
      (show 0 < bufSize by decide)
    rw [hcodec, hdec]
    simp only
    have hbytes : result.bytesProduced = result.produced.length := rfl
    have hdelivered : delivered.length = 0 := by rw [h.none, List.length_nil]
    have hlen := hrange.rangeLeft
    have htarget := h.target
    have hnil : r.Drained → (r.advance result d).Drained :=
      fun h => ⟨inputLeft_advance h.1, h.2⟩
    by_cases hover : remaining < result.bytesProduced
    · rw [if_pos hover]
      have hleft : r.targetLen - (result.produced.drop remaining).length =
          r.rangeLeft - (result.produced.length - remaining) := by
        rw [List.length_drop]
        omega
      by_cases hend : result.status = .streamEnd
      · rw [if_pos hend]
        exact produced_outcome hs hrange hgood
          ⟨rfl, rfl, rfl, rfl, rfl, rfl, rfl, rfl, fun _ => .inl hend⟩
          ⟨rfl, rfl, rfl, rfl, rfl, rfl, rfl, hnil⟩ hover h.range (by omega) hleft (.inr ⟨rfl, hend⟩)
      · rw [if_neg hend]
        exact produced_outcome hs hrange hgood ⟨rfl, rfl, rfl, rfl, rfl, rfl, rfl, rfl, .inr⟩
          ⟨rfl, rfl, rfl, rfl, rfl, rfl, rfl, hnil⟩ hover h.range (by omega) hleft (.inl rfl)
    · rw [if_neg hover]
      have hempty : r.buffered = result.produced.drop result.produced.length := by
        rw [buffered_eq_nil h.empty, List.drop_length]
      have hframe : ∀ state, Frame r { r.advance result d with state } :=
        fun _ => ⟨rfl, rfl, rfl, rfl, rfl, rfl, rfl, hnil⟩
      refine afterDecode_outcome hC hs hgood
        ⟨rfl, rfl, rfl, rfl, rfl, rfl, rfl, hempty, .inr⟩ (Nat.le_refl _) (hframe _)
        (hrange.frame (hframe _)) h.empty ?_
      by_cases hzero : remaining - result.bytesProduced = 0
      · refine .inr ⟨r.targetLen, by rw [if_pos hzero], ?_, ?_, ?_⟩
        · have := h.range
          omega
        · show r.unpackedPos + result.bytesProduced - r.bufferedLen = offset + delivered.length
          rw [h.empty]
          omega
        · show r.rangeLeft = r.targetLen + r.bufferedLen
          rw [h.empty]
          omega
      · refine .inl ⟨remaining - result.bytesProduced, by rw [if_neg hzero], by omega, h.empty,
          ?_, h.none, h.range⟩
        show r.unpackedPos + result.bytesProduced + (remaining - result.bytesProduced) = offset
        omega

theorem emit_outcome {c remaining : Nat} (hC : Obeys codec packed plain At)
    (hs : Standing packed plain At r c) (hcodec : r.codec = codec)
    (hrange : Range plain r offset len delivered) (hserve : r.serveable = 0)
    (h : Emits r offset delivered remaining) :
    Outcome codec packed plain At offset len delivered r (r.emit remaining).1
      (r.emit remaining).2 := by
  unfold emit
  simp only
  by_cases hwait : (!(!r.inputLeft.isEmpty) && !r.eof) = true
  · rw [if_pos hwait]
    exact waiting_outcome hs hwait fun hnil => ⟨⟨h.pos, h.place, h.range⟩, hnil⟩
  · rw [if_neg hwait]
    have hpos := h.pos
    have howed := h.range
    have hplace := h.place
    have hbuf : r.bufferedLen = 0 := bufferedLen_eq_zero hserve (by omega)
    obtain ⟨result, d, hdec, hgood⟩ := hs.decode hC (eof_of_not_waiting hwait)
      (show 0 < min remaining bufSize by rw [Nat.lt_min]; exact ⟨h.pos, by decide⟩)
    rw [hcodec, hdec]
    simp only
    have hbytes : result.bytesProduced = result.produced.length := rfl
    have hroom := hgood.produced_le
    have hnil : r.Drained → (r.advance result d).Drained :=
      fun h => ⟨inputLeft_advance h.1, h.2⟩
    by_cases hmade : 0 < result.bytesProduced
    · rw [if_pos hmade]
      have hnext : r.unpackedPos + 0 = offset + delivered.length := by omega
      have hleft : remaining - result.bytesProduced =
          r.rangeLeft - (result.produced.length - 0) := by omega
      by_cases hend : result.status = .streamEnd
      · rw [if_pos hend]
        exact produced_outcome hs hrange hgood
          ⟨rfl, rfl, rfl, rfl, rfl, rfl, rfl, rfl, fun _ => .inl hend⟩
          ⟨rfl, rfl, rfl, rfl, rfl, rfl, rfl, hnil⟩ hmade (by omega) hnext hleft
          (.inr ⟨rfl, hend⟩)
      · rw [if_neg hend]
        exact produced_outcome hs hrange hgood ⟨rfl, rfl, rfl, rfl, rfl, rfl, rfl, rfl, .inr⟩
          ⟨rfl, rfl, rfl, rfl, rfl, rfl, rfl, hnil⟩ hmade (by omega) hnext hleft (.inl rfl)
    · rw [if_neg hmade]
      have hempty : r.buffered = result.produced.drop 0 := by
        rw [buffered_eq_nil hbuf, List.drop_zero]
        exact (List.eq_nil_of_length_eq_zero (by omega)).symm
      have hframe : Frame r { r.advance result d with state := .emitting remaining } :=
        ⟨rfl, rfl, rfl, rfl, rfl, rfl, rfl, hnil⟩
      refine afterDecode_outcome hC hs hgood
        ⟨rfl, rfl, rfl, rfl, rfl, rfl, rfl, hempty, .inr⟩ (Nat.zero_le _) hframe
        (hrange.frame hframe) hbuf (.inr ⟨remaining, rfl, h.pos, ?_, h.range⟩)
      show r.unpackedPos + result.bytesProduced - r.bufferedLen = offset + delivered.length
      omega

/-- Restoring the checkpoint and asking for the bytes that follow it. -/
theorem seek_outcome {d : σ} (hrange : Range plain r offset len delivered)
    (hfresh : Unstarted codec At r) (hnone : delivered = []) (hlen : r.targetLen ≠ 0)
    (hC : Obeys codec packed plain At)
    (hstands : At d r.checkpoint.compressedOffset r.checkpoint.uncompressedOffset) :
    Outcome codec packed plain At offset len delivered r
      (some (.seekAndRead r.checkpoint.compressedOffset bufSize))
      { r with
        decompressor := d
        started := true
        compressedPos := r.checkpoint.compressedOffset
        unpackedPos := r.checkpoint.uncompressedOffset
        state :=
          if 0 < r.targetOffset - r.checkpoint.uncompressedOffset then
            .needInputSkipping (r.targetOffset - r.checkpoint.uncompressedOffset)
          else .needInputEmitting r.targetLen } := by
  have hleft : r.inputLeft = [] := by rw [inputLeft, hfresh.inputBuf, List.drop_nil]
  have hbuf : r.bufferedLen = 0 := by rw [bufferedLen, hfresh.outputBuf]; exact Nat.zero_sub _
  have hbefore := hfresh.before
  have htarget := hrange.targetOffset
  have howed := hrange.rangeLeft
  have hdelivered : delivered.length = 0 := by rw [hnone, List.length_nil]
  refine
    { stage := .inr ⟨r.checkpoint.compressedOffset, ?_, ?_⟩
      frame := ⟨rfl, rfl, rfl, rfl, rfl, rfl, rfl, fun _ => ⟨hleft, rfl⟩⟩, fine := by simp
      work_le := ?_
      silent := by simp, needInput := by simp, seekAndRead := fun _ _ _ => ⟨⟨hleft, rfl⟩, ?_⟩
      outputReady := by simp, done := by simp }
  · refine ⟨rfl, hstands, ?_, ?_, ?_, ?_, ?_, ?_, ?_⟩
    · show r.checkpoint.compressedOffset = r.checkpoint.compressedOffset + r.inputLeft.length
      rw [hleft, List.length_nil, Nat.add_zero]
    · show r.inputLeft <+: _
      rw [hleft]
      exact List.nil_prefix
    · show r.inputPos ≤ _
      rw [hfresh.inputPos]
      exact Nat.zero_le _
    · show r.bufferedLen ≤ _
      rw [hbuf]
      exact Nat.zero_le _
    · show r.buffered = seg plain (r.checkpoint.uncompressedOffset - r.bufferedLen) _
      rw [hbuf, Nat.sub_zero, seg_self]
      exact buffered_eq_nil hbuf
    · intro heof
      exact absurd heof (by simp [hfresh.live])
    · intro hend
      exact absurd hend (by simp [hfresh.notEnded])
  · by_cases hskip : 0 < r.targetOffset - r.checkpoint.uncompressedOffset
    · rw [if_pos hskip]
      refine ⟨⟨hskip, hbuf, ?_, hnone, ?_⟩, hleft⟩
      · show r.checkpoint.uncompressedOffset + _ = offset
        omega
      · show 0 < r.rangeLeft
        omega
    · rw [if_neg hskip]
      refine ⟨⟨by omega, ?_, ?_⟩, hleft⟩
      · show r.checkpoint.uncompressedOffset - r.bufferedLen = _
        omega
      · show r.rangeLeft = r.targetLen + r.bufferedLen
        omega
  all_goals
    have hin := hC.within _ _ _ hstands
    have hzero : ({ r with
        decompressor := d
        started := true
        compressedPos := r.checkpoint.compressedOffset
        unpackedPos := r.checkpoint.uncompressedOffset
        state :=
          if 0 < r.targetOffset - r.checkpoint.uncompressedOffset then
            .needInputSkipping (r.targetOffset - r.checkpoint.uncompressedOffset)
          else .needInputEmitting r.targetLen } : StreamReader σ κ).inputLeft = [] := hleft
    simp only [work, if_true, hfresh.started, Bool.false_eq_true, if_false, hzero,
      List.length_nil]
    omega

/-- One round of the source's loop. -/
theorem stepOnce_outcome (hC : Obeys codec packed plain At) (hcodec : r.codec = codec)
    (hrange : Range plain r offset len delivered)
    (hstage : Stage codec packed plain At r offset len delivered) :
    Outcome codec packed plain At offset len delivered r r.stepOnce.1 r.stepOnce.2 := by
  subst hcodec
  unfold stepOnce
  have hself : Frame r r := ⟨rfl, rfl, rfl, rfl, rfl, rfl, rfl, id⟩
  by_cases hserve : 0 < r.serveable
  · rw [if_pos hserve]
    exact outcome_outputReady hstage hself (Nat.le_refl _) hserve
  · rw [if_neg hserve]
    have hzero : r.serveable = 0 := by omega
    have hdone : r.state = .done → Outcome r.codec packed plain At offset len delivered r
        (some .done) r := fun hstate =>
      { stage := hstage, frame := hself, fine := by simp, work_le := Nat.le_refl _,
        silent := by simp, needInput := by simp, seekAndRead := by simp, outputReady := by simp,
        done := fun _ => ⟨hstate, hzero⟩ }
    rcases hstage with ⟨hfresh, hnone⟩ | ⟨c, hs, hphase⟩
    · have hstate := hfresh.state
      by_cases hlen : r.targetLen = 0
      · rw [if_pos hlen] at hstate
        rw [hstate]
        exact hdone hstate
      · rw [if_neg hlen] at hstate
        obtain ⟨d, hrestore, hstands⟩ := hfresh.exact _ hfresh.created
        rw [hstate, hrestore]
        exact seek_outcome hrange hfresh hnone hlen hC hstands
    · have hwait : r.inputLeft = [] → r.eof = false →
          Outcome r.codec packed plain At offset len delivered r (some .needInput) r := by
        intro hnil hlive
        exact outcome_needInput (.inr ⟨c, hs, hphase⟩) hself (Nat.le_refl _) ⟨hnil, hs.started⟩
          fun heof => absurd heof (by simp [hlive])
      match hstate : r.state with
      | .seekToCheckpoint =>
        simp only [Phase, hstate] at hphase
      | .skipping remaining =>
        simp only [Phase, hstate] at hphase
        exact skip_outcome hC hs rfl hrange hphase
      | .needInputSkipping remaining =>
        simp only [Phase, hstate] at hphase
        obtain ⟨h, hnil⟩ := hphase
        by_cases heof : r.eof = true
        · simp only [if_pos heof]
          have hout := skip_outcome hC (hs.withState (.skipping remaining)) rfl
            (hrange.frame (hself.withState (.skipping remaining)))
            ⟨h.pos, h.empty, h.target, h.none, h.range⟩
          exact hout.congrStart (hself.withState _) (Nat.le_refl _)
        · simp only [if_neg heof]
          exact hwait hnil (by simpa using heof)
      | .emitting remaining =>
        simp only [Phase, hstate] at hphase
        exact emit_outcome hC hs rfl hrange hzero hphase
      | .needInputEmitting remaining =>
        simp only [Phase, hstate] at hphase
        obtain ⟨h, hnil⟩ := hphase
        by_cases heof : r.eof = true
        · simp only [if_pos heof]
          have hout := emit_outcome hC (hs.withState (.emitting remaining)) rfl
            (hrange.frame (hself.withState (.emitting remaining))) hzero
            ⟨h.pos, h.place, h.range⟩
          exact hout.congrStart (hself.withState _) (Nat.le_refl _)
        · simp only [if_neg heof]
          exact hwait hnil (by simpa using heof)
      | .done => exact hdone hstate

theorem step_outcome {fuel : Nat} {request : EngineRequest} {r' : StreamReader σ κ}
    (hC : Obeys codec packed plain At) (hcodec : r.codec = codec)
    (hrange : Range plain r offset len delivered)
    (hstage : Stage codec packed plain At r offset len delivered)
    (hstep : Sansio.untilSome stepOnce fuel r = some (request, r')) :
    Outcome codec packed plain At offset len delivered r (some request) r' := by
  refine untilSome_rule (I := fun s => Stage codec packed plain At s offset len delivered ∧
    Frame r s ∧ work packed plain s ≤ work packed plain r)
    (Q := fun req s => Outcome codec packed plain At offset len delivered r (some req) s)
    ?_ ?_ fuel r request r'
    ⟨hstage, ⟨rfl, rfl, rfl, rfl, rfl, rfl, rfl, id⟩, Nat.le_refl _⟩ hstep
  · rintro s s' ⟨hst, hframe, hwork⟩ hsilent
    have hout := stepOnce_outcome hC (hframe.codec.trans hcodec) (hrange.frame hframe) hst
    rw [hsilent] at hout
    have hfrom := hout.congrStart hframe hwork
    exact ⟨hfrom.stage, hfrom.frame, hfrom.work_le⟩
  · rintro s request' s' ⟨hst, hframe, hwork⟩ hreport
    have hout := stepOnce_outcome hC (hframe.codec.trans hcodec) (hrange.frame hframe) hst
    rw [hreport] at hout
    exact hout.congrStart hframe hwork

/-- Rounds enough for one `step` of any reader over the stream. -/
def stepFuel (packed plain : List Byte) : Nat := 2 * packed.length + plain.length + 2

theorem work_lt_stepFuel : work packed plain r < stepFuel packed plain := by
  rw [work, stepFuel]
  split <;> omega

theorem step_reports (hC : Obeys codec packed plain At) (hcodec : r.codec = codec)
    (hrange : Range plain r offset len delivered)
    (hstage : Stage codec packed plain At r offset len delivered) :
    ∃ request r', Sansio.untilSome stepOnce (stepFuel packed plain) r = some (request, r') := by
  refine untilSome_reports (I := fun s => Stage codec packed plain At s offset len delivered ∧
    Frame r s) (work packed plain) ?_ _ r ⟨hstage, rfl, rfl, rfl, rfl, rfl, rfl, rfl, id⟩
    work_lt_stepFuel
  rintro s s' ⟨hst, hframe⟩ hsilent
  have hout := stepOnce_outcome hC (hframe.codec.trans hcodec) (hrange.frame hframe) hst
  rw [hsilent] at hout
  exact ⟨⟨hout.stage, hframe.trans hout.frame⟩, hout.silent rfl⟩

/-- Where the reader is done and nothing is left to serve, the range is complete. -/
theorem Stage.complete (hrange : Range plain r offset len delivered)
    (hstage : Stage codec packed plain At r offset len delivered) (hstate : r.state = .done)
    (hserve : r.serveable = 0) : delivered = rangeOf plain offset len := by
  rcases hstage with ⟨hfresh, hnone⟩ | ⟨c, _, hphase⟩
  · have hlen : r.targetLen = 0 := by
      by_contra hne
      have hseek := hfresh.state
      rw [hstate, if_neg hne] at hseek
      exact State.noConfusion hseek
    rw [hnone, rangeOf_eq_seg hrange.unpackedLen, ← hrange.targetLen, hlen, Nat.add_zero, seg_self]
  · simp only [Phase, hstate] at hphase
    have hnone : r.buffered.take r.rangeLeft = [] := by
      refine List.eq_nil_of_length_eq_zero ?_
      rw [List.length_take, buffered_length, Nat.min_comm]
      exact hserve
    have hcomplete := hphase.complete
    rwa [hnone, List.append_nil] at hcomplete

end StreamReader
end Iluvatar
