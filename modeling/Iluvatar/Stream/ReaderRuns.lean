/-
Every run of a `StreamReader` serves exact bytes.

The caller's session keeps `ReadInv` through every event, so it holds after every
run; and a caller who steps and answers what is asked, however it cuts the input
and whatever buffers it reads into, is done after boundedly many turns.
-/
import Iluvatar.Compress.None
import Iluvatar.Stream.ReaderStep

namespace Iluvatar

open Sansio

variable {σ κ : Type}

/-- What a session owes its caller: the delivered bytes are a prefix of the range,
no error was reported, and a reported `done` means the range is complete. -/
structure ReadInv (codec : Codec σ κ) (packed plain : List Byte) (At : σ → Nat → Nat → Prop)
    (s : ReadSession σ κ) : Prop where
  sameCodec : s.reader.codec = codec
  range : StreamReader.Range plain s.reader s.offset s.len s.delivered
  stage : StreamReader.Stage codec packed plain At s.reader s.offset s.len s.delivered
  wanted : s.wanted = true → s.reader.Drained
  fine : ∀ f, s.reported ≠ some (.error f)
  done : s.reported = some .done → s.delivered = rangeOf plain s.offset s.len

variable {codec : Codec σ κ} {packed plain : List Byte} {At : σ → Nat → Nat → Prop}

namespace StreamReader

variable {r : StreamReader σ κ} {offset len : Nat} {delivered : List Byte}

/-- Retargeting changes the range and which buffered bytes serve it. -/
structure Retargeted (r r' : StreamReader σ κ) : Prop where
  codec : r'.codec = r.codec
  inputLeft : r'.inputLeft = r.inputLeft
  started : r'.started = r.started

theorem Range.retarget (h : Range plain r offset len delivered) {r' : StreamReader σ κ}
    {offset' len' : Nat} (hlen : r'.unpackedLen = r.unpackedLen)
    (hfull : r'.requireFull = r.requireFull) (hoffset : r'.targetOffset = offset')
    (htarget : r'.targetLen = clampLen r.unpackedLen offset' len')
    (hleft : r'.rangeLeft = r'.targetLen) : Range plain r' offset' len' [] where
  unpackedLen := by rw [hlen]; exact h.unpackedLen
  requireFull := by rw [hlen, hfull]; exact h.requireFull
  targetOffset := hoffset
  targetLen := by rw [hlen]; exact htarget
  rangeLeft := by rw [hleft]; rfl
  delivered := List.nil_prefix

theorem seekForward_fresh {offset' len' : Nat} (hfresh : r.started = false)
    (htarget : r.targetOffset ≤ offset') :
    r.seekForward offset' len' = .ok { r with
      targetOffset := offset'
      targetLen := clampLen r.unpackedLen offset' len'
      rangeLeft := clampLen r.unpackedLen offset' len'
      state := if clampLen r.unpackedLen offset' len' = 0 then .done else .seekToCheckpoint } := by
  unfold StreamReader.seekForward
  rw [if_pos (by simp [hfresh]), if_neg (by omega)]

/-- A reader not yet stepped is simply retargeted. -/
theorem Unstarted.seekForward {offset' len' : Nat} (hfresh : Unstarted codec At r)
    (hrange : Range plain r offset len delivered) (hpos : r.position ≤ offset') :
    ∃ r', r.seekForward offset' len' = .ok r' ∧ Range plain r' offset' len' [] ∧
      Stage codec packed plain At r' offset' len' [] ∧ Retargeted r r' := by
  have htarget : r.targetOffset ≤ offset' := by
    rw [position, hfresh.started] at hpos
    simpa using hpos
  have hbefore := hfresh.before
  refine ⟨_, seekForward_fresh hfresh.started htarget, hrange.retarget rfl rfl rfl rfl rfl,
    .inl ⟨?_, rfl⟩, ⟨rfl, rfl, rfl⟩⟩
  exact
    { started := hfresh.started, created := hfresh.created, exact := hfresh.exact
      before := Nat.le_trans hbefore htarget
      outputBuf := hfresh.outputBuf, outputRead := hfresh.outputRead
      inputBuf := hfresh.inputBuf, inputPos := hfresh.inputPos, live := hfresh.live
      notEnded := hfresh.notEnded, state := rfl }

/-- Dropping buffered bytes before a new offset. -/
def dropBuffered (r : StreamReader σ κ) (n : Nat) : StreamReader σ κ :=
  if r.outputRead + n = r.outputBuf.length then { r with outputBuf := [], outputRead := 0 }
  else { r with outputRead := r.outputRead + n }

theorem dropBuffered_buffered (r : StreamReader σ κ) (n : Nat) :
    (r.dropBuffered n).buffered = r.buffered.drop n := by
  by_cases h : r.outputRead + n = r.outputBuf.length
  · rw [dropBuffered, if_pos h, buffered, buffered, List.drop_drop, h, List.drop_length,
      List.drop_nil]
  · rw [dropBuffered, if_neg h, buffered, buffered, List.drop_drop]

/-- The retargeted reader `seekForward` makes of a stepped one, before its state is set. -/
def retargeted (r : StreamReader σ κ) (offset len : Nat) : StreamReader σ κ :=
  { r.dropBuffered (min (offset - r.position) r.bufferedLen) with
    targetOffset := offset
    targetLen := clampLen r.unpackedLen offset len
    rangeLeft := clampLen r.unpackedLen offset len }

/-- What is left to decode, and how far ahead it lies, decide the state. -/
def retargetedState (r : StreamReader σ κ) (offset len : Nat) : State :=
  let remaining := clampLen r.unpackedLen offset len - (r.retargeted offset len).serveable
  let beyond := offset - r.position - min (offset - r.position) r.bufferedLen
  if remaining = 0 ∨ r.streamEnded = true then .done
  else if 0 < beyond then .skipping beyond
  else .emitting remaining

theorem seekForward_started {offset' len' : Nat} (hstarted : r.started = true)
    (hpos : r.position ≤ offset') :
    r.seekForward offset' len' =
      .ok { r.retargeted offset' len' with state := r.retargetedState offset' len' } := by
  unfold StreamReader.seekForward
  rw [if_neg (by simp [hstarted]), if_neg (by omega)]
  rfl

theorem retargeted_bufferedLen (offset' len' : Nat) :
    (r.retargeted offset' len').bufferedLen =
      r.bufferedLen - min (offset' - r.position) r.bufferedLen := by
  have h := congrArg List.length (dropBuffered_buffered r (min (offset' - r.position) r.bufferedLen))
  rw [buffered_length, List.length_drop, buffered_length] at h
  exact h

theorem dropBuffered_unpackedPos (r : StreamReader σ κ) (n : Nat) :
    (r.dropBuffered n).unpackedPos = r.unpackedPos := by
  rw [dropBuffered]
  split <;> rfl

/-- Dropping buffered bytes leaves the reader where it stands. -/
theorem Standing.retargeted {c offset' len' : Nat} (hs : Standing packed plain At r c) :
    Standing packed plain At (r.retargeted offset' len') c := by
  have hbuf := retargeted_bufferedLen (r := r) offset' len'
  have hle := hs.bufferedLen_le
  have hseg := hs.buffered
  have hdrop := dropBuffered_buffered r (min (offset' - r.position) r.bufferedLen)
  have hsame : ∀ n, (r.dropBuffered n).started = r.started ∧
      (r.dropBuffered n).decompressor = r.decompressor ∧
      (r.dropBuffered n).compressedPos = r.compressedPos ∧
      (r.dropBuffered n).inputBuf = r.inputBuf ∧ (r.dropBuffered n).inputPos = r.inputPos ∧
      (r.dropBuffered n).eof = r.eof ∧ (r.dropBuffered n).streamEnded = r.streamEnded := by
    intro n
    rw [dropBuffered]
    split <;> exact ⟨rfl, rfl, rfl, rfl, rfl, rfl, rfl⟩
  obtain ⟨hstarted, hdec, hcomp, hinbuf, hinpos, heof, hended⟩ :=
    hsame (min (offset' - r.position) r.bufferedLen)
  have hunpacked := dropBuffered_unpackedPos r (min (offset' - r.position) r.bufferedLen)
  have hleft : (r.retargeted offset' len').inputLeft = r.inputLeft := by
    rw [inputLeft, inputLeft]
    exact congrArg₂ List.drop hinpos hinbuf
  refine ⟨hstarted.trans hs.started, ?_, ?_, ?_, ?_, ?_, ?_, ?_, ?_⟩
  · show At (r.dropBuffered _).decompressor c (r.dropBuffered _).unpackedPos
    rw [hdec, hunpacked]
    exact hs.stands
  · rw [hleft]
    exact hcomp.trans hs.compressed
  · rw [hleft]
    exact hs.input
  · show (r.dropBuffered _).inputPos ≤ (r.dropBuffered _).inputBuf.length
    rw [hinpos, hinbuf]
    exact hs.inputPos
  · show (r.retargeted offset' len').bufferedLen ≤ (r.dropBuffered _).unpackedPos
    rw [hbuf, hunpacked]
    omega
  · show (r.dropBuffered _).buffered = seg plain ((r.dropBuffered _).unpackedPos - _)
      (r.dropBuffered _).unpackedPos
    rw [hdrop, hbuf, hunpacked, hseg, seg_drop]
    congr 1
    omega
  · show (r.dropBuffered _).eof = true → packed.length ≤ (r.dropBuffered _).compressedPos
    rw [heof, hcomp]
    exact hs.eof
  · show (r.dropBuffered _).streamEnded = true → (r.dropBuffered _).unpackedPos = plain.length
    rw [hended, hunpacked]
    exact hs.ended

/-- A stepped reader is retargeted wherever it stands: what is buffered past the new
offset serves the new range, and the rest is decoded forward. -/
theorem Standing.seekForward {c offset' len' : Nat} (hs : Standing packed plain At r c)
    (hrange : Range plain r offset len delivered) (hpos : r.position ≤ offset') :
    ∃ r', r.seekForward offset' len' = .ok r' ∧ Range plain r' offset' len' [] ∧
      Stage codec packed plain At r' offset' len' [] ∧ Retargeted r r' := by
  have hposition : r.position = r.unpackedPos - r.bufferedLen := by
    rw [position, if_pos hs.started]
    rfl
  have hbuf := retargeted_bufferedLen (r := r) offset' len'
  have hle := hs.bufferedLen_le
  have hunpacked : (r.retargeted offset' len').unpackedPos = r.unpackedPos :=
    dropBuffered_unpackedPos r _
  have hs' : Standing packed plain At (r.retargeted offset' len') c := hs.retargeted
  have hserve := serveable_eq (r.retargeted offset' len')
  have hleft : (r.retargeted offset' len').rangeLeft = clampLen r.unpackedLen offset' len' := rfl
  have hsame : ∀ n, (r.dropBuffered n).unpackedLen = r.unpackedLen ∧
      (r.dropBuffered n).requireFull = r.requireFull ∧ (r.dropBuffered n).codec = r.codec ∧
      (r.dropBuffered n).started = r.started ∧ (r.dropBuffered n).inputLeft = r.inputLeft := by
    intro n
    rw [dropBuffered]
    split <;> exact ⟨rfl, rfl, rfl, rfl, rfl⟩
  obtain ⟨hlen, hfull, hcodec, hstarted, hinput⟩ :=
    hsame (min (offset' - r.position) r.bufferedLen)
  have hrange' : Range plain (r.retargeted offset' len') offset' len' [] :=
    hrange.retarget hlen hfull rfl rfl rfl
  refine ⟨_, seekForward_started hs.started hpos, ?_, .inr ⟨c, hs'.withState _, ?_⟩,
    ⟨hcodec, hinput, hstarted⟩⟩
  · exact hrange'.frame ⟨rfl, rfl, rfl, rfl, rfl, rfl, rfl, id⟩
  · simp only [Phase, retargetedState]
    by_cases hdone : clampLen r.unpackedLen offset' len' -
        (r.retargeted offset' len').serveable = 0 ∨ r.streamEnded = true
    · rw [if_pos hdone]
      by_cases hbeyond : 0 < offset' - r.position - min (offset' - r.position) r.bufferedLen
      · have hempty : (r.retargeted offset' len').bufferedLen = 0 := by omega
        have hnone : rangeOf plain offset' len' = [] := by
          rcases hdone with hzero | hend
          · rw [rangeOf_eq_seg hrange.unpackedLen,
              show clampLen r.unpackedLen offset' len' = 0 by omega, Nat.add_zero, seg_self]
          · have := hs.ended hend
            exact rangeOf_eq_nil (by omega)
        refine ⟨?_, ?_, ?_⟩
        · show [] ++ (r.retargeted offset' len').buffered.take _ = _
          rw [buffered_eq_nil hempty, List.take_nil, hnone, List.append_nil]
        · show (r.retargeted offset' len').unpackedPos - (r.retargeted offset' len').bufferedLen ≤ _
          rw [List.length_nil]
          omega
        · rintro (hsome | hsome)
          · have hsome : 0 < (r.retargeted offset' len').serveable := hsome
            omega
          · exact absurd rfl hsome
      · have hfin := hrange'.finishes hs' (by rw [List.length_nil]; omega) (by
          rcases hdone with hzero | hend
          · exact .inl (by omega)
          · exact .inr (hunpacked.trans (hs.ended hend)))
        exact ⟨hfin.complete, hfin.place_le, hfin.place⟩
    · rw [if_neg hdone]
      simp only [not_or] at hdone
      by_cases hbeyond : 0 < offset' - r.position - min (offset' - r.position) r.bufferedLen
      · rw [if_pos hbeyond]
        refine ⟨hbeyond, ?_, ?_, rfl, ?_⟩
        · show (r.retargeted offset' len').bufferedLen = 0
          omega
        · show (r.retargeted offset' len').unpackedPos + _ = offset'
          omega
        · show 0 < clampLen r.unpackedLen offset' len'
          omega
      · rw [if_neg hbeyond]
        refine ⟨by omega, ?_, ?_⟩
        · show (r.retargeted offset' len').unpackedPos - (r.retargeted offset' len').bufferedLen =
            offset' + ([] : List Byte).length
          rw [List.length_nil]
          omega
        · show clampLen r.unpackedLen offset' len' = _ + (r.retargeted offset' len').bufferedLen
          omega

/-- Input is provided when all earlier input is taken, from where the reader asks. -/
theorem provideData_stage {data : List Byte} (hstarted : r.started = true)
    (hnil : r.inputLeft = []) (hdata : data <+: packed.drop r.compressedPos)
    (hne : data ≠ []) (hstage : Stage codec packed plain At r offset len delivered) :
    Stage codec packed plain At (r.provideData data) offset len delivered := by
  rcases hstage with ⟨hfresh, _⟩ | ⟨c, hs, hphase⟩
  · exact absurd hstarted (by simp [hfresh.started])
  · have hpos := hs.compressed
    rw [hnil, List.length_nil, Nat.add_zero] at hpos
    refine .inr ⟨c, ⟨hs.started, hs.stands, ?_, ?_, Nat.zero_le _, hs.bufferedLen_le, hs.buffered,
      ?_, hs.ended⟩, ?_⟩
    · show r.compressedPos + data.length = c + (data.drop 0).length
      rw [hpos, List.drop_zero]
    · show data.drop 0 <+: packed.drop c
      rw [List.drop_zero, ← hpos]
      exact hdata
    · intro heof
      have heof := hs.eof heof
      rw [List.drop_eq_nil_of_le heof] at hdata
      exact absurd (List.eq_nil_of_prefix_nil hdata) hne
    · cases hr : r.state with
      | seekToCheckpoint => simp only [Phase, hr] at hphase
      | skipping remaining =>
        simp only [Phase, hr] at hphase
        simp only [Phase, provideData, hr]
        exact ⟨hphase.pos, hphase.empty, hphase.target, hphase.none, hphase.range⟩
      | needInputSkipping remaining =>
        simp only [Phase, hr] at hphase
        simp only [Phase, provideData, hr]
        have h := hphase.1
        exact ⟨h.pos, h.empty, h.target, h.none, h.range⟩
      | emitting remaining =>
        simp only [Phase, hr] at hphase
        simp only [Phase, provideData, hr]
        exact ⟨hphase.pos, hphase.place, hphase.range⟩
      | needInputEmitting remaining =>
        simp only [Phase, hr] at hphase
        simp only [Phase, provideData, hr]
        have h := hphase.1
        exact ⟨h.pos, h.place, h.range⟩
      | done =>
        simp only [Phase, hr] at hphase
        simp only [Phase, provideData, hr]
        exact ⟨hphase.complete, hphase.place_le, hphase.place⟩

theorem signalEof_stage (hstarted : r.started = true) (hend : packed.length ≤ r.compressedPos)
    (hstage : Stage codec packed plain At r offset len delivered) :
    Stage codec packed plain At r.signalEof offset len delivered := by
  rcases hstage with ⟨hfresh, _⟩ | ⟨c, hs, hphase⟩
  · exact absurd hstarted (by simp [hfresh.started])
  · refine .inr ⟨c, ⟨hs.started, hs.stands, hs.compressed, hs.input, hs.inputPos,
      hs.bufferedLen_le, hs.buffered, fun _ => hend, hs.ended⟩, ?_⟩
    match hr : r.state with
    | .seekToCheckpoint => simp only [Phase, hr] at hphase
    | .skipping remaining =>
      simp only [Phase, hr] at hphase
      simp only [Phase, signalEof, hr]
      exact ⟨hphase.pos, hphase.empty, hphase.target, hphase.none, hphase.range⟩
    | .needInputSkipping remaining =>
      simp only [Phase, hr] at hphase
      simp only [Phase, signalEof, hr]
      have h := hphase.1
      exact ⟨⟨h.pos, h.empty, h.target, h.none, h.range⟩, hphase.2⟩
    | .emitting remaining =>
      simp only [Phase, hr] at hphase
      simp only [Phase, signalEof, hr]
      exact ⟨hphase.pos, hphase.place, hphase.range⟩
    | .needInputEmitting remaining =>
      simp only [Phase, hr] at hphase
      simp only [Phase, signalEof, hr]
      have h := hphase.1
      exact ⟨⟨h.pos, h.place, h.range⟩, hphase.2⟩
    | .done =>
      simp only [Phase, hr] at hphase
      simp only [Phase, signalEof, hr]
      exact ⟨hphase.complete, hphase.place_le, hphase.place⟩

/-- What `readOutput` takes is the head of the buffer, within the range. -/
structure Served (r r' : StreamReader σ κ) (out : List Byte) : Prop where
  taken : out = r.buffered.take out.length
  within : out.length ≤ r.serveable
  buffered : r'.buffered = r.buffered.drop out.length
  rangeLeft : r'.rangeLeft = r.rangeLeft - out.length
  same : r' = { r with
    outputBuf := r'.outputBuf, outputRead := r'.outputRead, rangeLeft := r'.rangeLeft }
  idle : out = [] → r' = r

theorem readOutput_served (r : StreamReader σ κ) (n : Nat) :
    Served r (r.readOutput n).2 (r.readOutput n).1 ∧
      (r.readOutput n).1.length = min r.serveable n := by
  have hlen : (r.buffered.take (min r.serveable n)).length = min r.serveable n := by
    rw [List.length_take, buffered_length, serveable_eq]
    omega
  unfold readOutput
  simp only
  by_cases hzero : min r.serveable n = 0
  · rw [if_pos hzero]
    exact ⟨⟨by simp, Nat.zero_le _, by simp, by simp, rfl, fun _ => rfl⟩, by simp [hzero]⟩
  · rw [if_neg hzero]
    have hsome : r.buffered.take (min r.serveable n) ≠ [] := by
      intro hnil
      rw [hnil, List.length_nil] at hlen
      omega
    by_cases hall : r.outputBuf.length ≤ r.outputRead + min r.serveable n
    · rw [if_pos hall]
      refine ⟨⟨?_, ?_, ?_, ?_, rfl, fun hnil => absurd hnil hsome⟩, hlen⟩
      · show r.buffered.take _ = r.buffered.take (r.buffered.take _).length
        rw [hlen]
      · show (r.buffered.take _).length ≤ _
        rw [hlen]
        omega
      · show ([] : List Byte) = r.buffered.drop (r.buffered.take _).length
        rw [hlen, buffered, List.drop_drop, List.drop_eq_nil_of_le hall]
      · show _ = _ - (r.buffered.take _).length
        rw [hlen]
    · rw [if_neg hall]
      refine ⟨⟨?_, ?_, ?_, ?_, rfl, fun hnil => absurd hnil hsome⟩, hlen⟩
      · show r.buffered.take _ = r.buffered.take (r.buffered.take _).length
        rw [hlen]
      · show (r.buffered.take _).length ≤ _
        rw [hlen]
        omega
      · show r.outputBuf.drop _ = r.buffered.drop (r.buffered.take _).length
        rw [hlen, buffered, List.drop_drop]
      · show _ = _ - (r.buffered.take _).length
        rw [hlen]

theorem Served.bufferedLen {r' : StreamReader σ κ} {out : List Byte} (h : Served r r' out) :
    r'.bufferedLen = r.bufferedLen - out.length := by
  rw [← buffered_length, h.buffered, List.length_drop, buffered_length]

/-- Where there is something to serve, it continues what was delivered. -/
theorem Stage.place (hstage : Stage codec packed plain At r offset len delivered)
    (hserve : 0 < r.serveable) :
    ∃ c, Standing packed plain At r c ∧ Phase plain r offset len delivered ∧
      r.unpackedPos - r.bufferedLen = offset + delivered.length := by
  rcases hstage with ⟨hfresh, _⟩ | ⟨c, hs, hphase⟩
  · rw [serveable_eq, bufferedLen, hfresh.outputBuf, List.length_nil, Nat.zero_sub,
      Nat.zero_min] at hserve
    exact absurd hserve (Nat.lt_irrefl 0)
  · refine ⟨c, hs, hphase, ?_⟩
    have hskips : ∀ m, ¬ Skips r offset delivered m := by
      intro m h
      rw [serveable_eq, h.empty, Nat.zero_min] at hserve
      exact Nat.lt_irrefl 0 hserve
    cases hr : r.state with
    | seekToCheckpoint => simp only [Phase, hr] at hphase
    | skipping remaining =>
      simp only [Phase, hr] at hphase
      exact absurd hphase (hskips _)
    | needInputSkipping remaining =>
      simp only [Phase, hr] at hphase
      exact absurd hphase.1 (hskips _)
    | emitting remaining =>
      simp only [Phase, hr] at hphase
      exact hphase.place
    | needInputEmitting remaining =>
      simp only [Phase, hr] at hphase
      exact hphase.1.place
    | done =>
      simp only [Phase, hr] at hphase
      exact hphase.place (.inl hserve)

theorem Served.range {r' : StreamReader σ κ} {out : List Byte} (h : Served r r' out)
    (hrange : Range plain r offset len delivered)
    (hstage : Stage codec packed plain At r offset len delivered) (hsome : out ≠ []) :
    Range plain r' offset len (delivered ++ out) := by
  have hpos := List.length_pos_of_ne_nil hsome
  have hwithin := h.within
  obtain ⟨c, hs, _, hplace⟩ := hstage.place (by omega)
  rw [serveable_eq] at hwithin
  have hle := hs.bufferedLen_le
  have howed := hrange.rangeLeft
  have hleft := h.rangeLeft
  have hout : out = seg plain (offset + delivered.length)
      (offset + delivered.length + out.length) := by
    have htaken := h.taken
    rw [hs.buffered, seg_take, hplace, Nat.min_eq_right (by omega)] at htaken
    exact htaken
  rw [h.same]
  refine ⟨hrange.unpackedLen, hrange.requireFull, hrange.targetOffset, hrange.targetLen, ?_, ?_⟩
  · show r'.rangeLeft + (delivered ++ out).length = r.targetLen
    rw [List.length_append]
    omega
  · have hboth : delivered ++ out = seg plain offset (offset + delivered.length + out.length) :=
      calc delivered ++ out
          = seg plain offset (offset + delivered.length) ++ seg plain (offset + delivered.length)
              (offset + delivered.length + out.length) := by
            rw [← hrange.delivered_eq, ← hout]
        _ = seg plain offset (offset + delivered.length + out.length) :=
            seg_append plain (by omega) (by omega)
    rw [hboth, rangeOf_eq_seg hrange.unpackedLen, ← hrange.targetLen]
    exact prefix_seg (by omega)

theorem Served.stage {r' : StreamReader σ κ} {out : List Byte} (h : Served r r' out)
    (hstage : Stage codec packed plain At r offset len delivered) (hsome : out ≠ []) :
    Stage codec packed plain At r' offset len (delivered ++ out) := by
  have hpos := List.length_pos_of_ne_nil hsome
  have hwithin := h.within
  obtain ⟨c, hs, hphase, hplace⟩ := hstage.place (by omega)
  have hbuf := h.bufferedLen
  have hle := hs.bufferedLen_le
  have hleft := h.rangeLeft
  have hsame := h.same
  rw [serveable_eq] at hwithin
  have hunpacked : r'.unpackedPos = r.unpackedPos := by rw [hsame]
  have hstate : r'.state = r.state := by rw [hsame]
  have hinput : r'.inputLeft = r.inputLeft := by rw [hsame]; rfl
  have hlen : (delivered ++ out).length = delivered.length + out.length := List.length_append
  have hplace' : r'.unpackedPos - r'.bufferedLen = offset + (delivered ++ out).length := by omega
  have hs' : Standing packed plain At r' c := by
    refine ⟨?_, ?_, ?_, ?_, ?_, by omega, ?_, ?_, ?_⟩
    · rw [hsame]; exact hs.started
    · rw [hsame]; exact hs.stands
    · rw [hinput, hsame]; exact hs.compressed
    · rw [hinput]; exact hs.input
    · rw [hsame]; exact hs.inputPos
    · rw [h.buffered, hs.buffered, seg_drop, hunpacked]
      congr 1
      omega
    · rw [hsame]; exact hs.eof
    · rw [hsame]; exact hs.ended
  have hemits : ∀ m, Emits r offset delivered m → Emits r' offset (delivered ++ out) m := by
    intro m hm
    have hrange := hm.range
    exact ⟨hm.pos, hplace', by omega⟩
  have hskips : ∀ m, ¬ Skips r offset delivered m := by
    intro m hm
    have := hm.empty
    omega
  refine .inr ⟨c, hs', ?_⟩
  match hr : r.state with
  | .seekToCheckpoint => simp only [Phase, hr] at hphase
  | .skipping remaining =>
    simp only [Phase, hr] at hphase
    exact absurd hphase (hskips _)
  | .needInputSkipping remaining =>
    simp only [Phase, hr] at hphase
    exact absurd hphase.1 (hskips _)
  | .emitting remaining =>
    simp only [Phase, hr] at hphase
    simp only [Phase, hstate, hr]
    exact hemits _ hphase
  | .needInputEmitting remaining =>
    simp only [Phase, hr] at hphase
    simp only [Phase, hstate, hr]
    exact ⟨hemits _ hphase.1, hinput.trans hphase.2⟩
  | .done =>
    simp only [Phase, hr] at hphase
    simp only [Phase, hstate, hr]
    refine ⟨?_, Nat.le_of_eq hplace', fun _ => hplace'⟩
    have hcomplete := hphase.complete
    have hsplit : r.rangeLeft = out.length + (r.rangeLeft - out.length) := by omega
    rw [hsplit, List.take_add, ← h.taken, ← h.buffered, ← hleft] at hcomplete
    rw [List.append_assoc]
    exact hcomplete

end StreamReader

/-- A reader just created for a range. -/
theorem ReadInv.start {index : StreamIndex σ κ} (hC : Obeys codec packed plain At)
    (hcodec : index.codec = codec) (hsorted : index.Sorted)
    (hexact : ∀ cp ∈ index.checkpoints, cp.Exact codec At)
    (hlen : ∀ n, index.unpackedLen = some n → n = plain.length) (offset len : Nat) :
    ∃ r, StreamReader.new index offset len = .ok r ∧
      ReadInv codec packed plain At (ReadSession.start r offset len) := by
  subst hcodec
  obtain ⟨d, hcreate⟩ := hC.creates
  obtain ⟨i, cp, hbest, hisBest⟩ := StreamIndex.bestCheckpointForOffset_isBest hsorted offset
  refine ⟨_, by simp only [StreamReader.new, hcreate, hbest]; rfl, ?_⟩
  refine
    { sameCodec := rfl, wanted := by simp [ReadSession.start], fine := by simp [ReadSession.start]
      done := by simp [ReadSession.start], range := ?_, stage := .inl ⟨?_, rfl⟩ }
  · refine ⟨hlen, ?_, rfl, rfl, rfl, List.nil_prefix⟩
    intro hfull hnone
    have hfull : index.unpackedLen.isSome = true := hfull
    have hnone : index.unpackedLen = none := hnone
    rw [hnone] at hfull
    exact Bool.noConfusion hfull
  · exact
      { started := rfl, created := hcreate, exact := hexact cp hisBest.mem, before := hisBest.le
        outputBuf := rfl, outputRead := rfl, inputBuf := rfl, inputPos := rfl, live := rfl
        notEnded := rfl, state := rfl }

/-- One `step` of a session. -/
theorem ReadInv.step {s : ReadSession σ κ} {fuel : Nat} {request : EngineRequest}
    {r' : StreamReader σ κ} (hC : Obeys codec packed plain At) (h : ReadInv codec packed plain At s)
    (hstep : s.reader.step fuel = some (request, r')) :
    StreamReader.Outcome codec packed plain At s.offset s.len s.delivered s.reader
      (some request) r' ∧
      ReadInv codec packed plain At { s with
        reader := r'
        wanted := s.wanted || request.wantsInput
        reported := some request } := by
  rw [StreamReader.step, Option.map_eq_some_iff] at hstep
  obtain ⟨⟨request₁, r₁⟩, huntil, heq⟩ := hstep
  have hout := StreamReader.step_outcome hC h.sameCodec h.range h.stage huntil
  have hrange := h.range.frame hout.frame
  have hcomplete : request₁ = .done → s.delivered = rangeOf plain s.offset s.len := by
    rintro rfl
    obtain ⟨hstate, hserve⟩ := hout.done rfl
    exact hout.stage.complete hrange hstate hserve
  have hnoshort : ¬ (request₁ = .done ∧ 0 < r₁.rangeLeft ∧ r₁.requireFull = true) := by
    rintro ⟨hdone, hleft, hfull⟩
    have := hrange.rangeLeft_eq_zero hfull (hcomplete hdone)
    omega
  simp only [if_neg hnoshort] at heq
  obtain ⟨rfl, rfl⟩ : request₁ = request ∧ r₁ = r' := by simpa using heq
  refine ⟨hout, ?_⟩
  exact
    { sameCodec := hout.frame.codec.trans h.sameCodec
      range := hrange
      stage := hout.stage
      wanted := by
        intro hwanted
        rw [Bool.or_eq_true] at hwanted
        rcases hwanted with hbefore | hwants
        · exact hout.frame.drained (h.wanted hbefore)
        · cases request₁ with
          | needInput => exact (hout.needInput rfl).1
          | seekAndRead a b => exact (hout.seekAndRead a b rfl).1
          | outputReady => exact absurd hwants (by simp [EngineRequest.wantsInput])
          | done => exact absurd hwants (by simp [EngineRequest.wantsInput])
          | error f => exact absurd rfl (hout.fine f)
      fine := hout.fine
      done := fun hdone => hcomplete (by simpa using hdone) }

theorem ReadInv.drive {s s' : ReadSession σ κ} {e : ReadEvent} (hC : Obeys codec packed plain At)
    (h : ReadInv codec packed plain At s) (hdrive : s.drive packed e = some s') :
    ReadInv codec packed plain At s' := by
  cases e with
  | seek offset len =>
    rw [ReadSession.drive] at hdrive
    by_cases hpos : s.reader.position ≤ offset
    · rw [if_pos hpos] at hdrive
      obtain ⟨r', hseek, hrange, hstage, hsame⟩ :
          ∃ r', s.reader.seekForward offset len = .ok r' ∧
            StreamReader.Range plain r' offset len [] ∧
            StreamReader.Stage codec packed plain At r' offset len [] ∧
            StreamReader.Retargeted s.reader r' := by
        rcases h.stage with ⟨hfresh, _⟩ | ⟨c, hs, _⟩
        · exact hfresh.seekForward h.range hpos
        · exact hs.seekForward h.range hpos
      rw [hseek] at hdrive
      obtain rfl := Option.some.inj hdrive
      refine ⟨hsame.codec.trans h.sameCodec, hrange, hstage, fun hwanted => ?_, by simp, by simp⟩
      have := h.wanted hwanted
      exact ⟨hsame.inputLeft.trans this.1, hsame.started.trans this.2⟩
    · rw [if_neg hpos] at hdrive
      exact absurd hdrive (by simp)
  | step fuel =>
    rw [ReadSession.drive] at hdrive
    match hstep : s.reader.step fuel with
    | none =>
      rw [hstep] at hdrive
      exact absurd hdrive (by simp)
    | some (request, r') =>
      rw [hstep] at hdrive
      obtain rfl := Option.some.inj hdrive
      exact (h.step hC hstep).2
  | provide n =>
    rw [ReadSession.drive] at hdrive
    by_cases hwanted : s.wanted = true
    · rw [if_pos hwanted] at hdrive
      obtain ⟨hnil, hstarted⟩ := h.wanted hwanted
      match htake : (packed.drop s.reader.compressedPosition).take (n + 1) with
      | [] =>
        rw [htake] at hdrive
        obtain rfl := Option.some.inj hdrive
        have hend : packed.length ≤ s.reader.compressedPos := by
          have hlen := congrArg List.length htake
          rw [List.length_take, List.length_drop, List.length_nil] at hlen
          simp only [StreamReader.compressedPosition] at hlen
          omega
        exact ⟨h.sameCodec, ⟨h.range.unpackedLen, h.range.requireFull, h.range.targetOffset,
          h.range.targetLen, h.range.rangeLeft, h.range.delivered⟩,
          StreamReader.signalEof_stage hstarted hend h.stage, by simp, h.fine, h.done⟩
      | b :: bs =>
        rw [htake] at hdrive
        obtain rfl := Option.some.inj hdrive
        have hdata : (b :: bs) <+: packed.drop s.reader.compressedPos := by
          rw [← htake]
          exact List.take_prefix _ _
        exact ⟨h.sameCodec, ⟨h.range.unpackedLen, h.range.requireFull, h.range.targetOffset,
          h.range.targetLen, h.range.rangeLeft, h.range.delivered⟩,
          StreamReader.provideData_stage hstarted hnil hdata (by simp) h.stage, by simp, h.fine,
          h.done⟩
    · rw [if_neg hwanted] at hdrive
      exact absurd hdrive (by simp)
  | read n =>
    rw [ReadSession.drive] at hdrive
    obtain ⟨hserved, _⟩ := StreamReader.readOutput_served s.reader n
    match hread : s.reader.readOutput n with
    | (out, r') =>
      rw [hread] at hdrive hserved
      obtain rfl := Option.some.inj hdrive
      by_cases hsome : out = []
      · have hidle := hserved.idle hsome
        simp only at hidle
        simp only [hsome, hidle, List.append_nil]
        exact ⟨h.sameCodec, h.range, h.stage, h.wanted, h.fine, h.done⟩
      · have hrange := hserved.range h.range h.stage hsome
        have hstage := hserved.stage h.stage hsome
        have hsame := hserved.same
        simp only at hsame
        refine ⟨?_, hrange, hstage, ?_, h.fine, ?_⟩
        · rw [hsame]
          exact h.sameCodec
        · rw [hsame]
          exact h.wanted
        · intro hdone
          have hall := h.done hdone
          have hpre := hrange.delivered
          rw [← hall] at hpre
          exact absurd (List.append_right_eq_self.mp (hpre.eq_of_length_le (by simp))) hsome

/-- The invariant holds after every run of events. -/
theorem ReadInv.run {s s' : ReadSession σ κ} {es : List ReadEvent}
    (hC : Obeys codec packed plain At) (h : ReadInv codec packed plain At s)
    (hrun : es.foldlM (ReadSession.drive packed) s = some s') :
    ReadInv codec packed plain At s' :=
  foldlM_invariant (fun _ _ _ hI hd => ReadInv.drive hC hI hd) es s s' h hrun

/-- What a caller that keeps answering still has to wait for. -/
def ReadSession.toGo (packed plain : List Byte) (s : ReadSession σ κ) : Nat :=
  StreamReader.work packed plain s.reader + s.reader.rangeLeft + if s.reader.eof then 0 else 1

theorem ReadInv.toGo_lt {s : ReadSession σ κ} (h : ReadInv codec packed plain At s) :
    s.toGo packed plain < StreamReader.stepFuel packed plain + s.len + 1 := by
  have hwork : StreamReader.work packed plain s.reader < StreamReader.stepFuel packed plain :=
    StreamReader.work_lt_stepFuel
  have hleft := h.range.rangeLeft
  have htarget := h.range.targetLen
  have hclamp : StreamReader.clampLen s.reader.unpackedLen s.offset s.len ≤ s.len := by
    unfold StreamReader.clampLen
    split <;> omega
  rw [ReadSession.toGo]
  split <;> omega

/-- Answering a request for input brings the session closer to its end, unless the
end of the input had been signalled before. -/
theorem ReadInv.provide {s : ReadSession σ κ} (hC : Obeys codec packed plain At)
    (h : ReadInv codec packed plain At s) (hwanted : s.wanted = true) (n : Nat) :
    ∃ s', s.drive packed (.provide n) = some s' ∧ ReadInv codec packed plain At s' ∧
      s'.offset = s.offset ∧ s'.len = s.len ∧
      (s'.toGo packed plain < s.toGo packed plain ∨
        s.reader.eof = true ∧ s'.toGo packed plain = s.toGo packed plain) := by
  obtain ⟨hnil, hstarted⟩ := h.wanted hwanted
  obtain ⟨s', hdrive⟩ : ∃ s', s.drive packed (.provide n) = some s' := by
    rw [ReadSession.drive, if_pos hwanted]
    split <;> exact ⟨_, rfl⟩
  refine ⟨s', hdrive, ReadInv.drive hC h hdrive, ?_⟩
  rw [ReadSession.drive, if_pos hwanted] at hdrive
  match htake : (packed.drop s.reader.compressedPosition).take (n + 1) with
  | [] =>
    rw [htake] at hdrive
    obtain rfl := Option.some.inj hdrive
    refine ⟨rfl, rfl, ?_⟩
    cases heof : s.reader.eof with
    | false =>
      refine .inl ?_
      have hsame : StreamReader.work packed plain s.reader.signalEof =
          StreamReader.work packed plain s.reader := rfl
      simp only [ReadSession.toGo, hsame, heof]
      simp [StreamReader.signalEof]
    | true =>
      refine .inr ⟨rfl, ?_⟩
      have hsame : s.reader.signalEof = s.reader := by
        rw [StreamReader.signalEof, ← heof]
      simp only [ReadSession.toGo, hsame]
  | b :: bs =>
    rw [htake] at hdrive
    obtain rfl := Option.some.inj hdrive
    refine ⟨rfl, rfl, .inl ?_⟩
    have hlen := congrArg List.length htake
    rw [List.length_take, List.length_drop] at hlen
    simp only [StreamReader.compressedPosition, List.length_cons] at hlen
    simp only [ReadSession.toGo, StreamReader.work, StreamReader.provideData, hstarted, if_true,
      StreamReader.inputLeft, List.drop_zero, List.length_cons]
    have hzero := congrArg List.length hnil
    simp only [StreamReader.inputLeft, List.length_nil] at hzero
    omega

theorem ReadInv.turn {s : ReadSession σ κ} (hC : Obeys codec packed plain At)
    (h : ReadInv codec packed plain At s) (cut : Nat × Nat) :
    ∃ s', s.turn packed (StreamReader.stepFuel packed plain) cut = some s' ∧
      ReadInv codec packed plain At s' ∧ s'.offset = s.offset ∧ s'.len = s.len ∧
      (s'.reported = some .done ∨ s'.toGo packed plain < s.toGo packed plain) := by
  obtain ⟨request₀, r₀, huntil⟩ := StreamReader.step_reports hC h.sameCodec h.range h.stage
  obtain ⟨request, r', hstep⟩ : ∃ request r',
      s.reader.step (StreamReader.stepFuel packed plain) = some (request, r') := by
    rw [StreamReader.step, huntil]
    exact ⟨_, _, rfl⟩
  obtain ⟨hout, hinv⟩ := h.step hC hstep
  have hleft := hout.frame.rangeLeft
  have heof := hout.frame.eof
  have hwork := hout.work_le
  have hdrive : s.drive packed (.step (StreamReader.stepFuel packed plain)) = some { s with
      reader := r'
      wanted := s.wanted || request.wantsInput
      reported := some request } := by
    rw [ReadSession.drive, hstep]
  rw [ReadSession.turn, hdrive]
  cases request with
  | needInput =>
    obtain ⟨s', hprovide, hinv', hoffset, hlen, hgo⟩ :=
      hinv.provide hC (by simp [EngineRequest.wantsInput]) cut.1
    refine ⟨s', hprovide, hinv', hoffset, hlen, .inr ?_⟩
    have hmoved := (hout.needInput rfl).2
    simp only [ReadSession.toGo] at hgo ⊢
    rw [heof] at hgo hmoved
    rcases hgo with hgo | ⟨hended, hgo⟩
    · omega
    · have := hmoved hended
      omega
  | seekAndRead a b =>
    obtain ⟨s', hprovide, hinv', hoffset, hlen, hgo⟩ :=
      hinv.provide hC (by simp [EngineRequest.wantsInput]) cut.1
    refine ⟨s', hprovide, hinv', hoffset, hlen, .inr ?_⟩
    have hmoved := (hout.seekAndRead a b rfl).2
    simp only [ReadSession.toGo] at hgo ⊢
    rw [heof] at hgo
    rcases hgo with hgo | ⟨_, hgo⟩ <;> omega
  | outputReady =>
    have hserve := hout.outputReady rfl
    obtain ⟨hserved, hn⟩ := StreamReader.readOutput_served r' (cut.2 + 1)
    have hread : ReadSession.drive packed { s with
          reader := r'
          wanted := s.wanted || EngineRequest.outputReady.wantsInput
          reported := some .outputReady } (.read (cut.2 + 1)) =
        some { s with
          reader := (r'.readOutput (cut.2 + 1)).2
          wanted := s.wanted || EngineRequest.outputReady.wantsInput
          reported := some .outputReady
          delivered := s.delivered ++ (r'.readOutput (cut.2 + 1)).1 } := rfl
    refine ⟨_, hread, ReadInv.drive hC hinv hread, rfl, rfl, .inr ?_⟩
    have howed := hserved.rangeLeft
    have hless : r'.serveable ≤ r'.rangeLeft := by
      rw [StreamReader.serveable_eq]
      omega
    have hsame : StreamReader.work packed plain (r'.readOutput (cut.2 + 1)).2 =
        StreamReader.work packed plain r' := by rw [hserved.same]; rfl
    have hsameEof : (r'.readOutput (cut.2 + 1)).2.eof = r'.eof := by rw [hserved.same]
    simp only [ReadSession.toGo, hsame, hsameEof, heof]
    omega
  | done => exact ⟨_, rfl, hinv, rfl, rfl, .inl rfl⟩
  | error f => exact absurd rfl (hout.fine f)

/-- A caller that keeps answering is done, after boundedly many turns. -/
theorem ReadInv.turns (hC : Obeys codec packed plain At) :
    ∀ (cuts : List (Nat × Nat)) (s : ReadSession σ κ), ReadInv codec packed plain At s →
      s.toGo packed plain < cuts.length →
      ∃ n s', (cuts.take n).foldlM
          (ReadSession.turn packed (StreamReader.stepFuel packed plain)) s = some s' ∧
        ReadInv codec packed plain At s' ∧ s'.offset = s.offset ∧ s'.len = s.len ∧
        s'.reported = some .done := by
  intro cuts
  induction cuts with
  | nil => intro s _ hgo; exact absurd hgo (Nat.not_lt_zero _)
  | cons cut cuts ih =>
    intro s h hgo
    rw [List.length_cons] at hgo
    obtain ⟨s₁, hturn, hinv, hoffset, hlen, hcase⟩ := h.turn hC cut
    rcases hcase with hdone | hless
    · refine ⟨1, s₁, ?_, hinv, hoffset, hlen, hdone⟩
      rw [List.take_succ_cons, List.take_zero, List.foldlM_cons, hturn]
      rfl
    · obtain ⟨n, s₂, hfold, hinv₂, hoffset₂, hlen₂, hdone⟩ := ih s₁ hinv (by omega)
      refine ⟨n + 1, s₂, ?_, hinv₂, hoffset₂.trans hoffset, hlen₂.trans hlen, hdone⟩
      rw [List.take_succ_cons, List.foldlM_cons, hturn]
      exact hfold

namespace StreamReader

/-- Where the next byte stands: never past what was delivered, and exactly there once
anything was delivered or is buffered for the range. -/
theorem Stage.position {r : StreamReader σ κ} {offset len : Nat} {delivered : List Byte}
    (hrange : Range plain r offset len delivered)
    (hstage : Stage codec packed plain At r offset len delivered) :
    r.position ≤ offset + delivered.length ∧
      (r.started = false ∨ delivered ≠ [] ∨ 0 < r.serveable →
        r.position = offset + delivered.length) := by
  rcases hstage with ⟨hfresh, hnone⟩ | ⟨c, hs, hphase⟩
  · have hposition : r.position = offset + delivered.length := by
      rw [StreamReader.position, hfresh.started, hnone]
      exact hrange.targetOffset
    exact ⟨Nat.le_of_eq hposition, fun _ => hposition⟩
  · have hposition : r.position = r.unpackedPos - r.bufferedLen := by
      rw [StreamReader.position, if_pos hs.started]
      rfl
    rw [hposition]
    have hemits : ∀ m, Emits r offset delivered m →
        r.unpackedPos - r.bufferedLen ≤ offset + delivered.length ∧
          (r.started = false ∨ delivered ≠ [] ∨ 0 < r.serveable →
            r.unpackedPos - r.bufferedLen = offset + delivered.length) :=
      fun m h => ⟨Nat.le_of_eq h.place, fun _ => h.place⟩
    have hskips : ∀ m, Skips r offset delivered m →
        r.unpackedPos - r.bufferedLen ≤ offset + delivered.length ∧
          (r.started = false ∨ delivered ≠ [] ∨ 0 < r.serveable →
            r.unpackedPos - r.bufferedLen = offset + delivered.length) := by
      intro m h
      have htarget := h.target
      refine ⟨by omega, ?_⟩
      rintro (hnot | hsome | hserve)
      · exact absurd hs.started (by simp [hnot])
      · exact absurd h.none hsome
      · rw [serveable_eq, h.empty, Nat.zero_min] at hserve
        exact absurd hserve (Nat.lt_irrefl 0)
    match hr : r.state with
    | .seekToCheckpoint => simp only [Phase, hr] at hphase
    | .skipping remaining =>
      simp only [Phase, hr] at hphase
      exact hskips _ hphase
    | .needInputSkipping remaining =>
      simp only [Phase, hr] at hphase
      exact hskips _ hphase.1
    | .emitting remaining =>
      simp only [Phase, hr] at hphase
      exact hemits _ hphase
    | .needInputEmitting remaining =>
      simp only [Phase, hr] at hphase
      exact hemits _ hphase.1
    | .done =>
      simp only [Phase, hr] at hphase
      refine ⟨hphase.place_le, ?_⟩
      rintro (hnot | hsome | hserve)
      · exact absurd hs.started (by simp [hnot])
      · exact hphase.place (.inr hsome)
      · exact hphase.place (.inl hserve)

/-- A reader over an exact, sorted index serves exact bytes, whatever its caller does:
what is delivered for the range asked last is a prefix of the plain bytes of that range,
all of them where `done` is reported, no error is reported, and a caller that goes on
answering what is asked reaches `done`. -/
theorem serves_exact_bytes (hC : Obeys codec packed plain At) (index : StreamIndex σ κ)
    (hcodec : index.codec = codec) (hsorted : index.Sorted)
    (hexact : ∀ cp ∈ index.checkpoints, cp.Exact codec At)
    (hlen : ∀ n, index.unpackedLen = some n → n = plain.length) (offset len : Nat) :
    ∃ r, StreamReader.new index offset len = .ok r ∧
      ∀ (es : List ReadEvent) (s : ReadSession σ κ),
        es.foldlM (ReadSession.drive packed) (ReadSession.start r offset len) = some s →
        s.delivered <+: rangeOf plain s.offset s.len ∧
        (s.reported = some .done → s.delivered = rangeOf plain s.offset s.len) ∧
        (∀ f, s.reported ≠ some (.error f)) ∧
        s.reader.position ≤ s.offset + s.delivered.length ∧
        (s.reader.started = false ∨ s.delivered ≠ [] ∨ 0 < s.reader.serveable →
          s.reader.position = s.offset + s.delivered.length) ∧
        ∀ cuts : List (Nat × Nat), stepFuel packed plain + s.len < cuts.length →
          ∃ n s', (cuts.take n).foldlM (ReadSession.turn packed (stepFuel packed plain)) s =
              some s' ∧
            s'.reported = some .done ∧ s'.offset = s.offset ∧ s'.len = s.len ∧
            s'.delivered = rangeOf plain s.offset s.len := by
  obtain ⟨r, hnew, hstart⟩ := ReadInv.start hC hcodec hsorted hexact hlen offset len
  refine ⟨r, hnew, fun es s hrun => ?_⟩
  have hinv := hstart.run hC hrun
  obtain ⟨hle, hposition⟩ := hinv.stage.position hinv.range
  refine ⟨hinv.range.delivered, hinv.done, hinv.fine, hle, hposition, fun cuts hcuts => ?_⟩
  have hgo := hinv.toGo_lt
  obtain ⟨n, s', hfold, hinv', hoffset, hlen', hdone⟩ :=
    ReadInv.turns hC cuts s hinv (by omega)
  refine ⟨n, s', hfold, hdone, hoffset, hlen', ?_⟩
  rw [hinv'.done hdone, hoffset, hlen']

/-- Stored bytes read through an index with a second checkpoint. -/
theorem serves_exact_bytes_copy :
    let plain : List Byte := [1, 2, 3, 4, 5]
    let index : StreamIndex NoneDecompressor Empty :=
      { StreamIndex.new NoneDecompressor.codec (some 5) with
        unpackedLen := some 5
        checkpoints := [.start, { Checkpoint.start with compressedOffset := 2,
                                                        uncompressedOffset := 2 }] }
    ∃ r, StreamReader.new index 3 9 = .ok r ∧
      ∀ (es : List ReadEvent) (s : ReadSession NoneDecompressor Empty),
        es.foldlM (ReadSession.drive plain) (ReadSession.start r 3 9) = some s →
        s.delivered <+: rangeOf plain s.offset s.len := by
  intro plain index
  obtain ⟨r, hnew, h⟩ := serves_exact_bytes (NoneDecompressor.obeys plain) index rfl
    ⟨⟨_, _, rfl, rfl⟩, by simp [index, Checkpoint.start]⟩
    (by
      intro cp hcp
      simp only [index, List.mem_cons, List.not_mem_nil, or_false] at hcp
      rcases hcp with rfl | rfl
      · exact NoneDecompressor.exact_of_le (by simp [Checkpoint.start]) rfl
      · exact NoneDecompressor.exact_of_le (by simp [plain]) rfl)
    (by simp [index, plain]) 3 9
  exact ⟨r, hnew, fun es s hrun => (h es s hrun).1⟩

end StreamReader
end Iluvatar
