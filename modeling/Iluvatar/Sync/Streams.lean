/-
Indexing one compressed stream from its file.

The loop serves a stream indexer as the one for archives serves its engine, but what is decoded
is thrown away.
-/
import Iluvatar.Engine.Ends
import Iluvatar.Sync.Entries

namespace Iluvatar

open Sansio

variable {σ κ τ ι : Type}

namespace StreamIndexer

/-- Take what is decoded until there is none left. -/
def discard : Nat → StreamIndexer σ κ τ → Option (StreamIndexer σ κ τ)
  | 0, _ => none
  | fuel + 1, x =>
    match x.readOutput bufSize with
    | ([], x) => some x
    | (_ :: _, x) => discard fuel x

/-- Drive the indexer until it is done or `on_progress` says to stop. -/
def buildLoop (answers : Answers ι) (impl : CheckpointStrategy τ) (onProgress : Nat → Bool) (fuel : Nat) :
    Nat → Nat → StreamIndexer σ κ τ → File Byte → Option (Except (ReadError ι) (StreamIndex σ κ) × File Byte)
  | 0, _, _, _ => none
  | rounds + 1, count, x, file =>
    match x.step impl fuel with
    | none => none
    | some (.needInput, x) =>
      match file.supply answers bufSize x.signalEof x.provideData with
      | (.error e, file) => some (.error (.io e), file)
      | (.ok x, file) =>
        if onProgress count then buildLoop answers impl onProgress fuel rounds (count + 1) x file
        else some (.ok x.finish, file)
    | some (.seekAndRead offset len, x) =>
      match file.seek answers offset with
      | (.error e, file) => some (.error (.io e), file)
      | (.ok (), file) =>
        match file.supply answers (min len bufSize) x.signalEof x.provideData with
        | (.error e, file) => some (.error (.io e), file)
        | (.ok x, file) =>
          if onProgress count then buildLoop answers impl onProgress fuel rounds (count + 1) x file
          else some (.ok x.finish, file)
    | some (.outputReady, x) =>
      match discard fuel x with
      | none => none
      | some x =>
        if onProgress count then buildLoop answers impl onProgress fuel rounds (count + 1) x file
        else some (.ok x.finish, file)
    | some (.done, x) => some (.ok x.finish, file)
    | some (.error f, _) => some (.error (.fault f), file)

end StreamIndexer

namespace Stream

/-- Index a stream whose codec the caller knows. -/
def build (answers : Answers ι) (codec : Codec σ κ) (impl : CheckpointStrategy τ) (strategy : τ)
    (onProgress : Nat → Bool) (fuel : Nat) (file : File Byte) :
    Option (Except (ReadError ι) (Stream σ κ) × File Byte) :=
  match file.seekEnd answers with
  | (.error e, file) => some (.error (.io e), file)
  | (.ok compressedLen, file) =>
    match file.seek answers 0 with
    | (.error e, file) => some (.error (.io e), file)
    | (.ok (), file) =>
      match StreamIndexer.new codec strategy (some compressedLen) with
      | .error e => some (.error (.fault (.error e)), file)
      | .ok x =>
        match x.buildLoop answers impl onProgress fuel fuel 0 file with
        | none => none
        | some (.error e, file) => some (.error e, file)
        | some (.ok index, file) => some (.ok { reader := file, index }, file)

end Stream

variable {codec : Codec σ κ} {packed plain : List Byte} {At : σ → Nat → Nat → Prop}
variable {answers : Answers ι}

namespace StreamIndexer

/-- Dropping output moves only the output. -/
theorem discard_ends : ∀ (k : Nat) {x : StreamIndexer σ κ τ}, x.pending.length < k →
    ∃ outBuf outRead, Ends (fun fuel => discard fuel x) { x with outBuf, outRead } ∧
      ({ x with outBuf, outRead } : StreamIndexer σ κ τ).pending = [] := by
  intro k
  induction k with
  | zero => intro x hk; exact absurd hk (Nat.not_lt_zero _)
  | succ k ih =>
    intro x hk
    obtain ⟨hsplit, hlen, hsame⟩ := x.readOutput_spec bufSize
    have hbuf : 0 < bufSize := by decide
    have hboth := congrArg List.length hsplit
    rw [List.length_append] at hboth
    cases hread : x.readOutput bufSize with
    | mk out x' =>
      rw [hread] at hsplit hlen hsame hboth
      simp only at hsplit hlen hsame hboth
      cases out with
      | nil =>
        refine ⟨x'.outBuf, x'.outRead, .of_succ (.always fun fuel => ?_), ?_⟩
        · simp only [discard, hread]
          rw [← hsame]
        · rw [← hsame]
          rw [List.length_nil] at hlen
          exact List.eq_nil_of_length_eq_zero (by rw [List.length_nil] at hboth; omega)
      | cons b out =>
        rw [List.length_cons] at hboth
        obtain ⟨outBuf, outRead, hends, hnone⟩ := ih (x := x') (by omega)
        rw [hsame] at hends hnone
        refine ⟨outBuf, outRead, .of_succ (hends.map fun fuel hrun => ?_), hnone⟩
        simp only [discard, hread]
        rw [hsame]
        exact hrun

/-- The loop between two turns. -/
structure Building (codec : Codec σ κ) (packed plain : List Byte) (At : σ → Nat → Nat → Prop)
    (next : Nat) (x : StreamIndexer σ κ τ) (file : File Byte) : Prop where
  sound : Sound codec packed plain At next x
  quiet : x.pending = []
  forward : ∀ offset, x.state ≠ .seek offset
  whole : x.stopAt = none
  bytes : file.bytes = packed
  place : file.pos = next

/-- What is left to decode and to read. -/
def toGo (packed plain : List Byte) (next : Nat) (x : StreamIndexer σ κ τ) : Nat :=
  work packed plain x + (packed.length - next) + (!x.eof).toNat

/-- What indexing a stream comes to: an index that can be read, of all of it unless `on_progress`
stopped it. -/
structure Made (codec : Codec σ κ) (plain : List Byte) (At : σ → Nat → Nat → Prop) (onProgress : Nat → Bool)
    (index : StreamIndex σ κ) : Prop where
  readable : Readable codec plain At index
  all : (index.complete = false ∧ ∃ k, onProgress k = false ∧ ∀ j, j < k → onProgress j = true) ∨
    index.complete = true ∧ index.indexedTo = plain.length ∧ index.unpackedLen = some plain.length

/-- The index that there is when the caller says to stop at its call `count`. -/
theorem Sound.made {onProgress : Nat → Bool} {count next : Nat} {x : StreamIndexer σ κ τ}
    (h : Sound codec packed plain At next x) (hbefore : ∀ j, j < count → onProgress j = true)
    (hstop : onProgress count = false) : Made codec plain At onProgress x.finish := by
  refine ⟨h.readable, ?_⟩
  cases hcomplete : x.index.complete with
  | false => exact .inl ⟨hcomplete, count, hstop, hbefore⟩
  | true =>
    have hall := h.complete hcomplete
    exact .inr ⟨hcomplete, hall.indexedTo, hall.unpackedLen⟩

/-- What the loop leaves: the failure of the last call on the file, or an index. -/
inductive Leaves (codec : Codec σ κ) (packed plain : List Byte) (At : σ → Nat → Nat → Prop) (answers : Answers ι)
    (onProgress : Nat → Bool) (calls : Nat) : Except (ReadError ι) (StreamIndex σ κ) → File Byte → Prop
  | failed {e : ι} {file : File Byte} (bytes : file.bytes = packed) (failed : FailedLast answers calls file.calls e) :
      Leaves codec packed plain At answers onProgress calls (.error (.io e)) file
  | made {index : StreamIndex σ κ} {file : File Byte} (bytes : file.bytes = packed)
      (answered : Answered answers calls file.calls) (made : Made codec plain At onProgress index) :
      Leaves codec packed plain At answers onProgress calls (.ok index) file

theorem Leaves.after {onProgress : Nat → Bool} {m n : Nat} {result : Except (ReadError ι) (StreamIndex σ κ)}
    {file : File Byte} (h : Leaves codec packed plain At answers onProgress n result file)
    (hfine : Answered answers m n) : Leaves codec packed plain At answers onProgress m result file := by
  cases h with
  | failed hbytes hfail => exact .failed hbytes (hfine.failedLast hfail)
  | made hbytes hanswered hmade => exact .made hbytes (hfine.trans hanswered) hmade

/-- Giving the indexer some of the stream leaves less to be done. -/
theorem provided {next : Nat} {x x' : StreamIndexer σ κ τ} (file : File Byte) (calls n : Nat)
    (hbytes : file.bytes = packed) (hwhole : x.stopAt = none) (hquiet : x.pending = [])
    (hout : Outcome codec packed plain At next x (some .needInput) x') :
    ∃ y, y = (if (packed.drop next).take (n + 1) = [] then x'.signalEof
        else x'.provideData ((packed.drop next).take (n + 1))) ∧
      Building codec packed plain At (next + ((packed.drop next).take (n + 1)).length) y
        { file with pos := next + ((packed.drop next).take (n + 1)).length, calls } ∧
      toGo packed plain (next + ((packed.drop next).take (n + 1)).length) y < toGo packed plain next x := by
  obtain ⟨hfed, hnil, hongoing⟩ := hout.input (.inl rfl)
  have hpending := hout.quiet (by simp) hquiet
  have hstop : x'.stopAt = none := hout.covers.stopAt.trans hwhole
  have hle := hout.work_le
  have heof := hout.covers.eof
  cases htake : (packed.drop next).take (n + 1) with
  | nil =>
    have hend : packed.length ≤ next := by
      have hlen := congrArg List.length htake
      rw [List.length_take, List.length_drop, List.length_nil] at hlen
      omega
    refine ⟨x'.signalEof, (if_pos rfl).symm, ⟨hout.sound.signalEof hfed hongoing hend, hpending,
      (fun _ h => by cases h), hstop, hbytes, rfl⟩, ?_⟩
    have hwork : work packed plain x'.signalEof = work packed plain x' := rfl
    have hover : x'.signalEof.eof = true := rfl
    simp only [toGo, hwork, hover, Bool.not_true, Bool.toNat_false, List.length_nil]
    rw [← heof]
    cases hwas : x'.eof with
    | true =>
      have hless := hout.moved rfl hwas
      omega
    | false =>
      simp only [Bool.not_false, Bool.toNat_true]
      omega
  | cons b bs =>
    have hdata : (b :: bs) <+: packed.drop next := by
      rw [← htake]
      exact List.take_prefix _ _
    have hlen := hdata.length_le
    rw [List.length_drop, List.length_cons] at hlen
    refine ⟨x'.provideData (b :: bs), (if_neg (List.cons_ne_nil _ _)).symm,
      ⟨hout.sound.provideData hfed hnil hongoing hdata (List.cons_ne_nil _ _), hpending,
        (fun _ h => by cases h), hstop, hbytes, rfl⟩, ?_⟩
    have hwork : work packed plain (x'.provideData (b :: bs)) = work packed plain x' := rfl
    have hsame : (x'.provideData (b :: bs)).eof = x.eof := heof
    simp only [toGo, hwork, hsame, List.length_cons]
    omega

/-- The loop ends. -/
theorem buildLoop_ends (answers : Answers ι) (impl : CheckpointStrategy τ) (hC : Obeys codec packed plain At)
    (onProgress : Nat → Bool) :
    ∀ (k : Nat) {next : Nat} {x : StreamIndexer σ κ τ} {file : File Byte} (count : Nat),
      Building codec packed plain At next x file → (∀ j, j < count → onProgress j = true) →
      toGo packed plain next x < k →
      ∃ result file', RoundsEnd (fun fuel rounds => buildLoop answers impl onProgress fuel rounds count x file)
          (result, file') ∧
        Leaves codec packed plain At answers onProgress file.calls result file' := by
  intro k
  induction k with
  | zero => intro _ _ _ _ _ _ hk; exact absurd hk (Nat.not_lt_zero _)
  | succ k ih =>
    intro next x file count h hbefore hk
    obtain ⟨request, x', hends⟩ := step_ends impl hC h.sound
    obtain ⟨_, hgave⟩ := hends.gives
    have hout := step_outcome impl hC h.sound hgave
    -- the caller is asked whether to go on
    have hwatch : ∀ (next' : Nat) (y : StreamIndexer σ κ τ) (file₁ : File Byte),
        Building codec packed plain At next' y file₁ → toGo packed plain next' y < toGo packed plain next x →
        Answered answers file.calls file₁.calls →
        ∃ result file', RoundsEnd (fun fuel rounds =>
            if onProgress count then buildLoop answers impl onProgress fuel rounds (count + 1) y file₁
            else some (.ok y.finish, file₁)) (result, file') ∧
          Leaves codec packed plain At answers onProgress file.calls result file' := by
      intro next' y file₁ hbuilding hless hfine
      cases hon : onProgress count with
      | true =>
        have hbefore' : ∀ j, j < count + 1 → onProgress j = true := by
          intro j hj
          rcases Nat.lt_succ_iff_lt_or_eq.mp hj with hlt | rfl
          · exact hbefore j hlt
          · exact hon
        obtain ⟨result, file', hrounds, hleaves⟩ := ih (count + 1) hbuilding hbefore' (by omega)
        exact ⟨result, file', hrounds, hleaves.after hfine⟩
      | false =>
        refine ⟨.ok y.finish, file₁, ⟨0, fun fuel rounds _ _ => ?_⟩,
          .made hbuilding.bytes hfine (hbuilding.sound.made hbefore hon)⟩
        simp only [Bool.false_eq_true, if_false]
    cases request with
    | needInput =>
      rcases @File.supply_cases Byte (StreamIndexer σ κ τ) ι answers file bufSize (by decide) x'.signalEof
        x'.provideData with ⟨e, hsupply, hfail⟩ | ⟨n, hfine, hsupply⟩
      · refine ⟨.error (.io e), { file with calls := file.calls + 1 }, RoundsEnd.last hends fun fuel n hrun => ?_,
          .failed h.bytes hfail⟩
        simp only [buildLoop, hrun, hsupply]
      · obtain ⟨y, hy, hbuilding, hless⟩ := provided file (file.calls + 1) n h.bytes h.whole h.quiet hout
        have hpiece : (file.bytes.drop file.pos).take (n + 1) = (packed.drop next).take (n + 1) := by
          rw [h.bytes, h.place]
        have hgave : ∃ pos, file.supply answers bufSize x'.signalEof x'.provideData =
            (.ok y, { file with pos, calls := file.calls + 1 }) ∧
              pos = next + ((packed.drop next).take (n + 1)).length := by
          rw [hpiece] at hsupply
          rw [hy]
          cases htake : (packed.drop next).take (n + 1) with
          | nil =>
            rw [htake] at hsupply
            exact ⟨file.pos, hsupply, h.place⟩
          | cons b data =>
            rw [htake] at hsupply
            exact ⟨file.pos + (b :: data).length, hsupply, by rw [h.place]⟩
        obtain ⟨pos, hgave, rfl⟩ := hgave
        obtain ⟨result, file', hrounds, hrest⟩ := hwatch _ y _ hbuilding hless hfine
        refine ⟨result, file', RoundsEnd.step hends hrounds fun fuel n hrun => ?_, hrest⟩
        simp only [buildLoop, hrun, hgave]
    | seekAndRead offset len =>
      obtain ⟨⟨from', hseek⟩, _⟩ := hout.sought offset len rfl
      exact absurd hseek (h.forward from')
    | outputReady =>
      obtain ⟨hless, hpos⟩ := hout.ready rfl h.quiet
      obtain ⟨outBuf, outRead, hdiscards, hnone⟩ := @discard_ends _ _ _ _ x' (Nat.lt_succ_self _)
      have hstop : x'.stopAt = none := hout.covers.stopAt.trans h.whole
      have hbuilding : Building codec packed plain At next { x' with outBuf, outRead } file :=
        ⟨hout.sound.withOutput outBuf outRead x'.stopAt id, hnone, hout.settled, hstop, h.bytes, h.place⟩
      have hcloser : toGo packed plain next { x' with outBuf, outRead } < toGo packed plain next x := by
        have heof : x'.eof = x.eof := hout.covers.eof
        show work packed plain x' + (packed.length - next) + (!x'.eof).toNat < _
        rw [heof, toGo]
        omega
      obtain ⟨result, file', hrounds, hrest⟩ := hwatch _ _ _ hbuilding hcloser (.refl _)
      refine ⟨result, file', RoundsEnd.stepBoth hends hdiscards hrounds fun fuel n hrun hdiscard => ?_, hrest⟩
      simp only [buildLoop, hrun, hdiscard]
    | done =>
      have hdone := hout.ended rfl
      have hstop : x'.stopAt = none := hout.covers.stopAt.trans h.whole
      have hcomplete := (hout.sound.done hdone).resolve_right (fun hsome => hsome hstop)
      have hall := hout.sound.complete hcomplete
      refine ⟨.ok x'.finish, file, RoundsEnd.last hends fun fuel n hrun => ?_,
        .made h.bytes (.refl _) ⟨hout.sound.readable, .inr ⟨hcomplete, hall.indexedTo, hall.unpackedLen⟩⟩⟩
      simp only [buildLoop, hrun]
    | error f => exact absurd rfl (hout.fine f)

end StreamIndexer

namespace Stream

/-- Indexing a stream always comes to an end, with the failure of the last call on the file or with
an index of all the stream, unless `on_progress` stopped it, and either way the index serves
every range of the plain bytes. -/
theorem build_serves (hC : Obeys codec packed plain At) (impl : CheckpointStrategy τ) (strategy : τ)
    (onProgress : Nat → Bool) (file : File Byte) (hbytes : file.bytes = packed) {interrupted : ι → Bool} {calm : Nat}
    (hcalm : ∀ k err, calm ≤ k → answers k = .error err → interrupted err = false) :
    ∃ result file', Ends (fun fuel => build answers codec impl strategy onProgress fuel file) (result, file') ∧
      ((∃ e, FailedLast answers file.calls file'.calls e ∧ result = .error (.io e)) ∨
        Answered answers file.calls file'.calls ∧ ∃ stream, result = .ok stream ∧
          ((stream.index.complete = false ∧ ∃ k, onProgress k = false ∧ ∀ j, j < k → onProgress j = true) ∨
            stream.index.complete = true ∧ stream.index.indexedTo = plain.length ∧
              stream.index.unpackedLen = some plain.length) ∧
          ∀ (offset len : Nat) (rooms : Nat → Nat),
            (∀ err, answers stream.reader.calls = .error err → interrupted err = false) →
            ∃ enough, ∀ fuel, enough ≤ fuel → ∃ read file'',
              stream.readRange answers interrupted rooms fuel offset len = some (read, file'') ∧
              (read = .ok (rangeOf plain offset len) ∨
                ∃ k err, stream.reader.calls ≤ k ∧ k < file''.calls ∧ answers k = .error err ∧
                  interrupted err = false ∧ read = .error (.io err))) := by
  rcases @File.seekEnd_cases Byte ι answers file with ⟨e, hend, hfail⟩ | ⟨hend, hfine⟩
  · exact ⟨.error (.io e), { file with calls := file.calls + 1 }, .always fun fuel => by rw [build, hend],
      .inl ⟨e, hfail, rfl⟩⟩
  rcases @File.seek_cases Byte ι answers { file with pos := file.bytes.length, calls := file.calls + 1 } 0 with
    ⟨e, hseek, hfail⟩ | ⟨hseek, hfine₁⟩
  · exact ⟨.error (.io e), { file with pos := file.bytes.length, calls := file.calls + 1 + 1 },
      .always fun fuel => by rw [build, hend]; simp only [hseek], .inl ⟨e, hfine.failedLast hfail, rfl⟩⟩
  have hfine₂ := hfine.trans hfine₁
  obtain ⟨x, hnew, hsound, hquiet, _⟩ := StreamIndexer.new_sound hC strategy (some file.bytes.length)
  obtain ⟨d, hcreate⟩ := hC.creates
  have hfresh : x.state = .needInput ∧ x.stopAt = none := by
    rw [StreamIndexer.new, hcreate] at hnew
    obtain rfl := Except.ok.inj hnew
    exact ⟨rfl, rfl⟩
  have hbuilding : StreamIndexer.Building codec packed plain At 0 x
      { file with pos := 0, calls := file.calls + 1 + 1 } := by
    refine ⟨hsound.withEmit x.emitOutput, hquiet, fun offset hoffset => ?_, hfresh.2, hbytes, rfl⟩
    have hsame := hfresh.1.symm.trans hoffset
    cases hsame
  obtain ⟨result, file', hrounds, hleaves⟩ :=
    StreamIndexer.buildLoop_ends answers impl hC onProgress _ 0 hbuilding
      (fun j hj => absurd hj (Nat.not_lt_zero j)) (Nat.lt_succ_self _)
  cases hleaves.after hfine₂ with
  | @failed e _ _ hfail =>
    refine ⟨.error (.io e), file', hrounds.ends.map fun fuel hrun => ?_, .inl ⟨e, hfail, rfl⟩⟩
    rw [build, hend]
    simp only [hseek, hnew, hrun]
  | @made index _ hbytes' hanswered hmade =>
    refine ⟨.ok { reader := file', index }, file', hrounds.ends.map fun fuel hrun => ?_,
      .inr ⟨hanswered, _, rfl, hmade.all, fun offset len rooms hcalls => ?_⟩⟩
    · rw [build, hend]
      simp only [hseek, hnew, hrun]
    · obtain ⟨e, hopen, hreader, hfollows⟩ :=
        @openRange_follows _ _ ι _ _ _ _ hC { reader := file', index } hmade.readable hbytes' offset len
      exact readRange_follows hC hopen hreader hfollows hcalls hcalm rooms

/-- Five stored bytes behind a handle whose third call is interrupted. -/
theorem build_serves_stored : ∃ result file',
    Ends (fun fuel => build Archive.flaky NoneDecompressor.codec .fixedInterval 2 (fun _ => true) fuel
      { bytes := [1, 2, 3, 4, 5], pos := 0, calls := 3 }) (result, file') ∧
    ((∃ e, FailedLast Archive.flaky 3 file'.calls e ∧ result = .error (.io e)) ∨
      Answered Archive.flaky 3 file'.calls ∧ ∃ stream, result = .ok stream ∧
        ((stream.index.complete = false ∧
            ∃ k : Nat, (fun _ : Nat => true) k = false ∧ ∀ j : Nat, j < k → (fun _ : Nat => true) j = true) ∨
          stream.index.complete = true ∧ stream.index.indexedTo = 5 ∧ stream.index.unpackedLen = some 5) ∧
        ∀ (offset len : Nat) (rooms : Nat → Nat),
          (∀ err, Archive.flaky stream.reader.calls = .error err → true = false) →
          ∃ enough, ∀ fuel, enough ≤ fuel → ∃ read file'',
            stream.readRange Archive.flaky (fun _ => true) rooms fuel offset len = some (read, file'') ∧
            (read = .ok (rangeOf [1, 2, 3, 4, 5] offset len) ∨
              ∃ k err, stream.reader.calls ≤ k ∧ k < file''.calls ∧ Archive.flaky k = .error err ∧ true = false ∧
                read = .error (.io err))) := by
  have hcalm : ∀ k err, 3 ≤ k → Archive.flaky k = .error err → (fun _ : Unit => true) err = false := by
    intro k err hk herror
    rw [Archive.flaky, if_neg (by omega)] at herror
    cases herror
  exact build_serves (NoneDecompressor.obeys [1, 2, 3, 4, 5]) .fixedInterval 2 (fun _ => true)
    { bytes := [1, 2, 3, 4, 5], pos := 0, calls := 3 } rfl hcalm

end Stream
end Iluvatar
