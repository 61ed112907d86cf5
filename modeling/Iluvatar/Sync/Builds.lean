/-
Indexing an archive always comes to an end, and what it comes to.

The loop that serves the engine is a session of the engine that stops at the first outcome.
Every turn of it leaves less to decode, or less of the file to read, and so it ends: with the
failure of a call on the file, which is the last, with the engine's own verdict on the archive,
or with an index that the session hands out.
-/
import Iluvatar.Engine.Advancing
import Iluvatar.Sync.Indexing
import Iluvatar.Sync.Ranges

namespace Iluvatar

open Sansio

variable {σ κ τ ρ ι : Type} {codec : Codec σ κ} {packed plain : List Byte} {At : σ → Nat → Nat → Prop}
variable {answers : Answers ι}

/-! ## The header -/

theorem readHeader_ends (answers : Answers ι) : ∀ (k : Nat) (file : File Byte) (header : List Byte),
    file.bytes = packed → header = packed.take header.length → file.pos = header.length →
    header.length ≤ headerRoom → headerRoom - header.length < k →
    ∃ result file', Ends (fun fuel => readHeader answers fuel file header) (result, file') ∧ file'.bytes = packed ∧
      ((∃ e, FailedLast answers file.calls file'.calls e ∧ result = .error e) ∨
        Answered answers file.calls file'.calls ∧ result = .ok (packed.take headerRoom) ∧
          file'.pos = (packed.take headerRoom).length) := by
  intro k
  induction k with
  | zero => intro _ _ _ _ _ _ hk; exact absurd hk (Nat.not_lt_zero _)
  | succ k ih =>
    intro file header hbytes hheader hpos hle hk
    subst hbytes
    by_cases hfull : header.length < headerRoom
    · rcases @File.read_cases Byte ι answers file (headerRoom - header.length) with
        ⟨e, hread, hfail⟩ | ⟨more, hread, hfine⟩
      · refine ⟨.error e, { file with calls := file.calls + 1 }, .of_succ (.always fun fuel => ?_), rfl,
          .inl ⟨e, hfail, rfl⟩⟩
        simp only [readHeader, if_pos hfull, hread]
      · rw [hpos] at hread
        cases hdata : (file.bytes.drop header.length).take (min (headerRoom - header.length) (more + 1)) with
        | nil =>
          rw [hdata] at hread
          have hend : file.bytes.length ≤ header.length := by
            have hlen := congrArg List.length hdata
            rw [List.length_take, List.length_drop, List.length_nil] at hlen
            omega
          have hall : header = file.bytes.take headerRoom := by
            rw [hheader, List.take_of_length_le hend, List.take_of_length_le (by omega)]
          refine ⟨.ok header, { file with pos := header.length + ([] : List Byte).length, calls := file.calls + 1 },
            .of_succ (.always fun fuel => ?_), rfl, .inr ⟨hfine, by rw [← hall], ?_⟩⟩
          · simp only [readHeader, if_pos hfull, hread]
          · rw [← hall]
            exact Nat.add_zero _
        | cons b data =>
          rw [hdata] at hread
          have hlen := congrArg List.length hdata
          rw [List.length_take, List.length_drop, List.length_cons] at hlen
          have hmore : header ++ b :: data = file.bytes.take (header ++ b :: data).length := by
            have hsame : b :: data = (file.bytes.drop header.length).take (b :: data).length := by
              rw [← hdata, List.length_take, List.take_eq_take_iff]
              omega
            rw [List.length_append, List.take_add, ← hheader, ← hsame]
          obtain ⟨result, file', hends, hbytes', hcase⟩ := ih
            { file with pos := header.length + (b :: data).length, calls := file.calls + 1 } (header ++ b :: data) rfl
            hmore (by rw [List.length_append]) (by rw [List.length_append, List.length_cons]; omega)
            (by rw [List.length_append, List.length_cons]; omega)
          refine ⟨result, file', .of_succ (hends.map fun fuel hrun => ?_), hbytes', ?_⟩
          · simp only [readHeader, if_pos hfull, hread]
            exact hrun
          · rcases hcase with ⟨e, hfail, herror⟩ | ⟨hfine', hok, hpos'⟩
            · exact .inl ⟨e, hfine.failedLast hfail, herror⟩
            · exact .inr ⟨hfine.trans hfine', hok, hpos'⟩
    · have hall : header = file.bytes.take headerRoom := by
        rw [hheader, show header.length = headerRoom by omega]
      refine ⟨.ok header, file, .of_succ (.always fun fuel => ?_), rfl, .inr ⟨.refl _, by rw [← hall], ?_⟩⟩
      · simp only [readHeader, if_neg hfull]
      · rw [← hall]
        exact hpos

/-! ## The session behind the loop -/

section

variable {parser : ArchiveParser ρ} {good : ρ → Prop} {rank : ρ → Nat} {weight : Nat} {impl : CheckpointStrategy τ}
variable {start : IndexingEngine σ κ τ ρ} {header : List Byte} {onProgress : Nat → Bool}

/-- A caller that stops at the first outcome is a caller. -/
theorem EngineSession.run_of_driveOn : ∀ (es : List EngineEvent) {s s' : EngineSession σ κ τ ρ},
    es.foldlM (EngineSession.driveOn parser impl packed) s = some s' →
    es.foldlM (EngineSession.drive parser impl packed) s = some s' := by
  intro es
  induction es with
  | nil => intro s s' h; exact h
  | cons e es ih =>
    intro s s' h
    rw [List.foldlM_cons] at h ⊢
    rw [EngineSession.driveOn] at h
    by_cases hended : s.ended = true
    · rw [if_pos hended] at h
      cases h
    · rw [if_neg hended] at h
      cases hdrive : s.drive parser impl packed e with
      | none =>
        rw [hdrive] at h
        cases h
      | some s₁ =>
        rw [hdrive] at h
        exact ih h

/-- A session that a caller that stops at the first outcome comes to. -/
def Sessions (parser : ArchiveParser ρ) (impl : CheckpointStrategy τ) (packed : List Byte)
    (start : IndexingEngine σ κ τ ρ) (s : EngineSession σ κ τ ρ) : Prop :=
  ∃ es : List EngineEvent, es.foldlM (EngineSession.driveOn parser impl packed) (EngineSession.start start) = some s

theorem Sessions.next {s s' : EngineSession σ κ τ ρ} {e : EngineEvent} (h : Sessions parser impl packed start s)
    (hgoing : s.ended = false) (hdrive : s.drive parser impl packed e = some s') :
    Sessions parser impl packed start s' := by
  obtain ⟨es, hrun⟩ := h
  refine ⟨es ++ [e], ?_⟩
  have hon : s.driveOn parser impl packed e = some s' := by
    rw [EngineSession.driveOn, hgoing, if_neg Bool.false_ne_true, hdrive]
  rw [List.foldlM_append, hrun]
  show [e].foldlM _ s = some s'
  rw [List.foldlM_cons, hon]
  rfl

/-- What indexing comes to whose calls on the file are those from `m` up to `n`. -/
def Indexed (answers : Answers ι) (parser : ArchiveParser ρ) (impl : CheckpointStrategy τ) (packed : List Byte)
    (start : IndexingEngine σ κ τ ρ) (onProgress : Nat → Bool) (m n : Nat)
    (result : Except (ReadError ι) (ArchiveIndex σ κ)) : Prop :=
  (∃ e, FailedLast answers m n e ∧ result = .error (.io e)) ∨
    Answered answers m n ∧ ∃ s, Sessions parser impl packed start s ∧
      ((∃ f, s.reported = some (.error f) ∧ result = .error (.fault f)) ∨
        (∃ index, s.reported = some .done ∧ s.engine.finish = some index ∧ result = .ok index) ∨
        ∃ index, (∃ k, onProgress k = false) ∧ s.engine.cancel = some index ∧ result = .ok index)

theorem Indexed.after {m n k : Nat} {result : Except (ReadError ι) (ArchiveIndex σ κ)} (h : Answered answers m n)
    (hindexed : Indexed answers parser impl packed start onProgress n k result) :
    Indexed answers parser impl packed start onProgress m k result := by
  rcases hindexed with ⟨e, hfail, herror⟩ | ⟨hfine, hrest⟩
  · exact .inl ⟨e, h.failedLast hfail, herror⟩
  · exact .inr ⟨h.trans hfine, hrest⟩

/-- The loop between two turns: the session goes on, and the file stands where it reads on, or
where the header ends that the engine is still to be given. -/
structure Underway (codec : Codec σ κ) (packed plain : List Byte) (At : σ → Nat → Nat → Prop)
    (parser : ArchiveParser ρ) (impl : CheckpointStrategy τ) (good : ρ → Prop) (start : IndexingEngine σ κ τ ρ)
    (header : List Byte) (s : EngineSession σ κ τ ρ) (headerFed : Bool) (file : File Byte) : Prop where
  session : Sessions parser impl packed start s
  going : s.ended = false
  driven : IndexingEngine.Driven codec packed plain At good s.next s.engine
  bytes : file.bytes = packed
  place : headerFed = true → file.pos = s.next
  fresh : headerFed = false → s.next = 0 ∧ file.pos = header.length

/-- What is left to decode and to read. -/
def EngineSession.toGo (packed plain : List Byte) (s : EngineSession σ κ τ ρ) : Nat :=
  StreamIndexer.work packed plain s.engine.indexer + (packed.length - s.next) + (!s.engine.indexer.eof).toNat

/-- The session after a step that asked for input. -/
def EngineSession.asking (s : EngineSession σ κ τ ρ) (e : IndexingEngine σ κ τ ρ) : EngineSession σ κ τ ρ :=
  { s with engine := e, wanted := true, reported := some .needInput }

/-- Giving the engine some of the stream leaves less to be done. -/
theorem EngineSession.provided {s : EngineSession σ κ τ ρ} {e : IndexingEngine σ κ τ ρ}
    (hsession : Sessions parser impl packed start (s.asking e))
    (hround : IndexingEngine.Round codec packed plain At good s.next s.engine (some .needInput) e) (n : Nat) :
    ∃ s', Sessions parser impl packed start s' ∧ s'.ended = false ∧
      IndexingEngine.Driven codec packed plain At good s'.next s'.engine ∧
      s'.toGo packed plain < s.toGo packed plain ∧
      s'.next = s.next + ((packed.drop s.next).take (n + 1)).length ∧
      s'.engine = if (packed.drop s.next).take (n + 1) = [] then e.signalEof
        else e.provideData ((packed.drop s.next).take (n + 1)) := by
  cases hround with
  | needInput driven waiting le eof moved =>
    obtain ⟨hfed, hnil, hongoing⟩ := waiting
    cases htake : (packed.drop s.next).take (n + 1) with
    | nil =>
      have hend : packed.length ≤ s.next := by
        have hlen := congrArg List.length htake
        rw [List.length_take, List.length_drop, List.length_nil] at hlen
        omega
      have hthere : (s.asking e).drive parser impl packed (.provide n) =
          some { s.asking e with engine := e.signalEof, wanted := false } := by
        simp only [EngineSession.drive, asking, if_true, htake]
      refine ⟨_, hsession.next rfl hthere, rfl,
        ⟨driven.sound.signalEof hfed hongoing hend, driven.quiet, driven.parsing, fun _ h => by cases h⟩, ?_, rfl,
        (if_pos rfl).symm⟩
      have hwork : StreamIndexer.work packed plain e.signalEof.indexer =
        StreamIndexer.work packed plain e.indexer := rfl
      have heof : e.signalEof.indexer.eof = true := rfl
      simp only [toGo, asking, hwork, heof, Bool.not_true, Bool.toNat_false]
      rw [← eof]
      cases hwas : e.indexer.eof with
      | true =>
        have := moved hwas
        omega
      | false =>
        simp only [Bool.not_false, Bool.toNat_true]
        omega
    | cons b bs =>
      have hdata : (b :: bs) <+: packed.drop s.next := by
        rw [← htake]
        exact List.take_prefix _ _
      have hthere : (s.asking e).drive parser impl packed (.provide n) = some { s.asking e with
          engine := e.provideData (b :: bs), next := s.next + (b :: bs).length, wanted := false } := by
        simp only [EngineSession.drive, asking, if_true, htake]
      have hlen := hdata.length_le
      rw [List.length_drop, List.length_cons] at hlen
      refine ⟨_, hsession.next rfl hthere, rfl,
        ⟨driven.sound.provideData hfed hnil hongoing hdata (List.cons_ne_nil _ _), driven.quiet, driven.parsing,
          fun _ h => by cases h⟩, ?_, rfl, (if_neg (List.cons_ne_nil _ _)).symm⟩
      have hwork : StreamIndexer.work packed plain (e.provideData (b :: bs)).indexer =
        StreamIndexer.work packed plain e.indexer := rfl
      have heof : (e.provideData (b :: bs)).indexer.eof = s.engine.indexer.eof := eof
      simp only [toGo, hwork, heof, List.length_cons]
      omega

/-- Asked at any moment of a session, the engine hands out an index. -/
theorem Sessions.gives {compression : CompressionFormat} {given : Option ArchiveFormat} {strategy : τ}
    {archiveSize : Nat} {s : EngineSession σ κ τ ρ} (hC : Obeys codec packed plain At)
    (hnew : IndexingEngine.withStrategy parser codec compression given strategy archiveSize = .ok start)
    (h : Sessions parser impl packed start s) :
    (∃ index, s.engine.cancel = some index) ∧ ∃ index, s.engine.finish = some index := by
  obtain ⟨es, hrun⟩ := h
  obtain ⟨_, hcancel, hfinish, _⟩ := (EngineInv.run parser impl hC hnew (EngineSession.run_of_driveOn es hrun)).gives
  exact ⟨hcancel, hfinish⟩

/-- The loop ends. -/
theorem driveIndexing_ends {compression : CompressionFormat} {given : Option ArchiveFormat} {strategy : τ}
    {archiveSize : Nat} (hadv : Advances parser good rank weight) (impl : CheckpointStrategy τ)
    (hC : Obeys codec packed plain At) (answers : Answers ι)
    (hnew : IndexingEngine.withStrategy parser codec compression given strategy archiveSize = .ok start)
    (hheader : header = packed.take headerRoom) (hsome : header ≠ []) (onProgress : Nat → Bool) :
    ∀ (k : Nat) {s : EngineSession σ κ τ ρ} {headerFed : Bool} {file : File Byte} (count : Nat),
      Underway codec packed plain At parser impl good start header s headerFed file → s.toGo packed plain < k →
      ∃ result file', RoundsEnd (fun fuel rounds =>
          driveIndexing answers parser impl onProgress header fuel rounds count s.engine headerFed file)
          (result, file') ∧
        file'.bytes = packed ∧ Indexed answers parser impl packed start onProgress file.calls file'.calls result := by
  intro k
  induction k with
  | zero => intro _ _ _ _ _ hk; exact absurd hk (Nat.not_lt_zero _)
  | succ k ih =>
    intro s headerFed file count h hk
    obtain ⟨request, e', hsteps, hround⟩ := IndexingEngine.step_ends hadv impl hC _ h.driven (Nat.lt_succ_self _)
    have hends := hsteps.ends
    obtain ⟨fuel₀, hgave⟩ := hends.gives
    -- the caller is asked whether to go on, and the loop does, or the index is handed over as it is
    have hwatch : ∀ (s' : EngineSession σ κ τ ρ) (file₁ : File Byte),
        Underway codec packed plain At parser impl good start header s' true file₁ →
        s'.toGo packed plain < s.toGo packed plain → Answered answers file.calls file₁.calls →
        ∃ result file', RoundsEnd (fun fuel rounds =>
            if onProgress count then
              driveIndexing answers parser impl onProgress header fuel rounds (count + 1) s'.engine true file₁
            else handOver s'.engine.cancel file₁) (result, file') ∧
          file'.bytes = packed ∧ Indexed answers parser impl packed start onProgress file.calls file'.calls result := by
      intro s' file₁ hgoing hless hfine
      cases hon : onProgress count with
      | true =>
        obtain ⟨result, file', hrounds, hbytes, hindexed⟩ := ih (count + 1) hgoing (by omega)
        exact ⟨result, file', hrounds, hbytes, hindexed.after hfine⟩
      | false =>
        obtain ⟨⟨index, hcancel⟩, _⟩ := hgoing.session.gives hC hnew
        refine ⟨.ok index, file₁, ⟨0, fun fuel rounds _ _ => ?_⟩, hgoing.bytes,
          .inr ⟨hfine, s', hgoing.session, .inr (.inr ⟨index, ⟨count, hon⟩, hcancel, rfl⟩)⟩⟩
        simp only [Bool.false_eq_true, if_false, hcancel, handOver]
    have hsession : ∀ {s₁ : EngineSession σ κ τ ρ}, s.drive parser impl packed (.step fuel₀ fuel₀) = some s₁ →
        Sessions parser impl packed start s₁ := h.session.next h.going
    rw [EngineSession.drive, hgave] at hsession
    have hthere := hround
    cases hround with
    | failed =>
      refine ⟨_, file, RoundsEnd.last hends fun fuel n hrun => ?_, h.bytes,
        .inr ⟨.refl _, _, hsession rfl, .inl ⟨_, rfl, rfl⟩⟩⟩
      simp only [driveIndexing, hrun]
    | done =>
      obtain ⟨_, index, hfinish⟩ := (hsession rfl).gives hC hnew
      refine ⟨.ok index, file, RoundsEnd.last hends fun fuel n hrun => ?_, h.bytes,
        .inr ⟨.refl _, _, hsession rfl, .inr (.inl ⟨index, rfl, hfinish, rfl⟩)⟩⟩
      simp only [driveIndexing, hrun, handOver]
      rw [hfinish]
    | needInput driven waiting le eof moved =>
      have hasking : Sessions parser impl packed start (s.asking e') := hsession rfl
      cases headerFed with
      | false =>
        obtain ⟨hnext, hpos⟩ := h.fresh rfl
        obtain ⟨s', hsession', hgoing, hdriven, hless, hplace, hengine⟩ :=
          EngineSession.provided hasking hthere (headerRoom - 1)
        have htake : (packed.drop s.next).take (headerRoom - 1 + 1) = header := by rw [hnext, hheader]; rfl
        rw [htake] at hplace hengine
        rw [if_neg hsome] at hengine
        obtain ⟨result, file', hrounds, hrest⟩ := hwatch s' file
          ⟨hsession', hgoing, hdriven, h.bytes, fun _ => by rw [hpos, hplace, hnext, Nat.zero_add],
            fun h => by cases h⟩ hless (.refl _)
        refine ⟨result, file', RoundsEnd.step hends hrounds fun fuel n hrun => ?_, hrest⟩
        simp only [driveIndexing, hrun, hengine, Bool.false_eq_true, if_false]
      | true =>
        have hpos := h.place rfl
        rcases @File.supply_cases Byte (IndexingEngine σ κ τ ρ) ι answers file bufSize (by decide) e'.signalEof
          e'.provideData with ⟨e, hsupply, hfail⟩ | ⟨n, hfine, hsupply⟩
        · refine ⟨.error (.io e), { file with calls := file.calls + 1 }, RoundsEnd.last hends fun fuel n hrun => ?_,
            h.bytes, .inl ⟨e, hfail, rfl⟩⟩
          simp only [driveIndexing, hrun, hsupply, if_true]
        · obtain ⟨s', hsession', hgoing, hdriven, hless, hplace, hengine⟩ :=
            EngineSession.provided hasking hthere n
          have hpiece : (file.bytes.drop file.pos).take (n + 1) = (packed.drop s.next).take (n + 1) := by
            rw [h.bytes, hpos]
          have hgave : ∃ pos, file.supply answers bufSize e'.signalEof e'.provideData =
              (.ok s'.engine, { file with pos, calls := file.calls + 1 }) ∧ pos = s'.next := by
            rw [hpiece] at hsupply
            cases htake : (packed.drop s.next).take (n + 1) with
            | nil =>
              rw [htake] at hsupply hplace hengine
              rw [if_pos rfl] at hengine
              rw [hengine]
              exact ⟨file.pos, hsupply, by rw [hpos, hplace]; rfl⟩
            | cons b data =>
              rw [htake] at hsupply hplace hengine
              rw [if_neg (List.cons_ne_nil _ _)] at hengine
              rw [hengine]
              exact ⟨file.pos + (b :: data).length, hsupply, by rw [hpos, hplace]⟩
          obtain ⟨pos, hsupply, hpos'⟩ := hgave
          obtain ⟨result, file', hrounds, hrest⟩ := hwatch s' { file with pos, calls := file.calls + 1 }
            ⟨hsession', hgoing, hdriven, h.bytes, fun _ => hpos', fun h => by cases h⟩ hless
            hfine
          refine ⟨result, file', RoundsEnd.step hends hrounds fun fuel n hrun => ?_, hrest⟩
          simp only [driveIndexing, hrun, hsupply, if_true]

/-- The loop before its first turn. -/
theorem Underway.first {compression : CompressionFormat} {strategy : τ} {archiveSize : Nat} {file : File Byte}
    (impl : CheckpointStrategy τ) (good : ρ → Prop) (hC : Obeys codec packed plain At)
    (hnew : IndexingEngine.withStrategy parser codec compression none strategy archiveSize = .ok start)
    (hbytes : file.bytes = packed) (hpos : file.pos = header.length) :
    Underway codec packed plain At parser impl good start header (EngineSession.start start) false file := by
  obtain ⟨x, hindexer, hsound, hpending, _⟩ :=
    StreamIndexer.new_sound hC strategy (if archiveSize = 0 then none else some archiveSize)
  obtain ⟨d, hcreate⟩ := hC.creates
  have hstate : x.state = .needInput := by
    rw [StreamIndexer.new, hcreate] at hindexer
    obtain rfl := Except.ok.inj hindexer
    rfl
  rw [IndexingEngine.withStrategy] at hnew
  simp only [hindexer, Except.map] at hnew
  obtain rfl := Except.ok.inj hnew
  refine ⟨⟨[], rfl⟩, rfl, ⟨hsound, .inr hpending, fun p hp => ?_, fun offset hseek => ?_⟩, hbytes,
    (fun h => by cases h), fun _ => ⟨rfl, hpos⟩⟩
  · cases hp
  · have hsame := hstate.symm.trans hseek
    cases hsame

end

/-! ## The index -/

/-- An entry of an index, but for its checkpoint. -/
def IndexEntry.unplaced (entry : IndexEntry) : IndexEntry := { entry with checkpointIndex := 0 }

theorem StreamIndex.place_unplaced (stream : StreamIndex σ κ) : ∀ entries placed : List IndexEntry,
    (entries.mapM fun entry => (stream.bestCheckpointForOffset entry.uncompressedOffset).map fun best =>
      { entry with checkpointIndex := best.1 }) = some placed →
    placed.map IndexEntry.unplaced = entries.map IndexEntry.unplaced := by
  intro entries
  induction entries with
  | nil =>
    intro placed hmap
    obtain rfl := Option.some.inj hmap
    rfl
  | cons entry entries ih =>
    intro placed hmap
    rw [List.mapM_cons] at hmap
    obtain ⟨first, hfirst, hmore⟩ := Option.bind_eq_some_iff.mp hmap
    obtain ⟨best, _, rfl⟩ := Option.map_eq_some_iff.mp hfirst
    obtain ⟨rest, hrest, hall⟩ := Option.bind_eq_some_iff.mp hmore
    obtain rfl := Option.some.inj hall
    rw [List.map_cons, List.map_cons, ih rest hrest]
    rfl

/-- An index lists the entries that were recorded. -/
theorem IndexBuilder.assemble_lists {b : IndexBuilder} {stream : StreamIndex σ κ} {complete : Bool}
    {index : ArchiveIndex σ κ} (h : b.assemble stream complete = some index) :
    index.entries.map IndexEntry.unplaced = b.entries.map IndexEntry.unplaced ∧
      index.metadata.complete = complete := by
  rw [assemble] at h
  obtain ⟨placed, hmap, rfl⟩ := Option.map_eq_some_iff.mp h
  exact ⟨stream.place_unplaced b.entries placed hmap, rfl⟩

/-- An archive over the file, its index handed out and each entry with the best checkpoint
for its data. -/
structure Opened (codec : Codec σ κ) (packed : List Byte) (complete : Bool) (archive : Archive σ κ) : Prop where
  bytes : archive.reader.bytes = packed
  handed : HandedOut codec packed archive.index.stream
  placed : ∀ entry ∈ archive.index.entries, ∃ cp, archive.index.checkpointFor entry = some cp ∧
    StreamIndex.IsBest archive.index.stream.checkpoints entry.uncompressedOffset entry.checkpointIndex cp
  complete : archive.index.metadata.complete = complete

/-- What opening an archive comes to where the file fails no call: what reading the whole plain
text says, which is the parser's own verdict where no call of the reading idles, or as much of
an index as there was when `on_progress` stopped it. -/
inductive Built (codecOf : CompressionFormat → Codec σ κ) (packed plain : List Byte) (onProgress : Nat → Bool) :
    Except (ReadError ι) (Archive σ κ) → Prop
  | unsupported (undetected : detectFormat (packed.take headerRoom) = none) :
      Built codecOf packed plain onProgress (.error (.fault (.error .unsupportedFormat)))
  | refused {format f} (detected : detectFormat (packed.take headerRoom) = some format)
      (reads : ¬ MeetsIdle archiveParsers plain (readerOf none plain) 0 →
        ∃ recorded, Reading archiveParsers plain (readerOf none plain) 0 [] (.failed f) recorded) :
      Built codecOf packed plain onProgress (.error (.fault f))
  | whole {format archive} (detected : detectFormat (packed.take headerRoom) = some format)
      (opened : Opened (codecOf format) packed true archive)
      (reads : ¬ MeetsIdle archiveParsers plain (readerOf none plain) 0 →
        ∃ recorded, Reading archiveParsers plain (readerOf none plain) 0 [] .done recorded ∧
          archive.index.entries.map IndexEntry.unplaced = recorded.map IndexEntry.unplaced) :
      Built codecOf packed plain onProgress (.ok archive)
  | stopped {format archive k} (detected : detectFormat (packed.take headerRoom) = some format)
      (opened : Opened (codecOf format) packed false archive) (said : onProgress k = false) :
      Built codecOf packed plain onProgress (.ok archive)

section

variable {impl : CheckpointStrategy τ} {onProgress : Nat → Bool}
variable {start : IndexingEngine σ κ τ (CpioParser ⊕ (TarParser ⊕ ArParser))} {compression : CompressionFormat}
variable {strategy : τ} {archiveSize : Nat} {s : EngineSession σ κ τ (CpioParser ⊕ (TarParser ⊕ ArParser))}

/-- What an engine gives out in a session makes an archive with a file of the same bytes. -/
theorem Sessions.opens (hC : Obeys codec packed plain At)
    (hnew : IndexingEngine.withStrategy archiveParsers codec compression none strategy archiveSize = .ok start)
    (h : Sessions archiveParsers impl packed start s) {complete : Bool} {index : ArchiveIndex σ κ}
    (hgives : s.engine.indexBuilder.assemble s.engine.indexer.finish complete = some index) {file : File Byte}
    (hbytes : file.bytes = packed) :
    Opened codec packed complete { reader := file, index } ∧
      index.entries.map IndexEntry.unplaced = s.engine.indexBuilder.entries.map IndexEntry.unplaced := by
  obtain ⟨es, hon⟩ := h
  have hrun := EngineSession.run_of_driveOn es hon
  obtain ⟨_, _, _, hall⟩ := (EngineInv.run archiveParsers impl hC hnew hrun).gives
  obtain ⟨hlists, hcomplete⟩ := IndexBuilder.assemble_lists hgives
  have hgiven : s.engine.gives index := by
    cases complete with
    | true => exact .inr (.inr hgives)
    | false => exact .inr (.inl hgives)
  exact ⟨⟨hbytes, .engine archiveParsers impl compression none strategy archiveSize start es s index hnew hrun hgiven,
    (hall index hgiven).2, hcomplete⟩, hlists⟩

end

/-- Detecting the format and indexing the archive ends. -/
theorem buildIndex_ends {codecOf : CompressionFormat → Codec σ κ} (impl : CheckpointStrategy τ)
    (strategyOf : CompressionFormat → τ) (onProgress : Nat → Bool) (fileSize : Nat) {file : File Byte}
    (hbytes : file.bytes = packed) (hpos : file.pos = 0)
    (hC : ∀ format, detectFormat (packed.take headerRoom) = some format → Obeys (codecOf format) packed plain At) :
    ∃ result file', Ends (fun fuel => buildIndex answers codecOf impl strategyOf onProgress fuel file fileSize)
        (result, file') ∧ file'.bytes = packed ∧
      ((∃ e, FailedLast answers file.calls file'.calls e ∧ result = .error (.io e)) ∨
        (Answered answers file.calls file'.calls ∧ detectFormat (packed.take headerRoom) = none ∧
          result = .error (.fault (.error .unsupportedFormat))) ∨
        ∃ format start, detectFormat (packed.take headerRoom) = some format ∧
          IndexingEngine.withStrategy archiveParsers (codecOf format) format none (strategyOf format) fileSize =
            .ok start ∧
          Indexed answers archiveParsers impl packed start onProgress file.calls file'.calls result) := by
  obtain ⟨found, file₁, hheader, hbytes₁, hfound⟩ := readHeader_ends answers (headerRoom + 1) file [] hbytes rfl hpos
    (Nat.zero_le _) (Nat.lt_succ_of_le (Nat.sub_le _ _))
  rcases hfound with ⟨e, hfail, rfl⟩ | ⟨hread, rfl, hpos₁⟩
  · refine ⟨.error (.io e), file₁, hheader.map fun fuel hrun => ?_, hbytes₁, .inl ⟨e, hfail, rfl⟩⟩
    simp only [buildIndex, hrun]
  cases hdetect : detectFormat (packed.take headerRoom) with
  | none =>
    refine ⟨.error (.fault (.error .unsupportedFormat)), file₁, hheader.map fun fuel hrun => ?_, hbytes₁,
      .inr (.inl ⟨hread, rfl, rfl⟩)⟩
    simp only [buildIndex, hrun, hdetect]
  | some format =>
    have hobeys := hC format hdetect
    have hsome : packed.take headerRoom ≠ [] := by
      intro hnil
      rw [hnil] at hdetect
      cases hdetect
    obtain ⟨x, hindexer, _⟩ :=
      StreamIndexer.new_sound hobeys (strategyOf format) (if fileSize = 0 then none else some fileSize)
    obtain ⟨start, hnew⟩ : ∃ start, IndexingEngine.withStrategy archiveParsers (codecOf format) format none
        (strategyOf format) fileSize = .ok start :=
      ⟨_, by rw [IndexingEngine.withStrategy]; simp only [hindexer, Except.map]; rfl⟩
    obtain ⟨result, file₂, hrounds, hbytes₂, hindexed⟩ := driveIndexing_ends
      archiveParsers_advances impl hobeys answers hnew rfl hsome onProgress _ 0
      (Underway.first impl GoodParser hobeys hnew hbytes₁ hpos₁) (Nat.lt_succ_self _)
    refine ⟨result, file₂, hheader.both hrounds.ends fun fuel hrun hdrive => ?_, hbytes₂,
      .inr (.inr ⟨format, start, rfl, hnew, hindexed.after hread⟩)⟩
    simp only [buildIndex, hrun, hdetect, hnew]
    exact hdrive

/-- What opening an archive leaves where the file fails no call, by the session of its engine. -/
def Arrived (codecOf : CompressionFormat → Codec σ κ) (impl : CheckpointStrategy τ) (strategyOf : CompressionFormat → τ)
    (packed : List Byte) (onProgress : Nat → Bool) (result : Except (ReadError ι) (Archive σ κ)) : Prop :=
  (detectFormat (packed.take headerRoom) = none ∧ result = .error (.fault (.error .unsupportedFormat))) ∨
    ∃ format start s, detectFormat (packed.take headerRoom) = some format ∧
      IndexingEngine.withStrategy archiveParsers (codecOf format) format none (strategyOf format) packed.length =
        .ok start ∧
      Sessions archiveParsers impl packed start s ∧
      ((∃ f, s.reported = some (.error f) ∧ result = .error (.fault f)) ∨
        ∃ archive : Archive σ κ, archive.reader.bytes = packed ∧ result = .ok archive ∧
          ((s.reported = some .done ∧ s.engine.finish = some archive.index) ∨
            (∃ k, onProgress k = false) ∧ s.engine.cancel = some archive.index))

theorem Arrived.built {codecOf : CompressionFormat → Codec σ κ} {impl : CheckpointStrategy τ}
    {strategyOf : CompressionFormat → τ} {onProgress : Nat → Bool} {result : Except (ReadError ι) (Archive σ κ)}
    (hC : ∀ format, detectFormat (packed.take headerRoom) = some format → Obeys (codecOf format) packed plain At)
    (h : Arrived codecOf impl strategyOf packed onProgress result) : Built codecOf packed plain onProgress result := by
  rcases h with ⟨hnone, rfl⟩ | ⟨format, start, s, hdetect, hnew, hsession, hverdict⟩
  · exact .unsupported hnone
  have hobeys := hC format hdetect
  have hreads : s.ended = true → ¬ MeetsIdle archiveParsers plain (readerOf none plain) 0 →
      ∃ outcome : ReadOutcome, s.reported = some outcome.request ∧
        Reading archiveParsers plain (readerOf none plain) 0 [] outcome s.engine.indexBuilder.entries := by
    intro hended hnever
    obtain ⟨es, hrun⟩ := hsession
    exact session_reads impl hobeys hnever hnew hrun hended
  rcases hverdict with ⟨f, hreported, rfl⟩ | ⟨archive, hbytes, rfl, ⟨hreported, hfinish⟩ | ⟨⟨k, hsaid⟩, hcancel⟩⟩
  · refine .refused hdetect fun hnever => ?_
    obtain ⟨outcome, hsays, hreading⟩ := hreads (by rw [EngineSession.ended, hreported]) hnever
    rw [hreported] at hsays
    cases outcome with
    | done => cases hsays
    | failed fault =>
      obtain rfl := EngineRequest.error.inj (Option.some.inj hsays)
      exact ⟨_, hreading⟩
  · obtain ⟨hopened, hlists⟩ := hsession.opens hobeys hnew hfinish hbytes
    refine .whole hdetect hopened fun hnever => ?_
    obtain ⟨outcome, hsays, hreading⟩ := hreads (by rw [EngineSession.ended, hreported]) hnever
    rw [hreported] at hsays
    cases outcome with
    | done => exact ⟨_, hreading, hlists⟩
    | failed fault => cases hsays
  · exact .stopped hdetect (hsession.opens hobeys hnew hcancel hbytes).1 hsaid

namespace Archive

/-- Opening an archive ends. -/
theorem build_ends {codecOf : CompressionFormat → Codec σ κ} (impl : CheckpointStrategy τ)
    (strategyOf : CompressionFormat → τ) (onProgress : Nat → Bool) (file : File Byte)
    (hC : ∀ format, detectFormat (file.bytes.take headerRoom) = some format →
      Obeys (codecOf format) file.bytes plain At) :
    ∃ result file', Ends (fun fuel => build answers codecOf impl strategyOf onProgress fuel file) (result, file') ∧
      ((∃ e, FailedLast answers file.calls file'.calls e ∧ result = .error (.io e)) ∨
        Answered answers file.calls file'.calls ∧ Arrived codecOf impl strategyOf file.bytes onProgress result) := by
  rcases @File.seekEnd_cases Byte ι answers file with ⟨e, hend, hfail⟩ | ⟨hend, hfine⟩
  · exact ⟨.error (.io e), { file with calls := file.calls + 1 }, .always fun fuel => by rw [build, hend],
      .inl ⟨e, hfail, rfl⟩⟩
  rcases @File.seek_cases Byte ι answers { file with pos := file.bytes.length, calls := file.calls + 1 } 0 with
    ⟨e, hseek, hfail⟩ | ⟨hseek, hfine₁⟩
  · exact ⟨.error (.io e), { file with pos := file.bytes.length, calls := file.calls + 1 + 1 },
      .always fun fuel => by rw [build, hend]; simp only [hseek], .inl ⟨e, hfine.failedLast hfail, rfl⟩⟩
  have hfine₂ := hfine.trans hfine₁
  obtain ⟨result, file₂, hbuilds, hbytes₂, hresult⟩ := @buildIndex_ends _ _ _ _ file.bytes plain At answers codecOf impl
    strategyOf onProgress file.bytes.length { file with pos := 0, calls := file.calls + 1 + 1 } rfl rfl hC
  -- the file is sent back to its start, unless that fails
  have hkeeps : ∀ {index : ArchiveIndex σ κ}, result = .ok index → Answered answers file.calls file₂.calls →
      (∀ file' : File Byte, file'.bytes = file.bytes →
        Arrived codecOf impl strategyOf file.bytes onProgress
          (.ok { reader := file', index } : Except (ReadError ι) (Archive σ κ))) →
      ∃ result file', Ends (fun fuel => build answers codecOf impl strategyOf onProgress fuel file) (result, file') ∧
        ((∃ e, FailedLast answers file.calls file'.calls e ∧ result = .error (.io e)) ∨
          Answered answers file.calls file'.calls ∧
            Arrived codecOf impl strategyOf file.bytes onProgress result) := by
    intro index hok hfine₃ harrived
    rw [hok] at hbuilds
    rcases @File.seek_cases Byte ι answers file₂ 0 with ⟨e, hback, hfail⟩ | ⟨hback, hfine₄⟩
    · refine ⟨.error (.io e), { file₂ with calls := file₂.calls + 1 }, hbuilds.map fun fuel hrun => ?_,
        .inl ⟨e, hfine₃.failedLast hfail, rfl⟩⟩
      rw [build, hend]
      simp only [hseek, hrun, hback]
    · refine ⟨.ok { reader := { file₂ with pos := 0, calls := file₂.calls + 1 }, index },
        { file₂ with pos := 0, calls := file₂.calls + 1 }, hbuilds.map fun fuel hrun => ?_,
        .inr ⟨hfine₃.trans hfine₄, harrived _ hbytes₂⟩⟩
      rw [build, hend]
      simp only [hseek, hrun, hback]
  have hrefused : ∀ {e : ReadError ι}, result = .error e →
      Ends (fun fuel => build answers codecOf impl strategyOf onProgress fuel file) (.error e, file₂) := by
    intro e herror
    rw [herror] at hbuilds
    refine hbuilds.map fun fuel hrun => ?_
    rw [build, hend]
    simp only [hseek, hrun]
  rcases hresult with ⟨e, hfail, herror⟩ | ⟨hfine₃, hnone, herror⟩ | ⟨format, start, hdetect, hnew, hindexed⟩
  · exact ⟨_, file₂, hrefused herror, .inl ⟨e, hfine₂.failedLast hfail, rfl⟩⟩
  · exact ⟨_, file₂, hrefused herror, .inr ⟨hfine₂.trans hfine₃, .inl ⟨hnone, rfl⟩⟩⟩
  rcases hindexed with ⟨e, hfail, herror⟩ | ⟨hfine₃, s, hsession, hverdict⟩
  · exact ⟨_, file₂, hrefused herror, .inl ⟨e, hfine₂.failedLast hfail, rfl⟩⟩
  rcases hverdict with ⟨f, hreported, herror⟩ | ⟨index, hreported, hfinish, hok⟩ | ⟨index, hsaid, hcancel, hok⟩
  · exact ⟨_, file₂, hrefused herror, .inr ⟨hfine₂.trans hfine₃,
      .inr ⟨format, start, s, hdetect, hnew, hsession, .inl ⟨f, hreported, rfl⟩⟩⟩⟩
  · refine hkeeps hok (hfine₂.trans hfine₃) fun file' hsame => ?_
    exact .inr ⟨format, start, s, hdetect, hnew, hsession, .inr ⟨_, hsame, rfl, .inl ⟨hreported, hfinish⟩⟩⟩
  · refine hkeeps hok (hfine₂.trans hfine₃) fun file' hsame => ?_
    exact .inr ⟨format, start, s, hdetect, hnew, hsession, .inr ⟨_, hsame, rfl, .inr ⟨hsaid, hcancel⟩⟩⟩

/-- Opening an archive always comes to an end.  If a call on the file fails, it is the last one
and its failure is the result; else it is the index of what the plain text holds, or the fault
the parser finds in it, whatever short reads the file makes, or what there is of an index when
`on_progress` says to stop. -/
theorem build_indexes {codecOf : CompressionFormat → Codec σ κ} (impl : CheckpointStrategy τ)
    (strategyOf : CompressionFormat → τ) (onProgress : Nat → Bool) (file : File Byte)
    (hC : ∀ format, detectFormat (file.bytes.take headerRoom) = some format →
      Obeys (codecOf format) file.bytes plain At) :
    ∃ result file', Ends (fun fuel => build answers codecOf impl strategyOf onProgress fuel file) (result, file') ∧
      ((∃ e, FailedLast answers file.calls file'.calls e ∧ result = .error (.io e)) ∨
        Answered answers file.calls file'.calls ∧ Built codecOf file.bytes plain onProgress result) := by
  obtain ⟨result, file', hends, hresult⟩ :=
    @build_ends _ _ _ _ plain At answers codecOf impl strategyOf onProgress file hC
  refine ⟨result, file', hends, ?_⟩
  rcases hresult with hfailed | ⟨hfine, harrived⟩
  · exact .inl hfailed
  · exact .inr ⟨hfine, harrived.built hC⟩

/-- An archive of one file, behind a handle that is slow and fails once. -/
theorem build_indexes_stored : ∃ result file',
    Ends (fun fuel => build flaky (fun _ => NoneDecompressor.codec) .fixedInterval defaultIntervalForFormat
      (fun _ => true) fuel { bytes := oneMemberArchive, pos := 0, calls := 3 }) (result, file') ∧
    ((∃ e, FailedLast flaky 3 file'.calls e ∧ result = .error (.io e)) ∨
      Answered flaky 3 file'.calls ∧
        Built (fun _ => NoneDecompressor.codec) oneMemberArchive oneMemberArchive (fun _ => true) result) :=
  build_indexes .fixedInterval defaultIntervalForFormat (fun _ => true)
    { bytes := oneMemberArchive, pos := 0, calls := 3 } fun _ _ => NoneDecompressor.obeys oneMemberArchive

end Archive
end Iluvatar
