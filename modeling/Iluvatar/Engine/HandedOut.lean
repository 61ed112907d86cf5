/-
Reading through any index that was handed out equals slicing the plain text.

`HandedOut` collects every way an index leaves the indexers: a snapshot or the end of a
pass over the stream, at any moment and after any number of earlier passes, and the
index an archive engine gives up at any moment.  One predicate holds of all of them and
is all a reader assumes.
-/
import Iluvatar.Engine.IndexingEngine
import Iluvatar.Stream.IndexerRuns
import Iluvatar.Stream.ReaderRuns

namespace Iluvatar

open Sansio

variable {σ κ τ ρ : Type}

inductive EngineEvent where
  | step (fuel rounds : Nat)
  | provide (n : Nat)
  deriving DecidableEq, Repr

/-- The caller of an `IndexingEngine`. -/
structure EngineSession (σ κ τ ρ : Type) where
  engine : IndexingEngine σ κ τ ρ
  next : Nat
  wanted : Bool
  reported : Option EngineRequest

namespace EngineSession

def start (engine : IndexingEngine σ κ τ ρ) : EngineSession σ κ τ ρ :=
  { engine, next := 0, wanted := false, reported := none }

/-- One event of the caller.  An engine may report an error of its parser, and the
caller may go on or give up as it likes. -/
def drive (parser : ArchiveParser ρ) (impl : CheckpointStrategy τ) (packed : List Byte)
    (s : EngineSession σ κ τ ρ) : EngineEvent → Option (EngineSession σ κ τ ρ)
  | .step fuel rounds =>
    match s.engine.step parser impl fuel rounds with
    | none => none
    | some (request, engine) => some { s with
        engine
        next := StreamIndexer.nextAfter s.next (some request)
        wanted := request.wantsInput
        reported := some request }
  | .provide n =>
    if s.wanted then
      match (packed.drop s.next).take (n + 1) with
      | [] => some { s with engine := s.engine.signalEof, wanted := false }
      | b :: bs => some { s with
          engine := s.engine.provideData (b :: bs)
          next := s.next + (b :: bs).length
          wanted := false }
    else none

end EngineSession

/-- The indexes an engine gives out when asked at this moment. -/
def IndexingEngine.gives (e : IndexingEngine σ κ τ ρ) (index : ArchiveIndex σ κ) : Prop :=
  e.snapshotIndex = some index ∨ e.cancel = some index ∨ e.finish = some index

/-- What the caller of a pass may also do, at any moment: say whether decoded bytes are handed out. -/
inductive PassEvent (τ : Type) where
  | event (e : IndexEvent τ)
  | emitOutput (emit : Bool)

namespace IndexSession

/-- A session that has just begun a pass, with `emit_output` as it is. -/
def fresh (indexer : StreamIndexer σ κ τ) : IndexSession σ κ τ :=
  { indexer, emitted := [], next := 0, wanted := false, reported := none }

def drivePass (impl : CheckpointStrategy τ) (packed : List Byte) (s : IndexSession σ κ τ) :
    PassEvent τ → Option (IndexSession σ κ τ)
  | .event e => s.drive impl packed e
  | .emitOutput emit => some { s with indexer := s.indexer.setEmitOutput emit }

end IndexSession

/-- An index some indexer of the stream `packed` has handed out. -/
inductive HandedOut (codec : Codec σ κ) (packed : List Byte) : StreamIndex σ κ → Prop where
  /-- At any moment of a first pass. -/
  | first {τ : Type} (impl : CheckpointStrategy τ) (strategy : τ) (compressedLen : Option Nat)
      (x : StreamIndexer σ κ τ) (es : List (PassEvent τ)) (s : IndexSession σ κ τ) :
      StreamIndexer.new codec strategy compressedLen = .ok x →
      es.foldlM (IndexSession.drivePass impl packed) (IndexSession.fresh x) = some s →
      HandedOut codec packed s.indexer.snapshot
  /-- At any moment of a pass that resumes an index handed out before. -/
  | resumed {τ : Type} (impl : CheckpointStrategy τ) (strategy : τ) (index : StreamIndex σ κ)
      (x : StreamIndexer σ κ τ) (es : List (PassEvent τ)) (s : IndexSession σ κ τ) :
      HandedOut codec packed index →
      StreamIndexer.resume index strategy = .ok x →
      es.foldlM (IndexSession.drivePass impl packed) (IndexSession.fresh x) = some s →
      HandedOut codec packed s.indexer.snapshot
  /-- At any moment of an archive engine. -/
  | engine {τ ρ : Type} (parser : ArchiveParser ρ) (impl : CheckpointStrategy τ)
      (compression : CompressionFormat) (format : Option ArchiveFormat) (strategy : τ)
      (archiveSize : Nat) (e : IndexingEngine σ κ τ ρ) (es : List EngineEvent)
      (s : EngineSession σ κ τ ρ) (index : ArchiveIndex σ κ) :
      IndexingEngine.withStrategy parser codec compression format strategy archiveSize = .ok e →
      es.foldlM (EngineSession.drive parser impl packed) (EngineSession.start e) = some s →
      s.engine.gives index → HandedOut codec packed index.stream

/-- What holds of every index handed out. -/
structure Readable (codec : Codec σ κ) (plain : List Byte) (At : σ → Nat → Nat → Prop)
    (index : StreamIndex σ κ) : Prop where
  table : index.Table codec At
  behind : ∀ cp ∈ index.checkpoints, cp.uncompressedOffset ≤ index.indexedTo
  indexed : index.indexedTo ≤ plain.length
  unpackedLen : ∀ n, index.unpackedLen = some n → n = plain.length

variable {codec : Codec σ κ} {packed plain : List Byte} {At : σ → Nat → Nat → Prop}

theorem StreamIndexer.Sound.readable {next : Nat} {x : StreamIndexer σ κ τ}
    (h : StreamIndexer.Sound codec packed plain At next x) : Readable codec plain At x.index where
  table := h.laid.table
  behind := by
    intro cp hmem
    obtain ⟨last, hlast, _, hmost⟩ := h.laid.table.last
    obtain ⟨last', hlast', hpos⟩ := h.laid.last
    obtain rfl : last' = last := Option.some.inj (hlast'.symm.trans hlast)
    have := hmost cp hmem
    have := h.laid.reached
    have := h.behind
    omega
  indexed := h.indexed
  unpackedLen := h.unpackedLen

/-- A readable index that is not complete is resumed soundly. -/
theorem Readable.resume (hC : Obeys codec packed plain At) {index : StreamIndex σ κ}
    (h : Readable codec plain At index) {strategy : τ} {x : StreamIndexer σ κ τ}
    (hresume : StreamIndexer.resume index strategy = .ok x) :
    StreamIndexer.Sound codec packed plain At 0 (x.setEmitOutput true) := by
  obtain rfl := h.table.sameCodec
  cases hongoing : index.complete with
  | true =>
    rw [StreamIndexer.resume, hongoing] at hresume
    exact absurd hresume (by simp)
  | false =>
    obtain ⟨d, hcreate⟩ := hC.creates
    obtain ⟨cp, hlast, hmem, _⟩ := h.table.last
    obtain ⟨d', hrestore, hstands⟩ := h.table.exact cp hmem d hcreate
    rw [StreamIndexer.resume, hongoing, hcreate, hlast] at hresume
    simp only [Bool.false_eq_true, if_false, hrestore] at hresume
    obtain rfl := Except.ok.inj hresume
    exact StreamIndexer.withParts_sound strategy h.table hlast hstands (h.behind cp hmem)
      h.indexed h.unpackedLen hongoing

namespace IndexingEngine

theorem feedToParser_indexer (parser : ArchiveParser ρ) :
    ∀ (fuel : Nat) (data : List Byte) (e : IndexingEngine σ κ τ ρ) (f : Failed)
      (e' : IndexingEngine σ κ τ ρ), feedToParser parser fuel data e = some (f, e') →
      e'.indexer = e.indexer := by
  intro fuel
  induction fuel with
  | zero => intro data e f e' h; simp [feedToParser] at h
  | succ fuel ih =>
    intro data e f e' h
    unfold feedToParser at h
    split at h
    · obtain ⟨_, rfl⟩ := Prod.mk.inj (Option.some.inj h)
      rfl
    · split at h
      · obtain ⟨_, rfl⟩ := Prod.mk.inj (Option.some.inj h)
        rfl
      · split at h
        · obtain ⟨_, rfl⟩ := Prod.mk.inj (Option.some.inj h)
          rfl
        · simp only at h
          split at h
          · have hsame := ih _ _ _ _ h
            exact hsame
          · split at h
            · obtain ⟨_, rfl⟩ := Prod.mk.inj (Option.some.inj h)
              rfl
            · have hsame := ih _ _ _ _ h
              exact hsame
          · obtain ⟨_, rfl⟩ := Prod.mk.inj (Option.some.inj h)
            rfl

theorem replay_indexer (parser : ArchiveParser ρ) {fuel : Nat} {format : ArchiveFormat}
    {e e' : IndexingEngine σ κ τ ρ} {f : Failed}
    (h : replay parser fuel format e = some (f, e')) : e'.indexer = e.indexer := by
  rw [replay] at h
  have hsame := feedToParser_indexer parser _ _ _ _ _ h
  exact hsame

/-- Draining takes the indexer's output and does nothing else to it. -/
theorem drainOutput_indexer (parser : ArchiveParser ρ) {P : StreamIndexer σ κ τ → Prop}
    (hread : ∀ x n, P x → P (x.readOutput n).2) :
    ∀ (fuel : Nat) (e : IndexingEngine σ κ τ ρ) (f : Failed) (e' : IndexingEngine σ κ τ ρ),
      P e.indexer → drainOutput parser fuel e = some (f, e') → P e'.indexer := by
  intro fuel
  induction fuel with
  | zero => intro e f e' _ h; simp [drainOutput] at h
  | succ fuel ih =>
    intro e f e' hP h
    have hP' := hread e.indexer bufSize hP
    unfold drainOutput at h
    simp only at h
    split at h
    · obtain ⟨_, rfl⟩ := Prod.mk.inj (Option.some.inj h)
      exact hP'
    · split at h
      · split at h
        · split at h
          · exact absurd h (by simp)
          · rename_i hreplay
            obtain ⟨_, rfl⟩ := Prod.mk.inj (Option.some.inj h)
            rw [replay_indexer parser hreplay]
            exact hP'
          · rename_i hreplay
            have hsame := replay_indexer parser hreplay
            split at h
            · obtain ⟨_, rfl⟩ := Prod.mk.inj (Option.some.inj h)
              rw [hsame]
              exact hP'
            · refine ih _ _ _ ?_ h
              rw [hsame]
              exact hP'
        · exact ih _ _ _ hP' h
      · split at h
        · exact ih _ _ _ hP' h
        · split at h
          · exact absurd h (by simp)
          · rename_i hfeed
            obtain ⟨_, rfl⟩ := Prod.mk.inj (Option.some.inj h)
            rw [feedToParser_indexer parser _ _ _ _ _ hfeed]
            exact hP'
          · rename_i hfeed
            refine ih _ _ _ ?_ h
            rw [feedToParser_indexer parser _ _ _ _ _ hfeed]
            exact hP'

theorem closeParser_engine (parser : ArchiveParser ρ) (e : IndexingEngine σ κ τ ρ) :
    (closeParser parser e).2 = e := by
  unfold closeParser
  split
  · rfl
  · split <;> rfl

theorem endOfStream_indexer (parser : ArchiveParser ρ) {fuel : Nat}
    {e e' : IndexingEngine σ κ τ ρ} {f : Failed}
    (h : endOfStream parser fuel e = some (f, e')) : e'.indexer = e.indexer := by
  unfold endOfStream at h
  split at h
  · split at h
    · obtain ⟨_, rfl⟩ := Prod.mk.inj (Option.some.inj h)
      rfl
    · split at h
      · exact absurd h (by simp)
      · rename_i hreplay
        obtain ⟨_, rfl⟩ := Prod.mk.inj (Option.some.inj h)
        exact replay_indexer parser hreplay
      · rename_i e₁ hreplay
        have hsame := replay_indexer parser hreplay
        split at h
        · obtain ⟨_, rfl⟩ := Prod.mk.inj (Option.some.inj h)
          exact hsame
        · have hsnd := congrArg Prod.snd (Option.some.inj h)
          rw [closeParser_engine] at hsnd
          rw [← hsame, hsnd]
  · have hsnd := congrArg Prod.snd (Option.some.inj h)
    rw [closeParser_engine] at hsnd
    rw [hsnd]

/-- What the engine's caller can rely on after a request. -/
def Waiting (packed : List Byte) (next : Nat) (x : StreamIndexer σ κ τ) : Prop :=
  StreamIndexer.Fed packed next x ∧ x.inputLeft = [] ∧ x.index.complete = false

theorem stepOnce_sound (parser : ArchiveParser ρ) (impl : CheckpointStrategy τ)
    (hC : Obeys codec packed plain At) {fuel next : Nat} {e e' : IndexingEngine σ κ τ ρ}
    {request : Option EngineRequest}
    (h : StreamIndexer.Sound codec packed plain At next e.indexer)
    (hstep : stepOnce parser impl fuel e = some (request, e')) :
    StreamIndexer.Sound codec packed plain At (StreamIndexer.nextAfter next request) e'.indexer ∧
      ∀ r, request = some r → r.wantsInput = true →
        Waiting packed (StreamIndexer.nextAfter next request) e'.indexer := by
  unfold stepOnce at hstep
  split at hstep
  · obtain ⟨rfl, rfl⟩ := Prod.mk.inj (Option.some.inj hstep)
    refine ⟨h, ?_⟩
    rintro r hr hwants
    obtain rfl := Option.some.inj hr
    exact Bool.noConfusion hwants
  · match hinner : e.indexer.step impl fuel with
    | .none =>
      rw [hinner] at hstep
      exact absurd hstep (by simp)
    | some (inner, x') =>
      rw [hinner] at hstep
      simp only at hstep
      have hout := StreamIndexer.step_outcome impl hC h hinner
      have hsound := hout.sound
      cases inner with
      | outputReady =>
        have hsound : StreamIndexer.Sound codec packed plain At next x' := hsound
        simp only at hstep
        split at hstep
        · exact absurd hstep (by simp)
        · rename_i hdrain
          obtain ⟨rfl, rfl⟩ := Prod.mk.inj (Option.some.inj hstep)
          refine ⟨drainOutput_indexer parser (P := StreamIndexer.Sound codec packed plain At next)
            (fun x n hx => hx.readOutput n) _ _ _ _ hsound hdrain, ?_⟩
          rintro r hr hwants
          obtain rfl := Option.some.inj hr
          exact Bool.noConfusion hwants
        · rename_i hdrain
          obtain ⟨rfl, rfl⟩ := Prod.mk.inj (Option.some.inj hstep)
          exact ⟨drainOutput_indexer parser (P := StreamIndexer.Sound codec packed plain At next)
            (fun x n hx => hx.readOutput n) _ _ _ _ hsound hdrain, by simp⟩
      | done =>
        simp only at hstep
        split at hstep
        · exact absurd hstep (by simp)
        · rename_i hend
          obtain ⟨rfl, rfl⟩ := Prod.mk.inj (Option.some.inj hstep)
          rw [endOfStream_indexer parser hend]
          refine ⟨hsound, ?_⟩
          rintro r hr hwants
          obtain rfl := Option.some.inj hr
          exact Bool.noConfusion hwants
        · rename_i hend
          obtain ⟨rfl, rfl⟩ := Prod.mk.inj (Option.some.inj hstep)
          refine ⟨?_, ?_⟩
          · show StreamIndexer.Sound codec packed plain At next _
            rw [endOfStream_indexer parser hend]
            exact hsound
          · rintro r hr hwants
            obtain rfl := Option.some.inj hr
            exact Bool.noConfusion hwants
      | error f => exact absurd rfl (hout.fine f)
      | needInput =>
        obtain ⟨rfl, rfl⟩ := Prod.mk.inj (Option.some.inj hstep)
        exact ⟨hsound, fun r _ _ => hout.waits rfl⟩
      | seekAndRead a b =>
        obtain ⟨rfl, rfl⟩ := Prod.mk.inj (Option.some.inj hstep)
        exact ⟨hsound, fun r _ _ => hout.waits rfl⟩

theorem step_sound (parser : ArchiveParser ρ) (impl : CheckpointStrategy τ)
    (hC : Obeys codec packed plain At) (fuel next : Nat) :
    ∀ (rounds : Nat) (e e' : IndexingEngine σ κ τ ρ) (request : EngineRequest),
      StreamIndexer.Sound codec packed plain At next e.indexer →
      step parser impl fuel rounds e = some (request, e') →
      StreamIndexer.Sound codec packed plain At (StreamIndexer.nextAfter next (some request))
          e'.indexer ∧
        (request.wantsInput = true →
          Waiting packed (StreamIndexer.nextAfter next (some request)) e'.indexer) := by
  intro rounds
  induction rounds with
  | zero => intro e e' request _ h; simp [step] at h
  | succ rounds ih =>
    intro e e' request h hstep
    rw [step] at hstep
    match hround : stepOnce parser impl fuel e with
    | .none =>
      rw [hround] at hstep
      exact absurd hstep (by simp)
    | some (some r, e₁) =>
      rw [hround] at hstep
      obtain ⟨rfl, rfl⟩ := Prod.mk.inj (Option.some.inj hstep)
      obtain ⟨hsound, hwaits⟩ := stepOnce_sound parser impl hC h hround
      exact ⟨hsound, hwaits _ rfl⟩
    | some (.none, e₁) =>
      rw [hround] at hstep
      exact ih e₁ e' request (stepOnce_sound parser impl hC h hround).1 hstep

end IndexingEngine

/-- What holds of an engine's session, whatever its parser makes of the stream. -/
structure EngineInv (codec : Codec σ κ) (packed plain : List Byte) (At : σ → Nat → Nat → Prop)
    (s : EngineSession σ κ τ ρ) : Prop where
  sound : StreamIndexer.Sound codec packed plain At s.next s.engine.indexer
  wanted : s.wanted = true → IndexingEngine.Waiting packed s.next s.engine.indexer

theorem EngineInv.drive (parser : ArchiveParser ρ) (impl : CheckpointStrategy τ)
    (hC : Obeys codec packed plain At) {s s' : EngineSession σ κ τ ρ} {e : EngineEvent}
    (h : EngineInv codec packed plain At s) (hdrive : s.drive parser impl packed e = some s') :
    EngineInv codec packed plain At s' := by
  cases e with
  | step fuel rounds =>
    rw [EngineSession.drive] at hdrive
    match hstep : s.engine.step parser impl fuel rounds with
    | none =>
      rw [hstep] at hdrive
      exact absurd hdrive (by simp)
    | some (request, e') =>
      rw [hstep] at hdrive
      obtain rfl := Option.some.inj hdrive
      obtain ⟨hsound, hwaits⟩ :=
        IndexingEngine.step_sound parser impl hC fuel s.next rounds _ _ _ h.sound hstep
      exact ⟨hsound, hwaits⟩
  | provide n =>
    rw [EngineSession.drive] at hdrive
    by_cases hwanted : s.wanted = true
    · rw [if_pos hwanted] at hdrive
      obtain ⟨hfed, hnil, hongoing⟩ := h.wanted hwanted
      match htake : (packed.drop s.next).take (n + 1) with
      | [] =>
        rw [htake] at hdrive
        obtain rfl := Option.some.inj hdrive
        have hend : packed.length ≤ s.next := by
          have hlen := congrArg List.length htake
          rw [List.length_take, List.length_drop, List.length_nil] at hlen
          omega
        exact ⟨h.sound.signalEof hfed hongoing hend, by simp⟩
      | b :: bs =>
        rw [htake] at hdrive
        obtain rfl := Option.some.inj hdrive
        have hdata : (b :: bs) <+: packed.drop s.next := by
          rw [← htake]
          exact List.take_prefix _ _
        exact ⟨h.sound.provideData hfed hnil hongoing hdata (by simp), by simp⟩
    · rw [if_neg hwanted] at hdrive
      exact absurd hdrive (by simp)

namespace IndexBuilder

/-- What `assemble` makes of one entry. -/
theorem assemble_entries {stream : StreamIndex σ κ} (hsorted : stream.Sorted) :
    ∀ entries : List IndexEntry, ∃ entries' : List IndexEntry,
      (entries.mapM fun entry =>
        (stream.bestCheckpointForOffset entry.uncompressedOffset).map fun best =>
          { entry with checkpointIndex := best.1 }) = some entries' ∧
      ∀ entry ∈ entries', ∃ cp, StreamIndex.IsBest stream.checkpoints entry.uncompressedOffset
        entry.checkpointIndex cp := by
  intro entries
  induction entries with
  | nil => exact ⟨[], rfl, by simp⟩
  | cons entry entries ih =>
    obtain ⟨entries', hmap, hbest⟩ := ih
    obtain ⟨i, cp, hfound, hcp⟩ := stream.bestCheckpointForOffset_isBest hsorted entry.uncompressedOffset
    refine ⟨{ entry with checkpointIndex := i } :: entries', ?_, ?_⟩
    · rw [List.mapM_cons, hfound, hmap]
      rfl
    · intro entry' hmem
      rcases List.mem_cons.mp hmem with rfl | hmem
      · exact ⟨cp, hcp⟩
      · exact hbest entry' hmem

/-- An index can be assembled from any sorted table; it carries the table, and every
entry the best checkpoint for its data. -/
theorem assemble_spec (b : IndexBuilder) {stream : StreamIndex σ κ} (hsorted : stream.Sorted)
    (complete : Bool) :
    ∃ index, b.assemble stream complete = some index ∧ index.stream = stream ∧
      ∀ entry ∈ index.entries, ∃ cp, index.checkpointFor entry = some cp ∧
        StreamIndex.IsBest stream.checkpoints entry.uncompressedOffset entry.checkpointIndex cp := by
  obtain ⟨entries, hmap, hbest⟩ := assemble_entries hsorted b.entries
  refine ⟨_, by rw [assemble, hmap]; rfl, rfl, ?_⟩
  intro entry hmem
  obtain ⟨cp, hcp⟩ := hbest entry hmem
  exact ⟨cp, hcp.get, hcp⟩

end IndexBuilder

/-- A session of an engine keeps its indexer sound from the beginning on. -/
theorem EngineInv.run (parser : ArchiveParser ρ) (impl : CheckpointStrategy τ)
    (hC : Obeys codec packed plain At) {compression : CompressionFormat}
    {format : Option ArchiveFormat} {strategy : τ} {archiveSize : Nat} {e : IndexingEngine σ κ τ ρ}
    {es : List EngineEvent} {s : EngineSession σ κ τ ρ}
    (hnew : IndexingEngine.withStrategy parser codec compression format strategy archiveSize = .ok e)
    (hrun : es.foldlM (EngineSession.drive parser impl packed) (EngineSession.start e) = some s) :
    EngineInv codec packed plain At s := by
  obtain ⟨x, hindexer, hsound, _, _⟩ :=
    StreamIndexer.new_sound hC strategy (if archiveSize = 0 then none else some archiveSize)
  rw [IndexingEngine.withStrategy] at hnew
  simp only [hindexer, Except.map] at hnew
  obtain rfl := Except.ok.inj hnew
  have hstart : EngineInv codec packed plain At (EngineSession.start (ρ := ρ)
      { indexer := x.setEmitOutput true
        archiveParser := format.map parser.create
        indexBuilder := IndexBuilder.new compression (format.getD .tar) archiveSize
        detectBuf := []
        done := false }) :=
    ⟨hsound, by simp [EngineSession.start]⟩
  exact foldlM_invariant (fun _ _ _ hI hd => hI.drive parser impl hC hd) es _ s hstart hrun

/-- Asked at any moment, a sound engine gives out an index over its indexer's table. -/
theorem EngineInv.gives {s : EngineSession σ κ τ ρ} (h : EngineInv codec packed plain At s) :
    (∃ index, s.engine.snapshotIndex = some index) ∧ (∃ index, s.engine.cancel = some index) ∧
      (∃ index, s.engine.finish = some index) ∧
      ∀ index, s.engine.gives index → index.stream = s.engine.indexer.index ∧
        ∀ entry ∈ index.entries, ∃ cp, index.checkpointFor entry = some cp ∧
          StreamIndex.IsBest index.stream.checkpoints entry.uncompressedOffset
            entry.checkpointIndex cp := by
  have hsorted := h.sound.laid.table.sorted
  obtain ⟨snap, hsnap, hsnapStream, hsnapBest⟩ := s.engine.indexBuilder.assemble_spec hsorted false
  obtain ⟨full, hfull, hfullStream, hfullBest⟩ := s.engine.indexBuilder.assemble_spec hsorted true
  have hcancel : s.engine.cancel = some snap := hsnap
  have hfinish : s.engine.finish = some full := hfull
  refine ⟨⟨snap, hsnap⟩, ⟨snap, hcancel⟩, ⟨full, hfinish⟩, ?_⟩
  rintro index (hgives | hgives | hgives)
  · obtain rfl := Option.some.inj (hsnap.symm.trans hgives)
    exact ⟨hsnapStream, by rw [hsnapStream]; exact hsnapBest⟩
  · obtain rfl := Option.some.inj (hcancel.symm.trans hgives)
    exact ⟨hsnapStream, by rw [hsnapStream]; exact hsnapBest⟩
  · obtain rfl := Option.some.inj (hfinish.symm.trans hgives)
    exact ⟨hfullStream, by rw [hfullStream]; exact hfullBest⟩

/-- Saying whether decoded bytes are handed out keeps what holds of a session. -/
theorem IndexInv.setEmitOutput {s : IndexSession σ κ τ} (h : IndexInv codec packed plain At s) (emit : Bool) :
    IndexInv codec packed plain At { s with indexer := s.indexer.setEmitOutput emit } where
  sound := h.sound.withEmit emit
  wanted := by
    intro hwanted
    obtain ⟨hfed, hnil, hongoing⟩ := h.wanted hwanted
    exact ⟨⟨hfed.place, hfed.input, hfed.inputPos, hfed.eof⟩, hnil, hongoing⟩
  fine := h.fine

/-- A pass keeps its session sound, whatever is done with the decoded bytes. -/
theorem IndexInv.pass (impl : CheckpointStrategy τ) (hC : Obeys codec packed plain At)
    {x : StreamIndexer σ κ τ} {es : List (PassEvent τ)} {s : IndexSession σ κ τ}
    (hsound : StreamIndexer.Sound codec packed plain At 0 (x.setEmitOutput true))
    (hrun : es.foldlM (IndexSession.drivePass impl packed) (IndexSession.fresh x) = some s) :
    IndexInv codec packed plain At s := by
  have hstart : IndexInv codec packed plain At (IndexSession.fresh x) :=
    ⟨hsound.withEmit x.emitOutput, by simp [IndexSession.fresh], by simp [IndexSession.fresh]⟩
  refine foldlM_invariant ?_ es _ s hstart hrun
  intro s e s' h hdrive
  cases e with
  | event e => exact h.drive impl hC hdrive
  | emitOutput emit =>
    obtain rfl := Option.some.inj hdrive
    exact h.setEmitOutput emit

/-- Every index handed out is readable. -/
theorem HandedOut.readable (hC : Obeys codec packed plain At) {index : StreamIndex σ κ}
    (h : HandedOut codec packed index) : Readable codec plain At index := by
  induction h with
  | first impl strategy compressedLen x es s hnew hrun =>
    obtain ⟨x', hnew', hsound, _, _⟩ := StreamIndexer.new_sound hC strategy compressedLen
    obtain rfl := Except.ok.inj (hnew'.symm.trans hnew)
    exact (IndexInv.pass impl hC hsound hrun).sound.readable
  | resumed impl strategy index x es s _ hresume hrun ih =>
    exact (IndexInv.pass impl hC (ih.resume hC hresume) hrun).sound.readable
  | engine parser impl compression format strategy archiveSize e es s index hnew hrun hgives =>
    have hinv := EngineInv.run parser impl hC hnew hrun
    obtain ⟨_, _, _, hall⟩ := hinv.gives
    rw [(hall index hgives).1]
    exact hinv.sound.readable

/-- Any index handed out has exact checkpoints and the best one for every offset, and a
fresh reader over it delivers the plain bytes of any range and finishes; and an archive
engine's index gives every entry the best checkpoint for its data. -/
theorem handedOut_reads_plain (hC : Obeys codec packed plain At) :
    (∀ index : StreamIndex σ κ, HandedOut codec packed index →
      (∀ cp ∈ index.checkpoints, cp.Exact codec At) ∧
      (∀ o, ∃ i cp, index.bestCheckpointForOffset o = some (i, cp) ∧
        StreamIndex.IsBest index.checkpoints o i cp) ∧
      ∀ offset len, ∃ r, StreamReader.new index offset len = .ok r ∧
        ∀ (es : List ReadEvent) (s : ReadSession σ κ),
          es.foldlM (ReadSession.drive packed) (ReadSession.start r offset len) = some s →
          s.delivered <+: rangeOf plain s.offset s.len ∧
          (s.reported = some .done → s.delivered = rangeOf plain s.offset s.len) ∧
          (∀ f, s.reported ≠ some (.error f)) ∧
          ∀ cuts : List (Nat × Nat), StreamReader.stepFuel packed plain + s.len < cuts.length →
            ∃ n s', (cuts.take n).foldlM
                (ReadSession.turn packed (StreamReader.stepFuel packed plain)) s = some s' ∧
              s'.reported = some .done ∧ s'.delivered = rangeOf plain s.offset s.len) ∧
    ∀ {τ ρ : Type} (parser : ArchiveParser ρ) (impl : CheckpointStrategy τ)
      (compression : CompressionFormat) (format : Option ArchiveFormat) (strategy : τ)
      (archiveSize : Nat) (e : IndexingEngine σ κ τ ρ) (es : List EngineEvent)
      (s : EngineSession σ κ τ ρ),
      IndexingEngine.withStrategy parser codec compression format strategy archiveSize = .ok e →
      es.foldlM (EngineSession.drive parser impl packed) (EngineSession.start e) = some s →
      (∃ index, s.engine.snapshotIndex = some index) ∧ (∃ index, s.engine.cancel = some index) ∧
      (∃ index, s.engine.finish = some index) ∧
      ∀ index, s.engine.gives index → HandedOut codec packed index.stream ∧
        ∀ entry ∈ index.entries, ∃ cp, index.checkpointFor entry = some cp ∧
          StreamIndex.IsBest index.stream.checkpoints entry.uncompressedOffset
            entry.checkpointIndex cp := by
  constructor
  · intro index hhanded
    have hread := hhanded.readable hC
    refine ⟨hread.table.exact, StreamIndex.bestCheckpointForOffset_isBest hread.table.sorted, ?_⟩
    intro offset len
    obtain ⟨r, hnew, hstart⟩ := ReadInv.start hC hread.table.sameCodec hread.table.sorted
      hread.table.exact hread.unpackedLen offset len
    refine ⟨r, hnew, fun es s hrun => ?_⟩
    have hinv := hstart.run hC hrun
    refine ⟨hinv.range.delivered, hinv.done, hinv.fine, fun cuts hcuts => ?_⟩
    have hgo := hinv.toGo_lt
    obtain ⟨n, s', hfold, hinv', hoffset, hlen, hdone⟩ := ReadInv.turns hC cuts s hinv (by omega)
    refine ⟨n, s', hfold, hdone, ?_⟩
    rw [hinv'.done hdone, hoffset, hlen]
  · intro τ ρ parser impl compression format strategy archiveSize e es s hnew hrun
    obtain ⟨hsnap, hcancel, hfinish, hall⟩ := (EngineInv.run parser impl hC hnew hrun).gives
    refine ⟨hsnap, hcancel, hfinish, fun index hgives => ⟨?_, (hall index hgives).2⟩⟩
    exact .engine parser impl compression format strategy archiveSize e es s index hnew hrun hgives

/-- A pass over stored bytes with a checkpoint every two bytes, stopped at any moment and with
the decoded bytes handed out or not, leaves an index that serves bytes 1 to 3. -/
theorem handedOut_reads_plain_copy :
    let plain : List Byte := [1, 2, 3, 4, 5]
    ∀ (x : StreamIndexer NoneDecompressor Empty Nat) (es : List (PassEvent Nat))
      (s : IndexSession NoneDecompressor Empty Nat),
      StreamIndexer.new NoneDecompressor.codec 2 (some 5) = .ok x →
      es.foldlM (IndexSession.drivePass .fixedInterval plain) (IndexSession.fresh x) = some s →
      ∃ r, StreamReader.new s.indexer.snapshot 1 3 = .ok r ∧
        ∀ (es : List ReadEvent) (t : ReadSession NoneDecompressor Empty),
          es.foldlM (ReadSession.drive plain) (ReadSession.start r 1 3) = some t →
          t.delivered <+: rangeOf plain t.offset t.len := by
  intro plain x es s hnew hrun
  obtain ⟨_, _, hread⟩ := (handedOut_reads_plain (NoneDecompressor.obeys plain)).1 _
    (.first .fixedInterval 2 (some 5) x es s hnew hrun)
  obtain ⟨r, hr, h⟩ := hread 1 3
  exact ⟨r, hr, fun es t ht => (h es t ht).1⟩

end Iluvatar
