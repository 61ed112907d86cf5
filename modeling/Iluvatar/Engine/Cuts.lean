/-
Archive indexing and the cuts of the decompressed stream.

All three parsers are incremental, so two sessions over one plain stream end with the
same entries and the same outcome, however their codecs cut it, unless reading the stream
comes to a call that idles: one that has bytes to read, takes none of them and asks for
more.  There the engine gives up the rest of the piece.  A zero-length name, name table or
extension header is such a call.
-/
import Iluvatar.Archive.TarPieces
import Iluvatar.Archive.ArPieces
import Iluvatar.Archive.CpioPieces
import Iluvatar.Archive.Detection
import Iluvatar.Compress.None

namespace Iluvatar

variable {α β : Type}

/-- An answer that is not an error is one of the parser before its errors were mapped. -/
theorem mapError_eq_ok {ε φ : Type} {f : ε → φ} {a : Except ε α} {x : α} (h : a.mapError f = .ok x) :
    a = .ok x := by
  cases a with
  | error e => cases h
  | ok y => exact congrArg Except.ok (Except.ok.inj h)

theorem mapError_id {ε : Type} (a : Except ε α) : a.mapError id = a := by
  cases a <;> rfl

/-- A parser among others is as incremental as by itself. -/
theorem IncrementalAt.image {ε φ : Type} {feed : α → List Byte → ParserAnswer ε α}
    {feed' : β → List Byte → ParserAnswer φ β} {p : α} (h : IncrementalAt feed p) (f : ε → φ)
    (place : α → β)
    (hfeed : ∀ p data, feed' (place p) data = ((feed p data).1.mapError f, place (feed p data).2)) :
    IncrementalAt feed' (place p) where
  within := by
    intro data n event q hne hanswer
    rw [hfeed] at hanswer
    obtain ⟨hsame, _⟩ := Prod.mk.inj hanswer
    exact h.within data n event (feed p data).2 hne (Prod.ext (mapError_eq_ok hsame) rfl)
  more := by
    intro data hne
    rcases h.more data hne with hsettled | ⟨p', hpart, hmore, hbusy⟩
    · exact .inl fun rest => by rw [hfeed, hfeed, hsettled rest]
    · refine .inr ⟨place p', by rw [hfeed, hpart]; rfl, ?_, ?_⟩
      · intro rest hrest
        rw [hfeed, hfeed, hmore rest hrest]
        match feed p' rest with
        | (.ok (n, event), q) => rfl
        | (.error e, q) => rfl
      · intro rest hrest q hidle
        rw [hfeed] at hidle
        obtain ⟨hsame, _⟩ := Prod.mk.inj hidle
        exact hbusy rest hrest (feed p' rest).2 (Prod.ext (mapError_eq_ok hsame) rfl)

theorem IncrementalAt.splits {parser : ArchiveParser α} (h : ∀ p, IncrementalAt parser.feed p) :
    Splits parser where
  within := fun p => (h p).within
  more := by
    intro p data hne
    rcases (h p).more data hne with hsettled | ⟨p', hpart, hmore, hbusy⟩
    · exact .inl hsettled
    · exact .inr ⟨p', hpart, hmore, fun rest hrest ⟨q, hidle⟩ => hbusy rest hrest q hidle⟩

/-! ## The parsers of the engine -/

def tarOrAr : ArchiveParser (TarParser ⊕ ArParser) where
  create
    | .ar => .inr ArParser.new
    | _ => .inl TarParser.new
  feed
    | .inl p, data => let (answer, p) := p.feed data; (answer, .inl p)
    | .inr p, data => let (answer, p) := p.feed data; (answer.mapError .error, .inr p)
  endOfStream
    | .inl p => p.endOfStream
    | .inr p => p.endOfStream

/-- `create_archive_parser`: the tar, cpio and ar parsers. -/
def archiveParsers : ArchiveParser (CpioParser ⊕ (TarParser ⊕ ArParser)) := CpioParser.among tarOrAr

theorem tarOrAr_incremental (p : TarParser ⊕ ArParser) : IncrementalAt tarOrAr.feed p := by
  cases p with
  | inl p =>
    refine (TarParser.pieces.incremental (p := p) trivial).image id Sum.inl fun p data => ?_
    rw [mapError_id]
    rfl
  | inr p => exact (ArParser.pieces.incremental (p := p) trivial).image .error Sum.inr fun _ _ => rfl

theorem archiveParsers_splits : Splits archiveParsers := by
  refine IncrementalAt.splits fun p => ?_
  cases p with
  | inl p => exact p.incremental.image .error Sum.inl fun _ _ => rfl
  | inr p =>
    refine (tarOrAr_incremental p).image id Sum.inr fun p data => ?_
    rw [mapError_id]
    rfl

/-! ## Sessions -/

/-- The parser a stream is read with: of the format given, or of the one detected. -/
def readerOf (given : Option ArchiveFormat) (plain : List Byte) : CpioParser ⊕ (TarParser ⊕ ArParser) :=
  archiveParsers.create ((given.or (detectArchiveFormat plain)).getD .tar)

/-- How a session reports the outcome of a reading. -/
def ReadOutcome.request : ReadOutcome → EngineRequest
  | .done => .done
  | .failed fault => .error fault

section

variable {σ κ τ : Type} {codec : Codec σ κ} {packed plain : List Byte} {At : σ → Nat → Nat → Prop}

/-- Detection finds the format of the whole stream. -/
theorem along_detects (hnever : ¬ MeetsIdle archiveParsers plain (readerOf none plain) 0) :
    Detects archiveParsers plain (Along archiveParsers plain (readerOf none plain))
      (Reading archiveParsers plain (readerOf none plain) 0 [] .done) where
  detected := by
    intro d format hbegins hformat
    obtain ⟨rest, rfl⟩ := hbegins
    have hwhole := detectArchiveFormat_append hformat rest
    have hstart : archiveParsers.create format = readerOf none (d ++ rest) := by
      rw [readerOf, Option.none_or, hwhole]
      rfl
    rw [hstart]
    exact Along.start hnever
  undetected := by
    intro hnone
    have hstart : archiveParsers.create .tar = readerOf none plain := by
      rw [readerOf, Option.none_or, hnone]
      rfl
    rw [hstart]
    exact Along.start hnever
  empty := by
    rintro rfl
    exact .finished rfl rfl

/-- A session that has ended reports what reading the whole stream comes to. -/
theorem session_reads (impl : CheckpointStrategy τ) (hC : Obeys codec packed plain At)
    {compression : CompressionFormat} {given : Option ArchiveFormat} {strategy : τ} {archiveSize : Nat}
    (hnever : ¬ MeetsIdle archiveParsers plain (readerOf given plain) 0)
    {e : IndexingEngine σ κ τ (CpioParser ⊕ (TarParser ⊕ ArParser))} {es : List EngineEvent}
    {s : EngineSession σ κ τ (CpioParser ⊕ (TarParser ⊕ ArParser))}
    (hnew : IndexingEngine.withStrategy archiveParsers codec compression given strategy archiveSize =
      .ok e)
    (hrun : es.foldlM (EngineSession.driveOn archiveParsers impl packed) (EngineSession.start e) = some s)
    (hended : s.ended = true) :
    ∃ outcome : ReadOutcome, s.reported = some outcome.request ∧
      Reading archiveParsers plain (readerOf given plain) 0 [] outcome s.engine.indexBuilder.entries := by
  have hreads := archiveParsers_splits.reads plain (readerOf given plain)
  have hdetects : given = none → Detects archiveParsers plain
      (Along archiveParsers plain (readerOf given plain))
      (Reading archiveParsers plain (readerOf given plain) 0 [] .done) := by
    rintro rfl
    exact along_detects hnever
  have hgiven : ∀ format, given = some format →
      Along archiveParsers plain (readerOf given plain) [] (archiveParsers.create format) [] := by
    rintro format rfl
    exact Along.start hnever
  have hinv := delivered impl hC hreads hdetects hnew hgiven id hrun
  rw [EngineSession.ended] at hended
  cases hreported : s.reported with
  | none =>
    rw [hreported] at hended
    exact absurd hended (by simp)
  | some request =>
    cases request with
    | done => exact ⟨.done, rfl, hinv.done hreported⟩
    | error fault => exact ⟨.failed fault, rfl, hinv.error fault hreported⟩
    | _ =>
      rw [hreported] at hended
      exact absurd hended (by simp)

end

section

variable {σ₁ κ₁ τ₁ σ₂ κ₂ τ₂ : Type} {codec₁ : Codec σ₁ κ₁} {codec₂ : Codec σ₂ κ₂}
  {packed₁ packed₂ plain : List Byte} {At₁ : σ₁ → Nat → Nat → Prop} {At₂ : σ₂ → Nat → Nat → Prop}

/-- Two sessions over one plain stream that have ended recorded the same entries and report
the same outcome, and both handed every byte on in order, provided that reading the stream
comes to no call that idles. -/
theorem sessions_agree (impl₁ : CheckpointStrategy τ₁) (impl₂ : CheckpointStrategy τ₂)
    (hC₁ : Obeys codec₁ packed₁ plain At₁) (hC₂ : Obeys codec₂ packed₂ plain At₂)
    {compression₁ compression₂ : CompressionFormat} {given : Option ArchiveFormat} {strategy₁ : τ₁}
    {strategy₂ : τ₂} {archiveSize₁ archiveSize₂ : Nat}
    (hnever : ¬ MeetsIdle archiveParsers plain (readerOf given plain) 0)
    {e₁ : IndexingEngine σ₁ κ₁ τ₁ (CpioParser ⊕ (TarParser ⊕ ArParser))}
    {e₂ : IndexingEngine σ₂ κ₂ τ₂ (CpioParser ⊕ (TarParser ⊕ ArParser))} {es₁ es₂ : List EngineEvent}
    {s₁ : EngineSession σ₁ κ₁ τ₁ (CpioParser ⊕ (TarParser ⊕ ArParser))}
    {s₂ : EngineSession σ₂ κ₂ τ₂ (CpioParser ⊕ (TarParser ⊕ ArParser))}
    (hnew₁ : IndexingEngine.withStrategy archiveParsers codec₁ compression₁ given strategy₁
      archiveSize₁ = .ok e₁)
    (hnew₂ : IndexingEngine.withStrategy archiveParsers codec₂ compression₂ given strategy₂
      archiveSize₂ = .ok e₂)
    (hrun₁ : es₁.foldlM (EngineSession.driveOn archiveParsers impl₁ packed₁) (EngineSession.start e₁) =
      some s₁)
    (hrun₂ : es₂.foldlM (EngineSession.driveOn archiveParsers impl₂ packed₂) (EngineSession.start e₂) =
      some s₂)
    (hended₁ : s₁.ended = true) (hended₂ : s₂.ended = true) :
    s₁.reported = s₂.reported ∧ s₁.engine.indexBuilder.entries = s₂.engine.indexBuilder.entries ∧
      ∃ outcome : ReadOutcome, s₁.reported = some outcome.request ∧
        Reading archiveParsers plain (readerOf given plain) 0 [] outcome
          s₁.engine.indexBuilder.entries := by
  obtain ⟨outcome₁, hreported₁, hreading₁⟩ := session_reads impl₁ hC₁ hnever hnew₁ hrun₁ hended₁
  obtain ⟨outcome₂, hreported₂, hreading₂⟩ := session_reads impl₂ hC₂ hnever hnew₂ hrun₂ hended₂
  obtain ⟨rfl, hentries⟩ := hreading₁.unique hreading₂
  exact ⟨hreported₁.trans hreported₂.symm, hentries, outcome₁, hreported₁, hreading₁⟩

end

/-! ## An empty name table -/

/-- The header of an ar member without data, its name padded to sixteen letters. -/
def emptyMember (name : String) : List Byte :=
  ascii (name ++ "0           0     0     100644  0         ") ++ Ar.fmag

theorem emptyMember_bytes (name : String) : emptyMember name = ascii name ++ ([48, 32, 32, 32, 32, 32, 32, 32, 32, 32, 32, 32, 48, 32, 32, 32, 32, 32, 48, 32, 32, 32, 32, 32, 49,
    48, 48, 54, 52, 52, 32, 32, 48, 32, 32, 32, 32, 32, 32, 32, 32, 32] ++ Ar.fmag) := by
  unfold emptyMember
  rw [ascii_append, List.append_assoc]
  exact congrArg (fun numbers => ascii name ++ (numbers ++ Ar.fmag)) (ascii_ofList _)

/-- An ar archive of one empty file. -/
def oneMemberArchive : List Byte := arMagic ++ emptyMember "a/              "

/-- An ar archive of a long-name table of size zero and two empty files. -/
def emptyTableArchive : List Byte :=
  arMagic ++ (emptyMember "//              " ++
    (emptyMember "a/              " ++ emptyMember "b/              "))

/-- An uncompressed archive indexed, its format to be detected, by a caller that lets the
engine go on after each piece of the sizes `sizes`. -/
def indexedInPieces (plain : List Byte) (sizes : List Nat) :
    Option (EngineSession NoneDecompressor Empty Nat (CpioParser ⊕ (TarParser ⊕ ArParser))) :=
  match IndexingEngine.withStrategy archiveParsers NoneDecompressor.codec .none none 1000 0 with
  | .ok e =>
    (.step 500 500 :: sizes.flatMap fun n => [.provide (n - 1), .step 500 500]).foldlM
      (EngineSession.driveOn archiveParsers .fixedInterval plain) (EngineSession.start e)
  | .error _ => none

/-- The pieces after an empty name table are lost: which ones, the cuts decide. -/
theorem sessions_disagree :
    ∃ s₁ s₂, indexedInPieces emptyTableArchive [500, 1] = some s₁ ∧
      indexedInPieces emptyTableArchive [68, 60, 60, 1] = some s₂ ∧
      s₁.reported = some .done ∧ s₂.reported = some .done ∧
      s₁.engine.indexBuilder.entries.map (·.path) = [] ∧
      s₂.engine.indexBuilder.entries.map (·.path) = ["b"] := by
  have hrun₁ : (indexedInPieces emptyTableArchive [500, 1]).map (fun s =>
      (s.reported, s.engine.indexBuilder.entries.map (·.path))) = some (some .done, []) := by
    unfold emptyTableArchive
    simp only [emptyMember_bytes]
    decide +kernel
  have hrun₂ : (indexedInPieces emptyTableArchive [68, 60, 60, 1]).map (fun s =>
      (s.reported, s.engine.indexBuilder.entries.map (·.path))) = some (some .done, ["b"]) := by
    unfold emptyTableArchive
    simp only [emptyMember_bytes]
    decide +kernel
  obtain ⟨s₁, hs₁, hsummary₁⟩ := Option.map_eq_some_iff.mp hrun₁
  obtain ⟨s₂, hs₂, hsummary₂⟩ := Option.map_eq_some_iff.mp hrun₂
  obtain ⟨hdone₁, hpaths₁⟩ := Prod.mk.inj hsummary₁
  obtain ⟨hdone₂, hpaths₂⟩ := Prod.mk.inj hsummary₂
  exact ⟨s₁, s₂, hs₁, hs₂, hdone₁, hdone₂, hpaths₁, hpaths₂⟩

/-- Without a name table the pieces do not matter. -/
theorem sessions_agree_oneMember :
    ∃ s₁ s₂, indexedInPieces oneMemberArchive [500, 1] = some s₁ ∧
      indexedInPieces oneMemberArchive [3, 30, 500, 1] = some s₂ ∧ s₁.reported = some .done ∧
      s₁.reported = s₂.reported ∧ s₁.engine.indexBuilder.entries = s₂.engine.indexBuilder.entries := by
  have hrun₁ : (indexedInPieces oneMemberArchive [500, 1]).map (fun s => s.reported) =
      some (some .done) := by
    unfold oneMemberArchive
    rw [emptyMember_bytes]
    decide +kernel
  have hrun₂ : (indexedInPieces oneMemberArchive [3, 30, 500, 1]).map (fun s => s.ended) =
      some true := by
    unfold oneMemberArchive
    rw [emptyMember_bytes]
    decide +kernel
  obtain ⟨s₁, hs₁, hdone₁⟩ := Option.map_eq_some_iff.mp hrun₁
  obtain ⟨s₂, hs₂, hended₂⟩ := Option.map_eq_some_iff.mp hrun₂
  have hended₁ : s₁.ended = true := by rw [EngineSession.ended, hdone₁]
  have hs₁' := hs₁
  have hs₂' := hs₂
  rw [indexedInPieces] at hs₁' hs₂'
  have hfree : neverIdles archiveParsers oneMemberArchive 5 (readerOf none oneMemberArchive) 0 = true := by
    unfold oneMemberArchive
    rw [emptyMember_bytes]
    decide +kernel
  have hnever := neverIdles_sound hfree
  split at hs₁'
  · rename_i e hnew
    rw [hnew] at hs₂'
    obtain ⟨hreported, hentries, _⟩ := sessions_agree .fixedInterval .fixedInterval
      (NoneDecompressor.obeys oneMemberArchive) (NoneDecompressor.obeys oneMemberArchive)
      hnever hnew hnew hs₁' hs₂' hended₁ hended₂
    exact ⟨s₁, s₂, hs₁, hs₂, hdone₁, hreported, hentries⟩
  · exact absurd hs₁' (by simp)

end Iluvatar
