/-
`IndexingEngine`: scans a compressed archive once, laying checkpoints while an
archive parser reads the decoded bytes for entries.

A parser is any implementation of the parser interface.  It may stand still while
reporting entries, so its loop carries fuel; `none` means a loop has not ended
within it.
-/
import Iluvatar.Archive.Parser
import Iluvatar.Stream.Indexer

namespace Iluvatar

variable {σ κ τ ρ : Type}

inductive CompressionFormat where
  | none
  | gzip
  | bzip2
  | xz
  | zstd
  deriving DecidableEq, Repr

/-- An entry of the index: an archive entry and the checkpoint nearest before its data. -/
structure IndexEntry where
  path : String
  size : Nat
  entryType : EntryType
  mode : Nat
  uid : Nat
  gid : Nat
  mtime : Nat
  linkTarget : Option String
  uncompressedOffset : Nat
  checkpointIndex : Nat
  deriving DecidableEq, Repr

structure IndexMetadata where
  version : Nat
  compression : CompressionFormat
  archiveFormat : ArchiveFormat
  archiveSize : Nat
  uncompressedSize : Nat
  complete : Bool
  deriving DecidableEq, Repr

/-- The index of a compressed archive.  The path lookup is derived from `entries`. -/
structure ArchiveIndex (σ κ : Type) where
  metadata : IndexMetadata
  stream : StreamIndex σ κ
  entries : List IndexEntry

namespace ArchiveIndex

/-- The checkpoint to use for reading an entry. -/
def checkpointFor (index : ArchiveIndex σ κ) (entry : IndexEntry) : Option (Checkpoint κ) :=
  index.stream.checkpoints[entry.checkpointIndex]?

end ArchiveIndex

/-- Entries collected while indexing. -/
structure IndexBuilder where
  entries : List IndexEntry
  compression : CompressionFormat
  archiveFormat : ArchiveFormat
  archiveSize : Nat
  lastEntryPath : Option String
  deriving DecidableEq, Repr

namespace IndexBuilder

def indexVersion : Nat := 6

def new (compression : CompressionFormat) (archiveFormat : ArchiveFormat) (archiveSize : Nat) :
    IndexBuilder :=
  { entries := [], compression, archiveFormat, archiveSize, lastEntryPath := .none }

def setArchiveFormat (b : IndexBuilder) (format : ArchiveFormat) : IndexBuilder :=
  { b with archiveFormat := format }

def addEntry (b : IndexBuilder) (e : ArchiveEntry) : IndexBuilder :=
  { b with
    lastEntryPath := some e.path
    entries := b.entries ++ [
      { path := e.path
        size := e.size
        entryType := e.entryType
        mode := e.mode
        uid := e.uid
        gid := e.gid
        mtime := e.mtime
        linkTarget := e.linkTarget
        uncompressedOffset := e.dataOffset
        checkpointIndex := 0 }] }

/-- Associate every entry with the latest checkpoint at or before its data.  `none`
models the panic of `best_checkpoint_for_offset` on an empty table. -/
def assemble (b : IndexBuilder) (stream : StreamIndex σ κ) (complete : Bool) :
    Option (ArchiveIndex σ κ) :=
  (b.entries.mapM fun entry =>
    (stream.bestCheckpointForOffset entry.uncompressedOffset).map fun best =>
      { entry with checkpointIndex := best.1 }).map fun entries =>
    { metadata :=
        { version := indexVersion
          compression := b.compression
          archiveFormat := b.archiveFormat
          archiveSize := b.archiveSize
          uncompressedSize := stream.indexedTo
          complete }
      stream
      entries }

end IndexBuilder

structure IndexingEngine (σ κ τ ρ : Type) where
  indexer : StreamIndexer σ κ τ
  archiveParser : Option ρ
  indexBuilder : IndexBuilder
  detectBuf : List Byte
  done : Bool

namespace IndexingEngine

/-- `with_strategy`, given the codec the compression format stands for. -/
def withStrategy (parser : ArchiveParser ρ) (codec : Codec σ κ) (compression : CompressionFormat)
    (archiveFormat : Option ArchiveFormat) (strategy : τ) (archiveSize : Nat) :
    Except Error (IndexingEngine σ κ τ ρ) :=
  let compressedLen := if archiveSize = 0 then .none else some archiveSize
  (StreamIndexer.new codec strategy compressedLen).map fun indexer =>
    { indexer := indexer.setEmitOutput true
      archiveParser := archiveFormat.map parser.create
      indexBuilder := IndexBuilder.new compression (archiveFormat.getD .tar) archiveSize
      detectBuf := []
      done := false }

/-- What a fallible operation leaves: `none`, or what it failed with. -/
abbrev Failed := Option Fault

/-- Feed decompressed data to the archive parser. -/
def feedToParser (parser : ArchiveParser ρ) :
    Nat → List Byte → IndexingEngine σ κ τ ρ → Option (Failed × IndexingEngine σ κ τ ρ)
  | 0, _, _ => .none
  | fuel + 1, data, e =>
    match e.archiveParser with
    | .none => some (some .panic, e)
    | some p =>
      if data.isEmpty then some (.none, e)
      else
        match parser.feed p data with
        | (.error fault, p) => some (some fault, { e with archiveParser := some p })
        | (.ok (consumed, event), p) =>
          let e := { e with archiveParser := some p }
          match event with
          | .entry entry =>
            feedToParser parser fuel (data.drop consumed)
              { e with indexBuilder := e.indexBuilder.addEntry entry }
          | .needData =>
            if consumed = 0 then some (.none, e)
            else feedToParser parser fuel (data.drop consumed) e
          | .endOfArchive => some (.none, { e with done := true })

/-- The bytes the parser is created from are replayed through it. -/
def replay (parser : ArchiveParser ρ) (fuel : Nat) (format : ArchiveFormat)
    (e : IndexingEngine σ κ τ ρ) : Option (Failed × IndexingEngine σ κ τ ρ) :=
  feedToParser parser fuel e.detectBuf
    { e with
      archiveParser := some (parser.create format)
      indexBuilder := e.indexBuilder.setArchiveFormat format
      detectBuf := [] }

/-- Feed the indexer's pending output through detection and the parser. -/
def drainOutput (parser : ArchiveParser ρ) :
    Nat → IndexingEngine σ κ τ ρ → Option (Failed × IndexingEngine σ κ τ ρ)
  | 0, _ => .none
  | fuel + 1, e =>
    let (data, indexer) := e.indexer.readOutput bufSize
    let e := { e with indexer }
    if data.isEmpty then some (.none, e)
    else
      match e.archiveParser with
      | .none =>
        let e := { e with detectBuf := e.detectBuf ++ data }
        match detectArchiveFormat e.detectBuf with
        | some format =>
          match replay parser fuel format e with
          | .none => .none
          | some (some f, e) => some (some f, e)
          | some (.none, e) => if e.done then some (.none, e) else drainOutput parser fuel e
        | .none => drainOutput parser fuel e
      | some _ =>
        -- Past the archive trailer the rest of the stream is padding.
        if e.done then drainOutput parser fuel e
        else
          match feedToParser parser fuel data e with
          | .none => .none
          | some (some f, e) => some (some f, e)
          | some (.none, e) => drainOutput parser fuel e

/-- Ask the parser whether the stream may end here. -/
def closeParser (parser : ArchiveParser ρ) (e : IndexingEngine σ κ τ ρ) :
    Failed × IndexingEngine σ κ τ ρ :=
  match e.archiveParser with
  | .none => (some .panic, e)
  | some p =>
    match parser.endOfStream p with
    | .ok () => (.none, e)
    | .error err => (some (.error err), e)

/-- The stream ended without the parser reporting the end of the archive. -/
def endOfStream (parser : ArchiveParser ρ) (fuel : Nat) (e : IndexingEngine σ κ τ ρ) :
    Option (Failed × IndexingEngine σ κ τ ρ) :=
  match e.archiveParser with
  | .none =>
    if e.detectBuf.isEmpty then some (.none, e)
    else
      match replay parser fuel .tar e with
      | .none => .none
      | some (some f, e) => some (some f, e)
      | some (.none, e) => some (if e.done then (.none, e) else closeParser parser e)
  | some _ => some (closeParser parser e)

/-- One round of the loop of `step`: a request, or nothing yet. -/
def stepOnce (parser : ArchiveParser ρ) (impl : CheckpointStrategy τ) (fuel : Nat)
    (e : IndexingEngine σ κ τ ρ) : Option (Option EngineRequest × IndexingEngine σ κ τ ρ) :=
  if e.done then some (some .done, e)
  else
    match e.indexer.step impl fuel with
    | .none => .none
    | some (request, indexer) =>
      let e := { e with indexer }
      match request with
      | .outputReady =>
        match drainOutput parser fuel e with
        | .none => .none
        | some (some f, e) => some (some (.error f), e)
        | some (.none, e) => some (.none, e)
      | .done =>
        match endOfStream parser fuel e with
        | .none => .none
        | some (some f, e) => some (some (.error f), e)
        | some (.none, e) => some (some .done, { e with done := true })
      | .error (.error .truncatedInput) =>
        some (some (.error (.error
          (.truncatedArchive "the compressed stream ends prematurely"))), e)
      | other => some (some other, e)

/-- Drive the state machine forward: what the engine needs next.  `fuel` bounds every
loop inside. -/
def step (parser : ArchiveParser ρ) (impl : CheckpointStrategy τ) (fuel : Nat) :
    Nat → IndexingEngine σ κ τ ρ → Option (EngineRequest × IndexingEngine σ κ τ ρ)
  | 0, _ => .none
  | rounds + 1, e =>
    match stepOnce parser impl fuel e with
    | .none => .none
    | some (some request, e) => some (request, e)
    | some (.none, e) => step parser impl fuel rounds e

def provideData (e : IndexingEngine σ κ τ ρ) (data : List Byte) : IndexingEngine σ κ τ ρ :=
  { e with indexer := e.indexer.provideData data }

def signalEof (e : IndexingEngine σ κ τ ρ) : IndexingEngine σ κ τ ρ :=
  { e with indexer := e.indexer.signalEof }

/-- Consume the engine and return the completed index. -/
def finish (e : IndexingEngine σ κ τ ρ) : Option (ArchiveIndex σ κ) :=
  e.indexBuilder.assemble e.indexer.finish true

/-- The current state as a usable partial index. -/
def snapshotIndex (e : IndexingEngine σ κ τ ρ) : Option (ArchiveIndex σ κ) :=
  e.indexBuilder.assemble e.indexer.snapshot false

/-- Cancel indexing and return whatever index has been built so far. -/
def cancel (e : IndexingEngine σ κ τ ρ) : Option (ArchiveIndex σ κ) :=
  e.indexBuilder.assemble e.indexer.finish false

end IndexingEngine
end Iluvatar
