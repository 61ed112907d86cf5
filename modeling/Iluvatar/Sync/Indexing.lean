/-
Building the index of an archive from its file.

The header of the file tells the compression format; the engine is then given the header
again, and from there on what the file has after it.  The codec of a format is a parameter,
and the caller's `on_progress` answers by the number of the call.
-/
import Iluvatar.Engine.Cuts
import Iluvatar.Sync.Reader

namespace Iluvatar

open Sansio

variable {σ κ τ ρ ι : Type}

/-- Minimum number of bytes needed to reliably detect the compression format. -/
def detectMinBytes : Nat := 6

/-- Detect the compression format from the first bytes of a stream. -/
def detectFormat (header : List Byte) : Option CompressionFormat :=
  if header.length < 2 then none
  else if header.take 2 = [0x1f, 0x8b] then some .gzip
  else if header.take 3 = [0x42, 0x5a, 0x68] then some .bzip2
  else if header.take 6 = [0xfd, 0x37, 0x7a, 0x58, 0x5a, 0x00] then some .xz
  else if header.take 4 = [0x28, 0xb5, 0x2f, 0xfd] then some .zstd
  else if 263 ≤ header.length ∧ (header.drop 257).take 5 = ascii "ustar" then some .none
  else if detectMinBytes ≤ header.length then some .none
  else none

/-- The default checkpoint interval of a format. -/
def defaultIntervalForFormat : CompressionFormat → Nat
  | .none => 1024 * 1024
  | .bzip2 => 1024 * 1024
  | .gzip => 16 * 1024 * 1024
  | .zstd => 64 * 1024 * 1024
  | .xz => 64 * 1024 * 1024

def headerRoom : Nat := 512

/-- Read until the header is full or the file ends. -/
def readHeader (answers : Answers ι) : Nat → File Byte → List Byte → Option (Except ι (List Byte) × File Byte)
  | 0, _, _ => none
  | fuel + 1, file, header =>
    if header.length < headerRoom then
      match file.read answers (headerRoom - header.length) with
      | (.error e, file) => some (.error e, file)
      | (.ok [], file) => some (.ok header, file)
      | (.ok (b :: data), file) => readHeader answers fuel file (header ++ b :: data)
    else some (.ok header, file)

/-- An index, or the panic of assembling it over an empty table. -/
def handOver (index : Option (ArchiveIndex σ κ)) (file : File Byte) :
    Option (Except (ReadError ι) (ArchiveIndex σ κ) × File Byte) :=
  match index with
  | none => some (.error (.fault .panic), file)
  | some index => some (.ok index, file)

/-- Drive the indexing engine until it is done or `on_progress` says to stop. -/
def driveIndexing (answers : Answers ι) (parser : ArchiveParser ρ) (impl : CheckpointStrategy τ)
    (onProgress : Nat → Bool) (header : List Byte) (fuel : Nat) :
    Nat → Nat → IndexingEngine σ κ τ ρ → Bool → File Byte →
      Option (Except (ReadError ι) (ArchiveIndex σ κ) × File Byte)
  | 0, _, _, _, _ => none
  | rounds + 1, count, engine, headerFed, file =>
    match engine.step parser impl fuel fuel with
    | none => none
    | some (.needInput, engine) =>
      if headerFed then
        match file.supply answers bufSize engine.signalEof engine.provideData with
        | (.error e, file) => some (.error (.io e), file)
        | (.ok engine, file) =>
          if onProgress count then
            driveIndexing answers parser impl onProgress header fuel rounds (count + 1) engine true file
          else handOver engine.cancel file
      else
        let engine := engine.provideData header
        if onProgress count then
          driveIndexing answers parser impl onProgress header fuel rounds (count + 1) engine true file
        else handOver engine.cancel file
    | some (.done, engine) => handOver engine.finish file
    | some (.error f, _) => some (.error (.fault f), file)
    | some (_, engine) =>
      if onProgress count then
        driveIndexing answers parser impl onProgress header fuel rounds (count + 1) engine headerFed file
      else handOver engine.cancel file

/-- Detect the format and index the archive, its parser being picked by the engine. -/
def buildIndex (answers : Answers ι) (codecOf : CompressionFormat → Codec σ κ) (impl : CheckpointStrategy τ)
    (strategyOf : CompressionFormat → τ) (onProgress : Nat → Bool) (fuel : Nat) (file : File Byte) (fileSize : Nat) :
    Option (Except (ReadError ι) (ArchiveIndex σ κ) × File Byte) :=
  match readHeader answers fuel file [] with
  | none => none
  | some (.error e, file) => some (.error (.io e), file)
  | some (.ok header, file) =>
    match detectFormat header with
    | none => some (.error (.fault (.error .unsupportedFormat)), file)
    | some format =>
      match IndexingEngine.withStrategy archiveParsers (codecOf format) format none (strategyOf format) fileSize with
      | .error e => some (.error (.fault (.error e)), file)
      | .ok engine => driveIndexing answers archiveParsers impl onProgress header fuel fuel 0 engine false file

namespace Archive

/-- Index a file and keep it for reading; the strategy may depend on the format. -/
def build (answers : Answers ι) (codecOf : CompressionFormat → Codec σ κ) (impl : CheckpointStrategy τ)
    (strategyOf : CompressionFormat → τ) (onProgress : Nat → Bool) (fuel : Nat) (file : File Byte) :
    Option (Except (ReadError ι) (Archive σ κ) × File Byte) :=
  match file.seekEnd answers with
  | (.error e, file) => some (.error (.io e), file)
  | (.ok fileSize, file) =>
    match file.seek answers 0 with
    | (.error e, file) => some (.error (.io e), file)
    | (.ok (), file) =>
      match buildIndex answers codecOf impl strategyOf onProgress fuel file fileSize with
      | none => none
      | some (.error e, file) => some (.error e, file)
      | some (.ok index, file) =>
        match file.seek answers 0 with
        | (.error e, file) => some (.error (.io e), file)
        | (.ok (), file) => some (.ok { reader := file, index }, file)

/-- Open an archive with default settings. -/
def new (answers : Answers ι) (codecOf : CompressionFormat → Codec σ κ) (fuel : Nat) (file : File Byte) :
    Option (Except (ReadError ι) (Archive σ κ) × File Byte) :=
  build answers codecOf .fixedInterval defaultIntervalForFormat (fun _ => true) fuel file

/-- Open an archive with a checkpoint strategy. -/
def withStrategy (answers : Answers ι) (codecOf : CompressionFormat → Codec σ κ) (impl : CheckpointStrategy τ)
    (strategy : τ) (fuel : Nat) (file : File Byte) : Option (Except (ReadError ι) (Archive σ κ) × File Byte) :=
  build answers codecOf impl (fun _ => strategy) (fun _ => true) fuel file

end Archive
end Iluvatar
