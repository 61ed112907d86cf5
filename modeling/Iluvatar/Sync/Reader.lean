/-
The synchronous reader: a file behind a handle and the loops that serve the engines from it.

The handle may read short and fail, as `Answers` lays down.  Errors of the file keep
what they failed with; the message made of it is left out.  The loops carry fuel: one
bound for the rounds of a loop, of the loop inside it and of a `step`.
-/
import Iluvatar.Engine.Lookup
import Iluvatar.Engine.ReadEngine
import Iluvatar.Library.Cursor
import Iluvatar.Library.File

namespace Iluvatar

open Sansio

variable {σ κ ι : Type}

/-- Why a read failed: the file did, or no entry has the path, or the engine did. -/
inductive ReadError (ι : Type) where
  | io (e : ι)
  | fileNotFound (path : String)
  | fault (f : Fault)
  deriving DecidableEq, Repr

/-- Whether a failure is one that `read_to_end` ignores. -/
def ReadError.interrupted (interrupted : ι → Bool) : ReadError ι → Bool
  | .io e => interrupted e
  | _ => false

namespace ReadEngine

/-- The stream reader for a byte range within the entry with this path. -/
def newRange (index : ArchiveIndex σ κ) (path : String) (fileOffset len : Nat) :
    Except (ReadError ι) (StreamReader σ κ) :=
  match index.get path with
  | none => .error (.fileNotFound path)
  | some entry =>
    match forEntryRange index entry fileOffset len with
    | .error f => .error (.fault f)
    | .ok reader => .ok reader

/-- The stream reader for the entry with this path. -/
def new (index : ArchiveIndex σ κ) (path : String) : Except (ReadError ι) (StreamReader σ κ) :=
  newRange index path 0 u64Max

end ReadEngine

namespace StreamReader

/-- Answer `needInput`. -/
def fill (answers : Answers ι) (file : File Byte) (r : StreamReader σ κ) :
    Except ι (StreamReader σ κ) × File Byte :=
  file.supply answers bufSize r.signalEof r.provideData

/-- Answer `seekAndRead`. -/
def fillFrom (answers : Answers ι) (file : File Byte) (r : StreamReader σ κ) (offset len : Nat) :
    Except ι (StreamReader σ κ) × File Byte :=
  match file.seek answers offset with
  | (.error e, file) => (.error e, file)
  | (.ok (), file) => file.supply answers (min len bufSize) r.signalEof r.provideData

/-- Answer `outputReady`: take output until there is none. -/
def drain : Nat → StreamReader σ κ → Option (List Byte × StreamReader σ κ)
  | 0, _ => none
  | fuel + 1, r =>
    match r.readOutput bufSize with
    | ([], r) => some ([], r)
    | (b :: out, r) => (drain fuel r).map fun (rest, r) => (b :: out ++ rest, r)

/-- Serve a reader until it is done, and collect what it makes. -/
def readLoop (answers : Answers ι) (fuel : Nat) :
    Nat → StreamReader σ κ → File Byte → List Byte → Option (Except (ReadError ι) (List Byte) × File Byte)
  | 0, _, _, _ => none
  | rounds + 1, r, file, result =>
    match r.step fuel with
    | none => none
    | some (.needInput, r) =>
      match r.fill answers file with
      | (.error e, file) => some (.error (.io e), file)
      | (.ok r, file) => readLoop answers fuel rounds r file result
    | some (.seekAndRead offset len, r) =>
      match r.fillFrom answers file offset len with
      | (.error e, file) => some (.error (.io e), file)
      | (.ok r, file) => readLoop answers fuel rounds r file result
    | some (.outputReady, r) =>
      match r.drain fuel with
      | none => none
      | some (out, r) => readLoop answers fuel rounds r file (result ++ out)
    | some (.done, _) => some (.ok result, file)
    | some (.error f, _) => some (.error (.fault f), file)

end StreamReader

/-- An archive: a reader of the packed bytes, and their index. -/
structure Archive (σ κ : Type) where
  reader : File Byte
  index : ArchiveIndex σ κ

/-- Streaming reader for a single file within an archive, or for a range of a stream. -/
structure EntryReader (σ κ : Type) where
  reader : File Byte
  engine : StreamReader σ κ
  done : Bool

namespace Archive

/-- Read a byte range from a file in the archive. -/
def readFileRange (answers : Answers ι) (fuel : Nat) (archive : Archive σ κ) (path : String) (offset len : Nat) :
    Option (Except (ReadError ι) (List Byte) × File Byte) :=
  match archive.reader.seek answers 0 with
  | (.error e, file) => some (.error (.io e), file)
  | (.ok (), file) =>
    match ReadEngine.newRange archive.index path offset len with
    | .error e => some (.error e, file)
    | .ok engine => engine.readLoop answers fuel fuel file []

/-- Read a file's entire contents from the archive into memory. -/
def readFile (answers : Answers ι) (fuel : Nat) (archive : Archive σ κ) (path : String) :
    Option (Except (ReadError ι) (List Byte) × File Byte) :=
  match archive.reader.seek answers 0 with
  | (.error e, file) => some (.error (.io e), file)
  | (.ok (), file) =>
    match ReadEngine.new archive.index path with
    | .error e => some (.error e, file)
    | .ok engine => engine.readLoop answers fuel fuel file []

/-- Open a file in the archive for streaming reads. -/
def openEntry (answers : Answers ι) (archive : Archive σ κ) (path : String) :
    Except (ReadError ι) (EntryReader σ κ) × File Byte :=
  match archive.reader.seek answers 0 with
  | (.error e, file) => (.error (.io e), file)
  | (.ok (), file) =>
    match ReadEngine.new archive.index path with
    | .error e => (.error e, file)
    | .ok engine => (.ok { reader := file, engine, done := false }, file)

end Archive

namespace EntryReader

/-- Drive the engine until there is output for `room` bytes, or it is done. -/
def readLoop (answers : Answers ι) (fuel room : Nat) :
    Nat → EntryReader σ κ → Option (Except (ReadError ι) (List Byte) × EntryReader σ κ)
  | 0, _ => none
  | rounds + 1, e =>
    match e.engine.step fuel with
    | none => none
    | some (.needInput, r) =>
      match r.fill answers e.reader with
      | (.error err, file) => some (.error (.io err), { e with reader := file, engine := r })
      | (.ok r, file) => readLoop answers fuel room rounds { e with reader := file, engine := r }
    | some (.seekAndRead offset len, r) =>
      match r.fillFrom answers e.reader offset len with
      | (.error err, file) => some (.error (.io err), { e with reader := file, engine := r })
      | (.ok r, file) => readLoop answers fuel room rounds { e with reader := file, engine := r }
    | some (.outputReady, r) =>
      match r.readOutput room with
      | ([], r) => readLoop answers fuel room rounds { e with engine := r }
      | (b :: out, r) => some (.ok (b :: out), { e with engine := r })
    | some (.done, r) => some (.ok [], { e with engine := r, done := true })
    | some (.error f, r) => some (.error (.fault f), { e with engine := r, done := true })

/-- Read into a buffer of `room` bytes. -/
def read (answers : Answers ι) (fuel : Nat) (e : EntryReader σ κ) (room : Nat) :
    Option (Except (ReadError ι) (List Byte) × EntryReader σ κ) :=
  if e.done = true ∨ room = 0 then some (.ok [], e)
  else
    match e.engine.readOutput room with
    | (b :: out, r) => some (.ok (b :: out), { e with engine := r })
    | ([], r) => readLoop answers fuel room fuel { e with engine := r }

/-- Read after read, each into a buffer of its own. -/
def readAll (answers : Answers ι) (fuel : Nat) :
    List Nat → EntryReader σ κ → Option (List (Except (ReadError ι) (List Byte)) × EntryReader σ κ)
  | [], e => some ([], e)
  | room :: rooms, e =>
    match e.read answers fuel room with
    | none => none
    | some (result, e) => (readAll answers fuel rooms e).map fun (results, e) => (result :: results, e)

end EntryReader

/-- Random access to one compressed stream. -/
structure Stream (σ κ : Type) where
  reader : File Byte
  index : StreamIndex σ κ

namespace Stream

/-- A reader over a range of the stream; it seeks with its first call. -/
def openRange (stream : Stream σ κ) (offset len : Nat) : Except (ReadError ι) (EntryReader σ κ) :=
  match StreamReader.new stream.index offset len with
  | .error f => .error (.fault f)
  | .ok engine => .ok { reader := stream.reader, engine, done := false }

/-- Read a range of the stream whole.  `read_to_end` makes room as `rooms` says, and reads again
where a call on the file was interrupted. -/
def readRange (answers : Answers ι) (interrupted : ι → Bool) (rooms : Nat → Nat) (fuel : Nat) (stream : Stream σ κ)
    (offset len : Nat) : Option (Except (ReadError ι) (List Byte) × File Byte) :=
  match stream.openRange offset len with
  | .error e => some (.error e, stream.reader)
  | .ok e =>
    (Cursor.readToEnd (EntryReader.read answers fuel) (ReadError.interrupted interrupted) rooms fuel e []).map
      fun (result, e) => (result, e.reader)

end Stream
end Iluvatar
