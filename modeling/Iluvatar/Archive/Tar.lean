/-
`TarParser`: the incremental tar parser, for V7, ustar, GNU and PAX archives.

`headerBuf` is `header_buf[..header_pos]`.  Numbers are bounded where the source checks
that they fit.
-/
import Iluvatar.Archive.Text

namespace Iluvatar

inductive TarEntryType where
  | regular
  | hardLink
  | symLink
  | charDevice
  | blockDevice
  | directory
  | fifo
  | gnuLongName
  | gnuLongLink
  | paxExtended
  | paxGlobal
  | other (code : UInt8)
  deriving DecidableEq, Repr

namespace TarEntryType

/-- Parse from the typeflag byte in a tar header. -/
def fromByte (b : Byte) : TarEntryType :=
  if b = 48 ∨ b = 0 ∨ b = 55 then .regular
  else if b = 49 then .hardLink
  else if b = 50 then .symLink
  else if b = 51 then .charDevice
  else if b = 52 then .blockDevice
  else if b = 53 then .directory
  else if b = 54 then .fifo
  else if b = 76 then .gnuLongName
  else if b = 75 then .gnuLongLink
  else if b = 120 then .paxExtended
  else if b = 103 then .paxGlobal
  else .other b

def isMetadata : TarEntryType → Bool
  | .gnuLongName | .gnuLongLink | .paxExtended | .paxGlobal => true
  | _ => false

/-- The name of a metadata type in an error. -/
def metadataName : TarEntryType → String
  | .gnuLongName => "GnuLongName"
  | .gnuLongLink => "GnuLongLink"
  | .paxExtended => "PaxExtended"
  | _ => "PaxGlobal"

def toEntryType : TarEntryType → EntryType
  | .regular => .regular
  | .hardLink => .hardLink
  | .symLink => .symLink
  | .charDevice => .charDevice
  | .blockDevice => .blockDevice
  | .directory => .directory
  | .fifo => .fifo
  | .gnuLongName => .other 76
  | .gnuLongLink => .other 75
  | .paxExtended => .other 120
  | .paxGlobal => .other 103
  | .other b => .other b

end TarEntryType

/-- A parsed tar entry. -/
structure TarEntry where
  path : String
  size : Nat
  entryType : TarEntryType
  mode : Nat
  uid : Nat
  gid : Nat
  mtime : Nat
  linkTarget : Option String
  dataOffset : Nat
  deriving DecidableEq, Repr

namespace Tar

def blockSize : Nat := 512

/-- Maximum size accepted for metadata entries. -/
def maxMetadataSize : Nat := 2 ^ 20

/-- The value of a binary field, if it fits in 64 bits. -/
def binaryValue : Nat → List Byte → Option Nat
  | value, [] => some value
  | value, b :: bs => if value / 2 ^ 56 ≠ 0 then none else binaryValue (value * 256 + b.toNat) bs

/-- Parse a number field: octal, or GNU binary where the high bit of the first byte is set. -/
def parseOctal (field : List Byte) : Except Error Nat :=
  if 128 ≤ (field.headD 0).toNat then
    match binaryValue 0 (field.drop 1) with
    | some value => .ok value
    | none => .error (.invalidTarHeader "binary numeric field exceeds u64")
  else
    let digits := field.takeWhile fun b => b != 0 && b != 32
    if digits.isEmpty then .ok 0
    else
      match fromUtf8 digits with
      | none => .error (.invalidTarHeader "invalid octal field")
      | some s =>
        match fromStrRadix 8 digits with
        | some n => .ok n
        | none => .error (.invalidTarHeader ("invalid octal: " ++ debugText s))

/-- A null-terminated string of a header field. -/
def parseString (field : List Byte) : List Byte := field.takeWhile (· != 0)

def isZeroBlock (block : List Byte) : Bool := block.all (· == 0)

/-- Bytes `start` up to `start + len` of a header. -/
def slice (header : List Byte) (start len : Nat) : List Byte := (header.drop start).take len

/-- The header with its checksum field read as spaces. -/
def blanked (header : List Byte) : List Byte :=
  header.take 148 ++ List.replicate 8 32 ++ header.drop 156

/-- Validate the header checksum, summed over unsigned or signed bytes. -/
def validateChecksum (header : List Byte) : Bool :=
  match parseOctal (slice header 148 8) with
  | .error _ => false
  | .ok value =>
    let stored := value % 2 ^ 32
    let unsignedSum := ((blanked header).map UInt8.toNat).sum
    let signedSum := ((blanked header).map fun b =>
      if b.toNat < 128 then (b.toNat : Int) else (b.toNat : Int) - 256).sum
    stored == unsignedSum || (stored : Int) == signedSum % 2 ^ 32

/-- Parse a header block; the entry's data starts at `dataOffset`. -/
def parseHeader (header : List Byte) (dataOffset : Nat) : Except Error TarEntry :=
  if validateChecksum header = false then .error (.invalidTarHeader "checksum mismatch")
  else do
    let name := fromUtf8Lossy (parseString (slice header 0 100))
    let mode ← parseOctal (slice header 100 8)
    let uid ← parseOctal (slice header 108 8)
    let gid ← parseOctal (slice header 116 8)
    let size ← parseOctal (slice header 124 12)
    let mtime ← parseOctal (slice header 136 12)
    let entryType := TarEntryType.fromByte (header.getD 156 0)
    let linkname := parseString (slice header 157 100)
    if 2 ^ 64 - 1 - blockSize < size then
      .error (.invalidTarHeader ("entry size " ++ toString size ++ " too large"))
    else if entryType = .other 83 then
      .error (.invalidTarHeader "GNU sparse entries (typeflag 'S') are not supported")
    else
      let pathStart := if slice header 257 6 = ascii "ustar" ++ [0] then
        parseString (slice header 345 155) else []
      .ok
        { path := if pathStart.isEmpty then name else fromUtf8Lossy pathStart ++ "/" ++ name
          size
          entryType
          mode := mode % 2 ^ 32
          uid
          gid
          mtime
          linkTarget := if linkname.isEmpty then none else some (fromUtf8Lossy linkname)
          dataOffset }

/-- Padded size, rounded up to a block boundary.  Where that passes 64 bits it wraps, as in a release build;
a debug build panics instead. -/
def paddedSize (size : Nat) : Nat := (size + (blockSize - 1)) / blockSize * blockSize % 2 ^ 64

end Tar

/-- Internal parser state. -/
inductive TarState where
  | readingHeader
  | skippingData (remaining : Nat)
  | readingPaxData (remaining size : Nat) (buf : List Byte)
  | readingGnuLong (remaining size : Nat) (buf : List Byte) (isLink : Bool)
  | oneZeroBlock
  | ended
  deriving DecidableEq, Repr

structure TarParser where
  state : TarState
  headerBuf : List Byte
  streamPos : Nat
  paxPath : Option String
  paxLinkpath : Option String
  paxSize : Option Nat
  gnuLongName : Option String
  gnuLongLink : Option String
  deriving DecidableEq, Repr

namespace TarParser

open Tar (blockSize)

def new : TarParser :=
  { state := .readingHeader
    headerBuf := []
    streamPos := 0
    paxPath := none
    paxLinkpath := none
    paxSize := none
    gnuLongName := none
    gnuLongLink := none }

/-- What a call answers, and the parser it leaves. -/
abbrev Answer := Except Fault (Nat × ArchiveEvent) × TarParser

/-- A decimal number that fits in 64 bits. -/
def parseU64 (digits : List Byte) : Option Nat :=
  (fromStrRadix 10 digits).filter fun n => decide (n < 2 ^ 64)

/-- Take one PAX record, its length and the space after it read already. -/
def paxRecord (p : TarParser) (record : List Byte) : TarParser :=
  let record := if record.getLast? = some 10 then record.dropLast else record
  if record.contains 61 then
    let key := record.takeWhile (· != 61)
    let value := record.drop (key.length + 1)
    if key = ascii "path" then { p with paxPath := some (fromUtf8Lossy value) }
    else if key = ascii "linkpath" then { p with paxLinkpath := some (fromUtf8Lossy value) }
    else if key = ascii "size" then
      match parseU64 value with
      | some size => { p with paxSize := some size }
      | none => p
    else p
  else p

/-- Parse PAX extended header data from `pos` on.  Records are walked by their declared
lengths, which count the whole record.  `none` models the panic where the end of a record
overflows.  `fuel` is at least the number of bytes. -/
def parsePaxData : Nat → TarParser → Nat → List Byte → Option TarParser
  | 0, p, _, _ => some p
  | fuel + 1, p, pos, data =>
    if data.contains 32 then
      let digits := data.takeWhile (· != 32)
      match parseU64 digits with
      | none => some p
      | some len =>
        if len ≤ digits.length then some p
        else if 2 ^ 64 ≤ pos + len then none
        else if data.length < len then some p
        else
          parsePaxData fuel (p.paxRecord ((data.take len).drop (digits.length + 1))) (pos + len)
            (data.drop len)
    else some p

/-- The entry as the archive gives it, and as the index gets it. -/
def toArchiveEntry (e : TarEntry) : ArchiveEntry :=
  { path := e.path
    size := e.size
    entryType := e.entryType.toEntryType
    mode := e.mode % 2 ^ 12
    uid := e.uid
    gid := e.gid
    mtime := e.mtime
    linkTarget := e.linkTarget
    dataOffset := e.dataOffset }

/-- Apply pending PAX and GNU attributes.  GNU long names and links win. -/
def applyPending (p : TarParser) (e : TarEntry) : TarEntry × TarParser :=
  ({ e with
      path := p.gnuLongName.getD (p.paxPath.getD e.path)
      linkTarget := (p.gnuLongLink.orElse fun _ => p.paxLinkpath).orElse fun _ => e.linkTarget
      size := p.paxSize.getD e.size },
    { p with
      paxPath := none, paxLinkpath := none, paxSize := none, gnuLongName := none, gnuLongLink := none })

/-- Handle the complete, non-zero header block. -/
def processHeader (p : TarParser) (block : List Byte) : Except Error ArchiveEvent × TarParser :=
  match Tar.parseHeader block p.streamPos with
  | .error e => (.error e, p)
  | .ok entry =>
    if entry.entryType.isMetadata ∧ Tar.maxMetadataSize < entry.size then
      (.error (.invalidTarHeader ("metadata entry (" ++ entry.entryType.metadataName ++
        ") declares implausible size " ++ toString entry.size)), p)
    else
      let padded := Tar.paddedSize entry.size
      match entry.entryType with
      | .paxExtended => (.ok .needData, { p with state := .readingPaxData padded entry.size [] })
      | .paxGlobal => (.ok .needData, { p with state := .skippingData padded })
      | .gnuLongName => (.ok .needData, { p with state := .readingGnuLong padded entry.size [] false })
      | .gnuLongLink => (.ok .needData, { p with state := .readingGnuLong padded entry.size [] true })
      | _ =>
        let (entry, p) := p.applyPending entry
        let padded := Tar.paddedSize entry.size
        (.ok (.entry (toArchiveEntry entry)), { p with
          state := if 0 < padded then .skippingData padded else .readingHeader })

/-- The answer of a call that took `n` bytes. -/
def taking (n : Nat) (a : Except Error ArchiveEvent × TarParser) : Answer :=
  ((a.1.mapError .error).map fun event => (n, event), a.2)

/-- The first block of two may be zero. -/
def headerComplete (p : TarParser) (block : List Byte) : Except Error ArchiveEvent × TarParser :=
  if Tar.isZeroBlock block then (.ok .needData, { p with state := .oneZeroBlock })
  else p.processHeader block

/-- A second zero block ends the archive; after a lone one comes an ordinary header. -/
def secondComplete (p : TarParser) (block : List Byte) : Except Error ArchiveEvent × TarParser :=
  if Tar.isZeroBlock block then (.ok .endOfArchive, { p with state := .ended })
  else p.processHeader block

/-- Fill the header block, then go on. -/
def feedBlock (p : TarParser) (complete : TarParser → List Byte → Except Error ArchiveEvent × TarParser)
    (data : List Byte) : Answer :=
  if data.isEmpty then (.ok (0, .needData), p)
  else
    let available := min data.length (blockSize - p.headerBuf.length)
    let block := p.headerBuf ++ data.take available
    let p := { p with headerBuf := block, streamPos := p.streamPos + available }
    if block.length < blockSize then (.ok (available, .needData), p)
    else taking available (complete { p with headerBuf := [] } block)

def feedHeader (p : TarParser) (data : List Byte) : Answer := p.feedBlock headerComplete data

def feedSecondZero (p : TarParser) (data : List Byte) : Answer := p.feedBlock secondComplete data

def feedSkip (p : TarParser) (remaining : Nat) (data : List Byte) : Answer :=
  if data.isEmpty then (.ok (0, .needData), p)
  else
    let skip := min data.length remaining
    (.ok (skip, .needData), { p with
      state := if remaining - skip = 0 then .readingHeader else .skippingData (remaining - skip)
      streamPos := p.streamPos + skip })

/-- Accumulate the bytes that are not block padding, up to `size` of them. -/
def gather (size : Nat) (buf data : List Byte) : List Byte := buf ++ data.take (size - buf.length)

def feedPax (p : TarParser) (remaining size : Nat) (buf data : List Byte) : Answer :=
  if data.isEmpty then (.ok (0, .needData), p)
  else
    let take := min data.length remaining
    let buf := gather size buf (data.take take)
    let p := { p with
      state := .readingPaxData (remaining - take) size buf
      streamPos := p.streamPos + take }
    if remaining - take = 0 then
      match parsePaxData buf.length p 0 buf with
      | some p => (.ok (take, .needData), { p with state := .readingHeader })
      | none => (.error .panic, p)
    else (.ok (take, .needData), p)

/-- Keep a GNU long name or link for the next entry. -/
def keepLong (p : TarParser) (isLink : Bool) (buf : List Byte) : TarParser :=
  let name := String.ofList (trimEndMatches '\x00' (lossyChars buf))
  if isLink then { p with gnuLongLink := some name } else { p with gnuLongName := some name }

def feedGnuLong (p : TarParser) (remaining size : Nat) (buf : List Byte) (isLink : Bool)
    (data : List Byte) : Answer :=
  if data.isEmpty then (.ok (0, .needData), p)
  else
    let take := min data.length remaining
    let buf := gather size buf (data.take take)
    let p := { p with
      state := .readingGnuLong (remaining - take) size buf isLink
      streamPos := p.streamPos + take }
    if remaining - take = 0 then
      (.ok (take, .needData), { p.keepLong isLink buf with state := .readingHeader })
    else (.ok (take, .needData), p)

def feed (p : TarParser) (data : List Byte) : Answer :=
  match p.state with
  | .readingHeader => p.feedHeader data
  | .skippingData remaining => p.feedSkip remaining data
  | .readingPaxData remaining size buf => p.feedPax remaining size buf data
  | .readingGnuLong remaining size buf isLink => p.feedGnuLong remaining size buf isLink data
  | .oneZeroBlock => p.feedSecondZero data
  | .ended => (.ok (0, .endOfArchive), p)

/-- An extended header was read and its entry was not. -/
def pendingMetadata (p : TarParser) : Bool :=
  p.paxPath.isSome || p.paxLinkpath.isSome || p.paxSize.isSome || p.gnuLongName.isSome ||
    p.gnuLongLink.isSome

/-- The two end-of-archive zero blocks may be missing. -/
def endOfStream (p : TarParser) : Except Error Unit :=
  match p.state with
  | .readingHeader =>
    if p.headerBuf.isEmpty then
      if p.pendingMetadata then
        .error (.truncatedArchive "stream ended after an extended header, before its entry")
      else .ok ()
    else .error (.truncatedArchive "stream ended inside a header")
  | .oneZeroBlock | .ended => .ok ()
  | .skippingData remaining =>
    .error (.truncatedArchive ("stream ended " ++ toString remaining ++
      " bytes before the end of a member"))
  | .readingPaxData .. | .readingGnuLong .. =>
    .error (.truncatedArchive "stream ended inside an extended header")

end TarParser
end Iluvatar
