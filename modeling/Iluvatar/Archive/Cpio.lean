/-
`CpioParser`: the incremental cpio parser, for the newc, newc-CRC and odc formats.

The hash map of resolved inodes is an association list whose newest pair counts, and
the ordered map of deferred links is a list sorted by inode.  Each `feed` branch leaves
the parser as the source does, also when it fails.
-/
import Iluvatar.Archive.Text

namespace Iluvatar

def newcHeaderSize : Nat := 110

def newcMagic : List Byte := ascii "070701"

def newcCrcMagic : List Byte := ascii "070702"

def odcMagic : List Byte := ascii "070707"

def odcHeaderSize : Nat := 76

/-- End-of-archive marker filename. -/
def trailerName : String := "TRAILER!!!"

inductive CpioSubFormat where
  | newc
  | newcCrc
  | odc
  deriving DecidableEq, Repr

/-- Parsed cpio header fields. -/
structure CpioHeader where
  ino : Nat
  mode : Nat
  uid : Nat
  gid : Nat
  nlink : Nat
  mtime : Nat
  filesize : Nat
  devmajor : Nat
  devminor : Nat
  rdevmajor : Nat
  rdevminor : Nat
  namesize : Nat
  deriving DecidableEq, Repr

/-- A number field, `kind` being the word its errors use. -/
def parseNumber (radix : Nat) (kind : String) (data : List Byte) : Except Error Nat :=
  match fromUtf8 data with
  | none => .error (.invalidCpioHeader ("invalid UTF-8 in " ++ kind ++ " field"))
  | some s =>
    match fromStrRadix radix data with
    | none => .error (.invalidCpioHeader ("invalid " ++ kind ++ " field: " ++ debugText s))
    | some n => .ok n

def parseHex8 (data : List Byte) : Except Error Nat := parseNumber 16 "hex" data

def parseOctal (data : List Byte) : Except Error Nat := parseNumber 8 "octal" data

/-- Bytes `start` up to `start + len`. -/
def field (data : List Byte) (start len : Nat) : List Byte := (data.drop start).take len

/-- `as u32`. -/
def asU32 (n : Nat) : Nat := n % 2 ^ 32

def parseNewcHeader (data : List Byte) : Except Error CpioHeader :=
  if data.length < newcHeaderSize then .error (.invalidCpioHeader "header too short")
  else do
    let ino ← parseHex8 (field data 6 8)
    let mode ← parseHex8 (field data 14 8)
    let uid ← parseHex8 (field data 22 8)
    let gid ← parseHex8 (field data 30 8)
    let nlink ← parseHex8 (field data 38 8)
    let mtime ← parseHex8 (field data 46 8)
    let filesize ← parseHex8 (field data 54 8)
    let devmajor ← parseHex8 (field data 62 8)
    let devminor ← parseHex8 (field data 70 8)
    let rdevmajor ← parseHex8 (field data 78 8)
    let rdevminor ← parseHex8 (field data 86 8)
    let namesize ← parseHex8 (field data 94 8)
    .ok
      { ino
        mode := asU32 mode
        uid
        gid
        nlink := asU32 nlink
        mtime
        filesize
        devmajor := asU32 devmajor
        devminor := asU32 devminor
        rdevmajor := asU32 rdevmajor
        rdevminor := asU32 rdevminor
        namesize := asU32 namesize }

def parseOdcHeader (data : List Byte) : Except Error CpioHeader :=
  if data.length < odcHeaderSize then .error (.invalidCpioHeader "odc header too short")
  else do
    let dev ← parseOctal (field data 6 6)
    let rdev ← parseOctal (field data 42 6)
    let ino ← parseOctal (field data 12 6)
    let mode ← parseOctal (field data 18 6)
    let uid ← parseOctal (field data 24 6)
    let gid ← parseOctal (field data 30 6)
    let nlink ← parseOctal (field data 36 6)
    let mtime ← parseOctal (field data 48 11)
    let filesize ← parseOctal (field data 65 11)
    let namesize ← parseOctal (field data 59 6)
    .ok
      { ino
        mode := asU32 mode
        uid
        gid
        nlink := asU32 nlink
        mtime
        filesize
        devmajor := asU32 dev / 2 ^ 8
        devminor := asU32 dev % 2 ^ 8
        rdevmajor := asU32 rdev / 2 ^ 8
        rdevminor := asU32 rdev % 2 ^ 8
        namesize := asU32 namesize }

/-- Derive the entry type from Unix mode bits. -/
def entryTypeFromMode (mode : Nat) : EntryType :=
  let kind := mode / 2 ^ 12 % 2 ^ 4
  if kind = 0o10 then .regular
  else if kind = 0o04 then .directory
  else if kind = 0o12 then .symLink
  else if kind = 0o02 then .charDevice
  else if kind = 0o06 then .blockDevice
  else if kind = 0o01 then .fifo
  else if kind = 0o14 then .socket
  else .other (UInt8.ofNat (mode / 2 ^ 12))

/-- Alignment for newc format: pad to 4-byte boundary. -/
def align4 (offset : Nat) : Nat := (offset + 3) / 4 * 4

/-- Maximum accepted filename or symlink-target size. -/
def maxNameSize : Nat := 2 ^ 16

/-- Identifies a file across the archive. -/
structure InodeKey where
  devmajor : Nat
  devminor : Nat
  ino : Nat
  deriving DecidableEq, Repr

namespace InodeKey

/-- The order of the map of deferred links. -/
def before (a b : InodeKey) : Bool :=
  a.devmajor < b.devmajor ||
    (a.devmajor == b.devmajor &&
      (a.devminor < b.devminor || (a.devminor == b.devminor && a.ino < b.ino)))

end InodeKey

def inodeKey (hdr : CpioHeader) : InodeKey :=
  { devmajor := hdr.devmajor, devminor := hdr.devminor, ino := hdr.ino }

/-- Internal parser state. -/
inductive CpioState where
  | readingHeader
  | readingFilename (header : CpioHeader) (remaining : Nat) (buf : List Byte)
  | skippingNamePad (entry : ArchiveEntry) (remaining : Nat) (inode : InodeKey) (nlink : Nat)
  | readingLinkTarget (entry : ArchiveEntry) (remaining : Nat) (buf : List Byte)
  | skippingData (remaining : Nat)
  | skippingDataPad (remaining : Nat)
  | ended
  deriving DecidableEq, Repr

/-- Deferred entries by inode, in the order of the inodes. -/
abbrev DeferredLinks := List (InodeKey × List ArchiveEntry)

namespace DeferredLinks

/-- `entry(inode).or_default().push(entry)`. -/
def push (inode : InodeKey) (entry : ArchiveEntry) : DeferredLinks → DeferredLinks
  | [] => [(inode, [entry])]
  | (k, es) :: rest =>
    if k = inode then (k, es ++ [entry]) :: rest
    else if inode.before k then (inode, [entry]) :: (k, es) :: rest
    else (k, es) :: push inode entry rest

/-- The entries kept under an inode. -/
def under (inode : InodeKey) (links : DeferredLinks) : List ArchiveEntry :=
  (links.filter fun pair => pair.1 = inode).flatMap (·.2)

/-- The map without an inode. -/
def without (inode : InodeKey) (links : DeferredLinks) : DeferredLinks :=
  links.filter fun pair => pair.1 ≠ inode

/-- `into_values().flatten()`. -/
def flatten (links : DeferredLinks) : List ArchiveEntry := links.flatMap (·.2)

end DeferredLinks

structure CpioParser where
  state : CpioState
  headerBuf : List Byte
  streamPos : Nat
  subFormat : Option CpioSubFormat
  resolvedInodes : List (InodeKey × String)
  deferredLinks : DeferredLinks
  pending : List ArchiveEntry
  deriving DecidableEq, Repr

namespace CpioParser

def new : CpioParser :=
  { state := .readingHeader
    headerBuf := []
    streamPos := 0
    subFormat := none
    resolvedInodes := []
    deferredLinks := []
    pending := [] }

/-- Report a member as a hard link to `path`. -/
def linkTo (path : String) (entry : ArchiveEntry) : ArchiveEntry :=
  { entry with entryType := .hardLink, linkTarget := some path }

/-- Hardlink resolution at emission time: the entry to emit now, or `none` if it was
deferred until its inode's data-bearing member arrives. -/
def applyHardlinkPolicy (p : CpioParser) (entry : ArchiveEntry) (inode : InodeKey) (nlink : Nat) :
    Option ArchiveEntry × CpioParser :=
  if entry.entryType ≠ .regular ∨ nlink ≤ 1 then (some entry, p)
  else if 0 < entry.size then
    (some entry, { p with
      resolvedInodes := (inode, entry.path) :: p.resolvedInodes
      pending := p.pending ++ (p.deferredLinks.under inode).map (linkTo entry.path)
      deferredLinks := p.deferredLinks.without inode })
  else
    match p.resolvedInodes.lookup inode with
    | some path => (some (linkTo path entry), p)
    | none => (none, { p with deferredLinks := p.deferredLinks.push inode entry })

/-- Size of the current format's header. -/
def headerSize (p : CpioParser) : Nat :=
  match p.subFormat with
  | some .odc => odcHeaderSize
  | _ => newcHeaderSize

/-- Whether the current format uses 4-byte alignment padding. -/
def usesAlignment (p : CpioParser) : Bool :=
  match p.subFormat with
  | some .odc => false
  | _ => true

/-- The padding after `size` bytes. -/
def padding (p : CpioParser) (size : Nat) : Nat :=
  if p.usesAlignment then align4 size - size else 0

/-- What a call answers, and the parser it leaves. -/
abbrev Answer := Except Error (Nat × ArchiveEvent) × CpioParser

/-- Take bytes into the header buffer. -/
def buffer (p : CpioParser) (data : List Byte) : CpioParser :=
  { p with headerBuf := p.headerBuf ++ data, streamPos := p.streamPos + data.length }

def magicOk (p : CpioParser) (magic : List Byte) : Bool :=
  match p.subFormat with
  | some .odc => magic == odcMagic
  | _ => magic == newcMagic || magic == newcCrcMagic

def parseHeader (p : CpioParser) (data : List Byte) : Except Error CpioHeader :=
  match p.subFormat with
  | some .odc => parseOdcHeader data
  | _ => parseNewcHeader data

def processHeader (p : CpioParser) (consumed : Nat) : Answer :=
  let magic := p.headerBuf.take 6
  if p.magicOk magic = false then
    (.error (.invalidCpioHeader ("bad magic " ++ debugText (fromUtf8Lossy magic) ++ " at offset " ++
      toString (p.streamPos - p.headerBuf.length))), p)
  else
    match p.parseHeader p.headerBuf with
    | .error e => (.error e, p)
    | .ok hdr =>
      if maxNameSize < hdr.namesize then
        (.error (.invalidCpioHeader ("implausible namesize " ++ toString hdr.namesize)), p)
      else
        (.ok (consumed, .needData), { p with
          headerBuf := []
          state := .readingFilename hdr hdr.namesize [] })

/-- Buffer the header up to its size, `consumed` bytes of the data being taken already. -/
def fillHeader (p : CpioParser) (consumed : Nat) (data : List Byte) : Answer :=
  let available := min (data.length - consumed) (p.headerSize - p.headerBuf.length)
  let p := p.buffer ((data.drop consumed).take available)
  if p.headerBuf.length < p.headerSize then (.ok (consumed + available, .needData), p)
  else p.processHeader (consumed + available)

def subFormatOf (magic : List Byte) : Option CpioSubFormat :=
  if magic = newcMagic then some .newc
  else if magic = newcCrcMagic then some .newcCrc
  else if magic = odcMagic then some .odc
  else none

def feedHeader (p : CpioParser) (data : List Byte) : Answer :=
  if data.isEmpty then (.ok (0, .needData), p)
  else
    match p.subFormat with
    | some _ => p.fillHeader 0 data
    | none =>
      let take := min data.length (6 - p.headerBuf.length)
      let p := p.buffer (data.take take)
      if p.headerBuf.length < 6 then (.ok (take, .needData), p)
      else
        match subFormatOf (p.headerBuf.take 6) with
        | none =>
          (.error (.invalidCpioHeader ("unrecognized cpio magic: " ++
            toString ((p.headerBuf.take 6).map UInt8.toNat))), p)
        | some format => { p with subFormat := some format }.fillHeader take data

/-- The event of an entry, if it is not deferred. -/
def eventOf : Option ArchiveEntry → ArchiveEvent
  | some entry => .entry entry
  | none => .needData

/-- Go on after a member's header, the data beginning here.  `skip` bytes are taken. -/
def transitionToData (p : CpioParser) (skip : Nat) (entry : ArchiveEntry) (inode : InodeKey)
    (nlink : Nat) : Answer :=
  let entry := { entry with dataOffset := p.streamPos }
  if entry.entryType = .symLink ∧ 0 < entry.size then
    if maxNameSize < entry.size then
      (.error (.invalidCpioHeader ("implausible symlink target size " ++ toString entry.size)), p)
    else (.ok (skip, .needData), { p with state := .readingLinkTarget entry entry.size [] })
  else if 0 < entry.size then
    let p := { p with state := .skippingData (entry.size + p.padding entry.size) }
    let (emitted, p) := p.applyHardlinkPolicy entry inode nlink
    (.ok (skip, eventOf emitted), p)
  else
    let p := { p with state := .readingHeader }
    let (emitted, p) := p.applyHardlinkPolicy entry inode nlink
    (.ok (skip, eventOf emitted), p)

/-- The name in a header's name field. -/
def filenameOf (buf : List Byte) : String := String.ofList (trimEndMatches '\x00' (lossyChars buf))

/-- Go on with the member, or the trailer, whose name is complete; `take` bytes are taken. -/
def filenameComplete (p : CpioParser) (take : Nat) (hdr : CpioHeader) (filename : String) : Answer :=
  if filename = trailerName then
    -- Members whose inode never got a data-bearing member come out now.
    let pending := p.pending ++ p.deferredLinks.flatten
    let p := { p with deferredLinks := [], state := .ended }
    match pending with
    | entry :: pending => (.ok (take, .entry entry), { p with pending })
    | [] => (.ok (take, .endOfArchive), { p with pending := [] })
  else
    let namePad := p.padding (p.headerSize + hdr.namesize)
    let entry : ArchiveEntry :=
      { path := filename
        size := hdr.filesize
        entryType := entryTypeFromMode hdr.mode
        mode := hdr.mode % 2 ^ 12
        uid := hdr.uid
        gid := hdr.gid
        mtime := hdr.mtime
        linkTarget := none
        dataOffset := p.streamPos + namePad }
    if 0 < namePad then
      (.ok (take, .needData), { p with
        state := .skippingNamePad entry namePad (inodeKey hdr) hdr.nlink })
    else p.transitionToData take entry (inodeKey hdr) hdr.nlink

def feedFilename (p : CpioParser) (hdr : CpioHeader) (remaining : Nat) (buf data : List Byte) :
    Answer :=
  if data.isEmpty then (.ok (0, .needData), p)
  else
    let take := min data.length remaining
    let buf := buf ++ data.take take
    let p := { p with
      state := .readingFilename hdr (remaining - take) buf
      streamPos := p.streamPos + take }
    if 0 < remaining - take then (.ok (take, .needData), p)
    else p.filenameComplete take hdr (filenameOf buf)

def feedSkipNamePad (p : CpioParser) (entry : ArchiveEntry) (remaining : Nat) (inode : InodeKey)
    (nlink : Nat) (data : List Byte) : Answer :=
  if data.isEmpty then (.ok (0, .needData), p)
  else
    let skip := min data.length remaining
    let p := { p with
      state := .skippingNamePad entry (remaining - skip) inode nlink
      streamPos := p.streamPos + skip }
    if 0 < remaining - skip then (.ok (skip, .needData), p)
    else { p with state := .ended }.transitionToData skip entry inode nlink

def feedLinkTarget (p : CpioParser) (entry : ArchiveEntry) (remaining : Nat) (buf data : List Byte) :
    Answer :=
  if data.isEmpty then (.ok (0, .needData), p)
  else
    let take := min data.length remaining
    let buf := buf ++ data.take take
    let p := { p with
      state := .readingLinkTarget entry (remaining - take) buf
      streamPos := p.streamPos + take }
    if 0 < remaining - take then (.ok (take, .needData), p)
    else
      -- Symlink data is not file data for indexing, so the size is 0.
      let entry := { entry with linkTarget := some (fromUtf8Lossy buf), size := 0 }
      let dataPad := p.padding (p.streamPos - entry.dataOffset)
      let state := if 0 < dataPad then .skippingDataPad dataPad else .readingHeader
      (.ok (take, .entry entry), { p with state })

/-- Skip bytes: what is left to skip decides the state. -/
def feedSkip (p : CpioParser) (left : Nat → CpioState) (remaining : Nat) (data : List Byte) : Answer :=
  if data.isEmpty then (.ok (0, .needData), p)
  else
    let skip := min data.length remaining
    let state := if remaining - skip = 0 then .readingHeader else left (remaining - skip)
    (.ok (skip, .needData), { p with state, streamPos := p.streamPos + skip })

def feedSkipData (p : CpioParser) (remaining : Nat) (data : List Byte) : Answer :=
  p.feedSkip .skippingData remaining data

def feedSkipDataPad (p : CpioParser) (remaining : Nat) (data : List Byte) : Answer :=
  p.feedSkip .skippingDataPad remaining data

def feed (p : CpioParser) (data : List Byte) : Answer :=
  match p.pending with
  | entry :: pending => (.ok (0, .entry entry), { p with pending })
  | [] =>
    match p.state with
    | .readingHeader => p.feedHeader data
    | .readingFilename hdr remaining buf => p.feedFilename hdr remaining buf data
    | .skippingNamePad entry remaining inode nlink =>
      p.feedSkipNamePad entry remaining inode nlink data
    | .readingLinkTarget entry remaining buf => p.feedLinkTarget entry remaining buf data
    | .skippingData remaining => p.feedSkipData remaining data
    | .skippingDataPad remaining => p.feedSkipDataPad remaining data
    | .ended => (.ok (0, .endOfArchive), p)

def endOfStream (p : CpioParser) : Except Error Unit :=
  match p.state with
  | .ended => .ok ()
  | .readingHeader =>
    if p.headerBuf.isEmpty then
      .error (.truncatedArchive ("stream ended before the " ++ trailerName ++ " member"))
    else .error (.truncatedArchive "stream ended inside a header")
  | .readingFilename .. => .error (.truncatedArchive "stream ended inside a header")
  | .skippingData remaining =>
    .error (.truncatedArchive ("stream ended " ++ toString remaining ++
      " bytes before the end of a member"))
  | .skippingNamePad .. | .readingLinkTarget .. | .skippingDataPad .. =>
    .error (.truncatedArchive "stream ended inside a member")

/-- The parsers of the engine: this one for cpio, `others` for the other formats. -/
def among {ρ : Type} (others : ArchiveParser ρ) : ArchiveParser (CpioParser ⊕ ρ) where
  create
    | .cpio => .inl new
    | format => .inr (others.create format)
  feed
    | .inl p, data => let (answer, p) := p.feed data; (answer.mapError .error, .inl p)
    | .inr p, data => let (answer, p) := others.feed p data; (answer, .inr p)
  endOfStream
    | .inl p => p.endOfStream
    | .inr p => others.endOfStream p

end CpioParser
end Iluvatar
