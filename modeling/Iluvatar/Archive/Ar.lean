/-
`ArParser`: the incremental ar parser, for the GNU and BSD variants.

An archive has no end marker, so the parser never reports one.
-/
import Iluvatar.Archive.Text

namespace Iluvatar

namespace Ar

/-- Size of a member header. -/
def headerSize : Nat := 60

/-- Terminator of every member header. -/
def fmag : List Byte := [96, 10]

/-- Maximum accepted BSD inline member name. -/
def maxNameSize : Nat := 2 ^ 16

/-- Maximum accepted GNU long-name table. -/
def maxNameTableSize : Nat := 64 * 2 ^ 20

/-- Drop trailing bytes equal to `b`. -/
def trimEnd (b : Byte) (data : List Byte) : List Byte := (data.reverse.dropWhile (· == b)).reverse

end Ar

/-- Parsed ar member header.  The name is the raw field with trailing spaces removed. -/
structure ArHeader where
  name : List Byte
  mtime : Nat
  uid : Nat
  gid : Nat
  mode : Nat
  size : Nat
  deriving DecidableEq, Repr

namespace Ar

/-- Parse a space-padded numeric field.  A blank field reads as zero. -/
def parseField (data : List Byte) (radix : Nat) (what : String) : Except Error Nat :=
  match fromUtf8 data with
  | none => .error (.invalidArHeader ("invalid UTF-8 in " ++ what ++ " field"))
  | some _ =>
    let digits := trimEnd 32 data
    if digits.isEmpty then .ok 0
    else
      match fromStrRadix radix digits with
      | none => .error (.invalidArHeader ("invalid " ++ what ++ " field: " ++ debugText (fromUtf8Lossy digits)))
      | some n => .ok n

/-- Parse a member header. -/
def parseHeader (data : List Byte) : Except Error ArHeader :=
  if data.length < headerSize then .error (.invalidArHeader "header too short")
  else if (data.drop 58).take 2 ≠ fmag then
    .error (.invalidArHeader ("bad header terminator: " ++
      toString (((data.drop 58).take 2).map UInt8.toNat)))
  else do
    let mtime ← parseField ((data.drop 16).take 12) 10 "mtime"
    let uid ← parseField ((data.drop 28).take 6) 10 "uid"
    let gid ← parseField ((data.drop 34).take 6) 10 "gid"
    let mode ← parseField ((data.drop 40).take 8) 8 "mode"
    let size ← parseField ((data.drop 48).take 10) 10 "size"
    .ok { name := trimEnd 32 (data.take 16), mtime, uid, gid, mode := mode % 2 ^ 32, size }

/-- Parse a decimal number embedded in a member name. -/
def parseNameNumber (digits : List Byte) : Option Nat :=
  if digits.isEmpty || !digits.all (fun b => decide (48 ≤ b.toNat ∧ b.toNat ≤ 57)) then none
  else fromStrRadix 10 digits

/-- How a member header is to be handled. -/
inductive Member where
  | skip
  | nameTable
  | bsdName (len : Nat)
  | named (path : String)
  deriving DecidableEq, Repr

end Ar

/-- Internal parser state. -/
inductive ArState where
  | readingMagic
  | readingHeader
  | readingNameTable (remaining pad : Nat) (buf : List Byte)
  | readingBsdName (header : ArHeader) (remaining : Nat) (buf : List Byte)
  | skippingData (remaining pad : Nat)
  deriving DecidableEq, Repr

structure ArParser where
  state : ArState
  headerBuf : List Byte
  streamPos : Nat
  nameTable : Option (List Byte)
  deriving DecidableEq, Repr

namespace ArParser

open Ar (Member)

def new : ArParser := { state := .readingMagic, headerBuf := [], streamPos := 0, nameTable := none }

/-- What a call answers, and the parser it leaves. -/
abbrev Answer := Except Error (Nat × ArchiveEvent) × ArParser

/-- Drop a slash at the end of a name. -/
def stripSlash (name : List Byte) : List Byte :=
  if name.getLast? = some 47 then name.dropLast else name

/-- Resolve a GNU `/<offset>` name.  Entries in the table end with `/\n` or NUL. -/
def lookupLongName (p : ArParser) (offset : Nat) : Except Error String :=
  match p.nameTable with
  | none => .error (.invalidArHeader "long name reference without a long-name table")
  | some table =>
    if table.length < offset then
      .error (.invalidArHeader ("long name offset " ++ toString offset ++ " out of range"))
    else
      let name := stripSlash ((table.drop offset).takeWhile fun b => b != 10 && b != 0)
      if name.isEmpty then .error (.invalidArHeader "empty member name")
      else .ok (fromUtf8Lossy name)

/-- Decide what a member is from its header name. -/
def classify (p : ArParser) (hdr : ArHeader) : Except Error Member :=
  if hdr.name = ascii "//" then .ok .nameTable
  else if hdr.name.take 1 = ascii "/" then
    match Ar.parseNameNumber (hdr.name.drop 1) with
    | some offset => (p.lookupLongName offset).map .named
    | none => .ok .skip
  else if hdr.name.take 3 = ascii "#1/" then
    let rest := hdr.name.drop 3
    match (Ar.parseNameNumber rest).filter fun len => decide (len ≤ Ar.maxNameSize ∧ len ≤ hdr.size) with
    | some len => .ok (.bsdName len)
    | none =>
      .error (.invalidArHeader ("invalid BSD name length " ++ debugText (fromUtf8Lossy rest) ++
        " for member of size " ++ toString hdr.size))
  else if hdr.name.take 9 = ascii "__.SYMDEF" then .ok .skip
  else
    let name := stripSlash hdr.name
    if name.isEmpty then .error (.invalidArHeader "empty member name")
    else .ok (.named (fromUtf8Lossy name))

/-- The entry of a member whose data starts at the current position. -/
def entry (p : ArParser) (path : String) (hdr : ArHeader) (size : Nat) : ArchiveEntry :=
  { path
    size
    entryType := .regular
    mode := hdr.mode % 2 ^ 12
    uid := hdr.uid
    gid := hdr.gid
    mtime := hdr.mtime
    linkTarget := none
    dataOffset := p.streamPos }

/-- Skip `data` member bytes followed by `pad` padding bytes. -/
def skip (p : ArParser) (data pad : Nat) : ArParser :=
  { p with state := if data + pad = 0 then .readingHeader else .skippingData (data + pad) pad }

/-- Take bytes into the header buffer. -/
def buffer (p : ArParser) (data : List Byte) : ArParser :=
  { p with headerBuf := p.headerBuf ++ data, streamPos := p.streamPos + data.length }

/-- The global header is complete. -/
def magicComplete (p : ArParser) : Except Error ArchiveEvent × ArParser :=
  if p.headerBuf = thinMagic then
    (.error (.invalidArHeader
      "thin archives are not supported (member data is stored outside the archive)"), p)
  else if p.headerBuf ≠ arMagic then
    (.error (.invalidArHeader ("unrecognized ar magic: " ++ toString (p.headerBuf.map UInt8.toNat))), p)
  else (.ok .needData, { p with headerBuf := [], state := .readingHeader })

/-- A member header is complete. -/
def headerComplete (p : ArParser) : Except Error ArchiveEvent × ArParser :=
  match Ar.parseHeader p.headerBuf with
  | .error e => (.error e, p)
  | .ok hdr =>
    let p := { p with headerBuf := [] }
    let pad := hdr.size % 2
    match p.classify hdr with
    | .error e => (.error e, p)
    | .ok .skip => (.ok .needData, p.skip hdr.size pad)
    | .ok .nameTable =>
      if Ar.maxNameTableSize < hdr.size then
        (.error (.invalidArHeader ("implausible long-name table size " ++ toString hdr.size)), p)
      else (.ok .needData, { p with state := .readingNameTable hdr.size pad [] })
    | .ok (.bsdName len) => (.ok .needData, { p with state := .readingBsdName hdr len [] })
    | .ok (.named path) => (.ok (.entry (p.entry path hdr hdr.size)), p.skip hdr.size pad)

/-- A BSD name is complete.  It is NUL-padded, and the member size includes it. -/
def bsdNameComplete (p : ArParser) (hdr : ArHeader) (buf : List Byte) :
    Except Error ArchiveEvent × ArParser :=
  let p := { p with state := .readingHeader }
  let name := Ar.trimEnd 0 buf
  let dataSize := hdr.size - buf.length
  let pad := hdr.size % 2
  if name.take 9 = ascii "__.SYMDEF" then (.ok .needData, p.skip dataSize pad)
  else if name.isEmpty then (.error (.invalidArHeader "empty member name"), p)
  else (.ok (.entry (p.entry (fromUtf8Lossy name) hdr dataSize)), p.skip dataSize pad)

/-- The answer of a call that took `n` bytes. -/
def taking (n : Nat) (a : Except Error ArchiveEvent × ArParser) : Answer :=
  (a.1.map fun event => (n, event), a.2)

/-- Fill the header buffer up to `size` bytes, then go on. -/
def feedBuffered (p : ArParser) (size : Nat) (complete : ArParser → Except Error ArchiveEvent × ArParser)
    (data : List Byte) : Answer :=
  let take := min data.length (size - p.headerBuf.length)
  let p := p.buffer (data.take take)
  if p.headerBuf.length ≠ size then (.ok (take, .needData), p) else taking take (complete p)

def feedMagic (p : ArParser) (data : List Byte) : Answer :=
  p.feedBuffered arMagic.length magicComplete data

def feedHeader (p : ArParser) (data : List Byte) : Answer :=
  p.feedBuffered Ar.headerSize headerComplete data

def feedNameTable (p : ArParser) (remaining pad : Nat) (buf data : List Byte) : Answer :=
  let take := min data.length remaining
  let buf := buf ++ data.take take
  let p := { p with
    state := .readingNameTable (remaining - take) pad buf
    streamPos := p.streamPos + take }
  if 0 < remaining - take then (.ok (take, .needData), p)
  else (.ok (take, .needData), { p with nameTable := some buf }.skip 0 pad)

def feedBsdName (p : ArParser) (hdr : ArHeader) (remaining : Nat) (buf data : List Byte) : Answer :=
  let take := min data.length remaining
  let buf := buf ++ data.take take
  let p := { p with
    state := .readingBsdName hdr (remaining - take) buf
    streamPos := p.streamPos + take }
  if 0 < remaining - take then (.ok (take, .needData), p)
  else taking take (p.bsdNameComplete hdr buf)

def feedSkipData (p : ArParser) (remaining pad : Nat) (data : List Byte) : Answer :=
  let skip := min data.length remaining
  let left := remaining - skip
  let state := if left = 0 then .readingHeader else .skippingData left (min pad left)
  (.ok (skip, .needData), { p with state, streamPos := p.streamPos + skip })

def feed (p : ArParser) (data : List Byte) : Answer :=
  if data.isEmpty then (.ok (0, .needData), p)
  else
    match p.state with
    | .readingMagic => p.feedMagic data
    | .readingHeader => p.feedHeader data
    | .readingNameTable remaining pad buf => p.feedNameTable remaining pad buf data
    | .readingBsdName hdr remaining buf => p.feedBsdName hdr remaining buf data
    | .skippingData remaining pad => p.feedSkipData remaining pad data

/-- The archive may end at any member boundary, or just before the final pad byte. -/
def endOfStream (p : ArParser) : Except Error Unit :=
  match p.state with
  | .readingMagic => .error (.truncatedArchive "stream ended inside the global header")
  | .readingHeader =>
    if p.headerBuf.isEmpty then .ok ()
    else .error (.truncatedArchive "stream ended inside a member header")
  | .readingNameTable .. => .error (.truncatedArchive "stream ended inside the long-name table")
  | .readingBsdName .. => .error (.truncatedArchive "stream ended inside a member name")
  | .skippingData remaining pad =>
    if remaining ≤ pad then .ok ()
    else
      .error (.truncatedArchive ("stream ended " ++ toString (remaining - pad) ++
        " bytes before the end of a member"))

end ArParser
end Iluvatar
