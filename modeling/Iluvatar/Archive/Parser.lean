/-
Archive entries, the parser interface, and format detection.
-/
import Iluvatar.Compress.Decompressor

namespace Iluvatar

inductive EntryType where
  | regular
  | hardLink
  | symLink
  | charDevice
  | blockDevice
  | directory
  | fifo
  | socket
  | other (code : UInt8)
  deriving DecidableEq, Repr

/-- A parsed archive entry with path, metadata, and location. -/
structure ArchiveEntry where
  path : String
  size : Nat
  entryType : EntryType
  mode : Nat
  uid : Nat
  gid : Nat
  mtime : Nat
  linkTarget : Option String
  dataOffset : Nat
  deriving DecidableEq, Repr

inductive ArchiveFormat where
  | tar
  | cpio
  | ar
  deriving DecidableEq, Repr

inductive ArchiveEvent where
  | entry (e : ArchiveEntry)
  | needData
  | endOfArchive
  deriving DecidableEq, Repr

/-- The sans-I/O parsers, one for each format, over a state type `ρ`.  A call may panic. -/
structure ArchiveParser (ρ : Type) where
  /-- `create_archive_parser`. -/
  create : ArchiveFormat → ρ
  feed : ρ → List Byte → Except Fault (Nat × ArchiveEvent) × ρ
  endOfStream : ρ → Except Error Unit

/-- Minimum bytes needed for reliable archive format detection. -/
def minDetectBytes : Nat := 263

/-- The bytes of an ASCII literal. -/
def ascii (s : String) : List Byte := s.toList.map fun c => UInt8.ofNat c.toNat

/-- A literal is the text of its characters, which need not be decoded then. -/
theorem ascii_ofList (chars : List Char) :
    ascii (String.ofList chars) = chars.map fun c => UInt8.ofNat c.toNat := by
  unfold ascii
  rw [String.toList_ofList]

theorem ascii_append (s t : String) : ascii (s ++ t) = ascii s ++ ascii t := by
  unfold ascii
  rw [String.toList_append, List.map_append]

def arMagic : List Byte := ascii "!<arch>\n"

def thinMagic : List Byte := ascii "!<thin>\n"

/-- Detect the archive format from decompressed data; `none` asks for more. -/
def detectArchiveFormat (data : List Byte) : Option ArchiveFormat :=
  let cpioMagic : Bool :=
    match data with
    | b₀ :: b₁ :: _ =>
      let le := b₀.toNat + 256 * b₁.toNat
      let be := 256 * b₀.toNat + b₁.toNat
      le == 0o070707 || be == 0o070707
    | _ => false
  if 8 ≤ data.length ∧ (data.take 8 = arMagic ∨ data.take 8 = thinMagic) then some .ar
  else if 6 ≤ data.length ∧
      (data.take 6 = ascii "070701" ∨ data.take 6 = ascii "070702" ∨ data.take 6 = ascii "070707") then
    some .cpio
  else if cpioMagic then some .cpio
  else if minDetectBytes ≤ data.length then some .tar
  else none

end Iluvatar
