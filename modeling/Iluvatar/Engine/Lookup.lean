/-
Finding entries of an index by their paths.

The lookup table is what collecting pairs of a path and a position into a map leaves: of
equal paths the last position.
-/
import Iluvatar.Archive.Text
import Iluvatar.Engine.IndexingEngine

namespace Iluvatar

variable {σ κ : Type}

namespace ArchiveIndex

/-- Where the last entry with this path stands. -/
def byPath (entries : List IndexEntry) (path : String) : Option Nat :=
  entries.zipIdx.foldl (fun found x => if x.1.path = path then some x.2 else found) none

/-- The path without the slashes at its end. -/
def trimSlashes (path : String) : String := String.ofList (trimEndMatches '/' path.toList)

/-- The path tried where there is no entry with the path itself. -/
def otherPath (path : String) : String :=
  if path.toList.getLast? = some '/' then trimSlashes path else path ++ "/"

/-- Look up a file by its path. -/
def get (index : ArchiveIndex σ κ) (path : String) : Option IndexEntry :=
  match (byPath index.entries path).or (byPath index.entries (otherPath path)) with
  | none => none
  | some position => index.entries[position]?

/-- Every member with this path, in archive order. -/
def getAll (index : ArchiveIndex σ κ) (path : String) : List IndexEntry :=
  let path := (index.get path).map IndexEntry.path
  index.entries.filter fun e => some e.path = path

/-- Whether a path is the directory or lies under it. -/
def isUnder (dir path : String) : Bool :=
  dir.toList.isPrefixOf path.toList &&
    ((path.toList.drop dir.toList.length).head?.isNone || (path.toList.drop dir.toList.length).head? == some '/')

/-- List the entries, or those under a directory. -/
def list (index : ArchiveIndex σ κ) (dir : Option String) : List IndexEntry :=
  match dir with
  | some dir => index.entries.filter fun e => isUnder (trimSlashes dir) e.path
  | none => index.entries

end ArchiveIndex
end Iluvatar
