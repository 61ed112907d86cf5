/-
What a well-formed cpio archive is, and what is owed to its members.

`CpioArchive` reads an archive as its format has it: headers, names, data and their
padding, a trailer, and whatever follows the trailer.  `Books` says where each member
met so far has got to: recorded, waiting to be reported, or deferred until its inode's
data-bearing member.
-/
import Iluvatar.Archive.Cpio
import Iluvatar.Engine.IndexingEngine
import Mathlib.Data.List.Perm.Basic

namespace Iluvatar

/-- What identifies a member in an index: where its data lies, and all its header says
that hard-link resolution does not touch. -/
structure MemberKey where
  path : String
  mode : Nat
  uid : Nat
  gid : Nat
  mtime : Nat
  dataOffset : Nat
  deriving DecidableEq, Repr

def ArchiveEntry.key (e : ArchiveEntry) : MemberKey :=
  { path := e.path, mode := e.mode, uid := e.uid, gid := e.gid, mtime := e.mtime
    dataOffset := e.dataOffset }

def IndexEntry.key (e : IndexEntry) : MemberKey :=
  { path := e.path, mode := e.mode, uid := e.uid, gid := e.gid, mtime := e.mtime
    dataOffset := e.uncompressedOffset }

namespace CpioSubFormat

def headerLen : CpioSubFormat → Nat
  | .odc => odcHeaderSize
  | _ => newcHeaderSize

/-- Bytes of padding after `n` bytes. -/
def pad : CpioSubFormat → Nat → Nat
  | .odc, _ => 0
  | _, n => align4 n - n

def parse : CpioSubFormat → List Byte → Except Error CpioHeader
  | .odc => parseOdcHeader
  | _ => parseNewcHeader

/-- The newc formats may mix. -/
def HasMagic : CpioSubFormat → List Byte → Prop
  | .odc, header => header.take 6 = odcMagic
  | _, header => header.take 6 = newcMagic ∨ header.take 6 = newcCrcMagic

/-- A header of this format that says `hdr`. -/
structure Heads (format : CpioSubFormat) (header : List Byte) (hdr : CpioHeader) : Prop where
  length : header.length = format.headerLen
  magic : format.HasMagic header
  parses : format.parse header = .ok hdr

end CpioSubFormat

/-- A member as its header declares it. -/
structure CpioMember where
  entry : ArchiveEntry
  inode : InodeKey
  nlink : Nat
  deriving DecidableEq, Repr

namespace CpioMember

def declared (hdr : CpioHeader) (name : List Byte) (dataOffset : Nat) : CpioMember :=
  { entry :=
      { path := CpioParser.filenameOf name
        size := hdr.filesize
        entryType := entryTypeFromMode hdr.mode
        mode := hdr.mode % 2 ^ 12
        uid := hdr.uid
        gid := hdr.gid
        mtime := hdr.mtime
        linkTarget := none
        dataOffset }
    inode := inodeKey hdr
    nlink := hdr.nlink }

def key (m : CpioMember) : MemberKey := m.entry.key

/-- A hard link that carries the data of its inode. -/
def bears (m : CpioMember) : Bool :=
  decide (m.entry.entryType = .regular ∧ 1 < m.nlink ∧ 0 < m.entry.size)

/-- A hard link without data. -/
def bare (m : CpioMember) : Bool :=
  decide (m.entry.entryType = .regular ∧ 1 < m.nlink ∧ m.entry.size = 0)

/-- A hard link without data, none of `members` carrying the data of its inode. -/
def orphan (members : List CpioMember) (m : CpioMember) : Bool :=
  m.bare && members.all fun other => !(other.bears && other.inode == m.inode)

/-- How many members of an archive are hard links of a group without data. -/
def orphans (members : List CpioMember) : Nat := (members.filter (orphan members)).length

end CpioMember

/-- `bytes` are an archive from a header at offset `pos` on, with these members, and
`tail` after the trailer's name. -/
inductive CpioArchive (format : CpioSubFormat) (tail : List Byte) :
    Nat → List Byte → List CpioMember → Prop where
  | trailer {pos : Nat} {header name : List Byte} {hdr : CpioHeader} :
      format.Heads header hdr → name.length = hdr.namesize → name ≠ [] →
      CpioParser.filenameOf name = trailerName →
      CpioArchive format tail pos (header ++ (name ++ tail)) []
  | member {pos : Nat} {header name namePad data dataPad rest : List Byte} {hdr : CpioHeader}
      {members : List CpioMember} :
      format.Heads header hdr → name.length = hdr.namesize → name ≠ [] →
      CpioParser.filenameOf name ≠ trailerName →
      namePad.length = format.pad (format.headerLen + hdr.namesize) →
      data.length = hdr.filesize → dataPad.length = format.pad hdr.filesize →
      CpioArchive format tail
        (pos + header.length + name.length + namePad.length + data.length + dataPad.length) rest
        members →
      CpioArchive format tail pos (header ++ (name ++ (namePad ++ (data ++ (dataPad ++ rest)))))
        (CpioMember.declared hdr name (pos + header.length + name.length + namePad.length) :: members)

namespace DeferredLinks

/-- The inode of each deferred entry. -/
def inodes (links : DeferredLinks) : List InodeKey :=
  links.flatMap fun pair => pair.2.map fun _ => pair.1

theorem inodes_length (links : DeferredLinks) : links.inodes.length = links.flatten.length := by
  induction links with
  | nil => rfl
  | cons pair links ih =>
    simp only [inodes, flatten, List.flatMap_cons, List.length_append, List.length_map] at ih ⊢
    rw [ih]

theorem push_flatten (inode : InodeKey) (entry : ArchiveEntry) (links : DeferredLinks) :
    (push inode entry links).flatten.Perm (links.flatten ++ [entry]) := by
  induction links with
  | nil => exact List.Perm.refl _
  | cons pair links ih =>
    obtain ⟨k, es⟩ := pair
    rw [push]
    by_cases hsame : k = inode
    · rw [if_pos hsame]
      show (es ++ [entry] ++ flatten links).Perm (es ++ flatten links ++ [entry])
      rw [List.append_assoc, List.append_assoc]
      exact List.Perm.append_left es List.perm_append_comm
    · rw [if_neg hsame]
      by_cases hbefore : inode.before k = true
      · rw [if_pos hbefore]
        show ([entry] ++ (es ++ flatten links)).Perm (es ++ flatten links ++ [entry])
        exact List.perm_append_comm
      · rw [if_neg hbefore]
        show (es ++ (push inode entry links).flatten).Perm (es ++ flatten links ++ [entry])
        rw [List.append_assoc]
        exact List.Perm.append_left es ih

theorem push_inodes (inode : InodeKey) (entry : ArchiveEntry) (links : DeferredLinks) :
    (push inode entry links).inodes.Perm (links.inodes ++ [inode]) := by
  induction links with
  | nil => exact List.Perm.refl _
  | cons pair links ih =>
    obtain ⟨k, es⟩ := pair
    rw [push]
    by_cases hsame : k = inode
    · rw [if_pos hsame]
      subst hsame
      show ((es ++ [entry]).map (fun _ => k) ++ inodes links).Perm
        (es.map (fun _ => k) ++ inodes links ++ [k])
      rw [List.map_append, List.append_assoc, List.append_assoc]
      exact List.Perm.append_left _ List.perm_append_comm
    · rw [if_neg hsame]
      by_cases hbefore : inode.before k = true
      · rw [if_pos hbefore]
        show ([inode] ++ (es.map (fun _ => k) ++ inodes links)).Perm
          (es.map (fun _ => k) ++ inodes links ++ [inode])
        exact List.perm_append_comm
      · rw [if_neg hbefore]
        show (es.map (fun _ => k) ++ (push inode entry links).inodes).Perm
          (es.map (fun _ => k) ++ inodes links ++ [inode])
        rw [List.append_assoc]
        exact List.Perm.append_left _ ih

theorem under_without (inode : InodeKey) (links : DeferredLinks) :
    (links.under inode ++ (links.without inode).flatten).Perm links.flatten := by
  induction links with
  | nil => exact List.Perm.refl _
  | cons pair links ih =>
    by_cases hsame : pair.1 = inode
    · have hunder : under inode (pair :: links) = pair.2 ++ under inode links := by
        simp [under, hsame]
      have hwithout : without inode (pair :: links) = without inode links := by
        simp [without, hsame]
      rw [hunder, hwithout, List.append_assoc]
      exact List.Perm.append_left _ ih
    · have hunder : under inode (pair :: links) = under inode links := by
        simp [under, hsame]
      have hwithout : (without inode (pair :: links)).flatten =
          pair.2 ++ (without inode links).flatten := by
        simp [without, flatten, hsame]
      rw [hunder, hwithout]
      have hswap : (under inode links ++ (pair.2 ++ (without inode links).flatten)).Perm
          (pair.2 ++ (under inode links ++ (without inode links).flatten)) := by
        rw [← List.append_assoc, ← List.append_assoc]
        exact List.Perm.append_right _ List.perm_append_comm
      exact hswap.trans (List.Perm.append_left _ ih)

theorem without_inodes (inode : InodeKey) (links : DeferredLinks) :
    (links.without inode).inodes = links.inodes.filter fun k => k ≠ inode := by
  induction links with
  | nil => rfl
  | cons pair links ih =>
    have hcons : inodes (pair :: links) = pair.2.map (fun _ => pair.1) ++ inodes links := rfl
    rw [hcons, List.filter_append]
    by_cases hsame : pair.1 = inode
    · have hwithout : without inode (pair :: links) = without inode links := by
        simp [without, hsame]
      have hnone : (pair.2.map fun _ => pair.1).filter (fun k => decide (k ≠ inode)) = [] := by
        rw [List.filter_eq_nil_iff]
        simp [hsame]
      rw [hwithout, ih, hnone, List.nil_append]
    · have hwithout : (without inode (pair :: links)).inodes =
          pair.2.map (fun _ => pair.1) ++ (without inode links).inodes := by
        simp [without, inodes, hsame]
      have hall : (pair.2.map fun _ => pair.1).filter (fun k => decide (k ≠ inode)) =
          pair.2.map fun _ => pair.1 := by
        rw [List.filter_eq_self]
        simp [hsame]
      rw [hwithout, ih, hall]

end DeferredLinks

/-- Where each member met so far has got to. -/
structure Books (p : CpioParser) (recorded : List MemberKey) (seen : List CpioMember) : Prop where
  keys : (recorded ++ (p.pending ++ p.deferredLinks.flatten).map ArchiveEntry.key).Perm
    (seen.map CpioMember.key)
  resolved : ∀ k, (p.resolvedInodes.lookup k).isSome = seen.any fun m => m.bears && m.inode == k
  deferred : p.deferredLinks.inodes.Perm
    ((seen.filter (CpioMember.orphan seen)).map CpioMember.inode)

namespace Books

variable {p p' : CpioParser} {recorded : List MemberKey} {seen : List CpioMember}

theorem new : Books CpioParser.new [] [] where
  keys := List.Perm.refl _
  resolved := fun _ => rfl
  deferred := List.Perm.refl _

/-- Only the lists of entries matter. -/
theorem same (h : Books p recorded seen) (hpending : p'.pending = p.pending)
    (hdeferred : p'.deferredLinks = p.deferredLinks)
    (hresolved : p'.resolvedInodes = p.resolvedInodes) : Books p' recorded seen where
  keys := by rw [hpending, hdeferred]; exact h.keys
  resolved := by rw [hresolved]; exact h.resolved
  deferred := by rw [hdeferred]; exact h.deferred

/-- An entry waiting to be reported is recorded. -/
theorem pop (h : Books p recorded seen) {entry : ArchiveEntry} {pending : List ArchiveEntry}
    (hpending : p.pending = entry :: pending) :
    Books { p with pending } (recorded ++ [entry.key]) seen where
  keys := by
    have hkeys := h.keys
    rw [hpending] at hkeys
    rw [List.append_assoc]
    exact hkeys
  resolved := h.resolved
  deferred := h.deferred

/-- At the trailer whatever is deferred waits to be reported. -/
theorem release (h : Books p recorded seen) :
    (recorded ++ (p.pending ++ p.deferredLinks.flatten).map ArchiveEntry.key).Perm
      (seen.map CpioMember.key) ∧ p.deferredLinks.flatten.length = CpioMember.orphans seen := by
  refine ⟨h.keys, ?_⟩
  rw [← DeferredLinks.inodes_length, h.deferred.length_eq, List.length_map]
  rfl

end Books

namespace CpioMember

variable {seen : List CpioMember} {m : CpioMember}

theorem orphan_snoc (x : CpioMember) :
    orphan (seen ++ [m]) x = (orphan seen x && !(m.bears && m.inode == x.inode)) := by
  simp [orphan, Bool.and_assoc]

/-- A member that carries no data leaves the orphans before it alone. -/
theorem filter_orphan_snoc (hbears : m.bears = false) :
    (seen ++ [m]).filter (orphan (seen ++ [m])) =
      seen.filter (orphan seen) ++ if orphan seen m then [m] else [] := by
  have hsame : orphan (seen ++ [m]) = orphan seen := by
    funext x
    rw [orphan_snoc, hbears, Bool.false_and, Bool.not_false, Bool.and_true]
  rw [hsame, List.filter_append, List.filter_cons, List.filter_nil]

/-- A member with data takes its group from the orphans. -/
theorem filter_orphan_bears (hbears : m.bears = true) :
    (seen ++ [m]).filter (orphan (seen ++ [m])) =
      (seen.filter (orphan seen)).filter fun x => x.inode ≠ m.inode := by
  have hbare : m.bare = false := by
    simp only [bears, decide_eq_true_eq] at hbears
    simp only [bare, decide_eq_false_iff_not]
    omega
  have hself : orphan (seen ++ [m]) m = false := by rw [orphan, hbare, Bool.false_and]
  rw [List.filter_append, List.filter_cons, List.filter_nil, hself, List.filter_filter]
  simp only [Bool.false_eq_true, if_false, List.append_nil]
  refine List.filter_congr fun x _ => ?_
  rw [orphan_snoc, hbears, Bool.true_and, Bool.and_comm]
  congr 1
  by_cases hsame : m.inode = x.inode
  · simp [hsame]
  · have hother : x.inode ≠ m.inode := fun h => hsame h.symm
    simp [hsame, hother]

end CpioMember

namespace Books

variable {p : CpioParser} {recorded : List MemberKey} {seen : List CpioMember} {m : CpioMember}

/-- A member reported at once, of no group or of one whose data is known. -/
theorem report (h : Books p recorded seen) (hbears : m.bears = false)
    (horphan : CpioMember.orphan seen m = false) :
    Books p (recorded ++ [m.key]) (seen ++ [m]) where
  keys := by
    rw [List.map_append (f := CpioMember.key)]
    have hmove : (recorded ++ [m.key] ++ (p.pending ++ p.deferredLinks.flatten).map
        ArchiveEntry.key).Perm (recorded ++ (p.pending ++ p.deferredLinks.flatten).map
        ArchiveEntry.key ++ [m.key]) := by
      rw [List.append_assoc, List.append_assoc]
      exact List.Perm.append_left _ List.perm_append_comm
    exact hmove.trans (List.Perm.append_right _ h.keys)
  resolved := by
    intro k
    rw [h.resolved, List.any_append, List.any_cons, hbears]
    simp
  deferred := by
    rw [CpioMember.filter_orphan_snoc hbears, horphan]
    simpa using h.deferred

/-- Hard-link resolution accounts for the member it is given. -/
theorem apply (h : Books p recorded seen) (m : CpioMember) {emitted : Option ArchiveEntry}
    {p' : CpioParser} (happly : p.applyHardlinkPolicy m.entry m.inode m.nlink = (emitted, p')) :
    Books p' (recorded ++ emitted.toList.map ArchiveEntry.key) (seen ++ [m]) := by
  rw [CpioParser.applyHardlinkPolicy] at happly
  by_cases hplain : m.entry.entryType ≠ .regular ∨ m.nlink ≤ 1
  · rw [if_pos hplain] at happly
    obtain ⟨rfl, rfl⟩ := Prod.mk.inj happly
    have hnot : ¬ (m.entry.entryType = .regular ∧ 1 < m.nlink) := by
      rintro ⟨hregular, hlinks⟩
      rcases hplain with hother | hfew
      · exact hother hregular
      · omega
    have hbears : m.bears = false := by
      simp only [CpioMember.bears, decide_eq_false_iff_not]
      exact fun hall => hnot ⟨hall.1, hall.2.1⟩
    have hbare : m.bare = false := by
      simp only [CpioMember.bare, decide_eq_false_iff_not]
      exact fun hall => hnot ⟨hall.1, hall.2.1⟩
    exact h.report hbears (by rw [CpioMember.orphan, hbare, Bool.false_and])
  · rw [if_neg hplain] at happly
    have hregular : m.entry.entryType = .regular := by
      by_contra hother
      exact hplain (.inl hother)
    have hlinks : 1 < m.nlink := by
      by_contra hfew
      exact hplain (.inr (by omega))
    by_cases hdata : 0 < m.entry.size
    · rw [if_pos hdata] at happly
      obtain ⟨rfl, rfl⟩ := Prod.mk.inj happly
      have hbears : m.bears = true := by simp [CpioMember.bears, hregular, hlinks, hdata]
      refine ⟨?_, ?_, ?_⟩
      · -- The deferred members of the group are waiting now, as links.
        have hlinked : ((p.deferredLinks.under m.inode).map
            (CpioParser.linkTo m.entry.path)).map ArchiveEntry.key =
            (p.deferredLinks.under m.inode).map ArchiveEntry.key := by
          rw [List.map_map]
          rfl
        have hgroup := (DeferredLinks.under_without m.inode p.deferredLinks).map ArchiveEntry.key
        show (recorded ++ [m.key] ++ ((p.pending ++ (p.deferredLinks.under m.inode).map
            (CpioParser.linkTo m.entry.path)) ++ (p.deferredLinks.without m.inode).flatten).map
            ArchiveEntry.key).Perm _
        rw [List.map_append, List.map_append, hlinked, List.map_append, List.append_assoc (p.pending.map _),
          ← List.map_append]
        have hwaiting : (p.pending.map ArchiveEntry.key ++ (p.deferredLinks.under m.inode ++
            (p.deferredLinks.without m.inode).flatten).map ArchiveEntry.key).Perm
            ((p.pending ++ p.deferredLinks.flatten).map ArchiveEntry.key) := by
          rw [@List.map_append _ _ ArchiveEntry.key p.pending]
          exact List.Perm.append_left _ hgroup
        have hmove : (recorded ++ [m.key] ++ (p.pending ++ p.deferredLinks.flatten).map
            ArchiveEntry.key).Perm (recorded ++ (p.pending ++ p.deferredLinks.flatten).map
            ArchiveEntry.key ++ [m.key]) := by
          rw [List.append_assoc, List.append_assoc]
          exact List.Perm.append_left _ List.perm_append_comm
        exact (List.Perm.append_left _ hwaiting).trans
          (hmove.trans (List.Perm.append_right _ h.keys))
      · intro k
        rw [List.any_append, ← h.resolved]
        by_cases hsame : k = m.inode
        · simp [hsame, hbears]
        · have hother : (k == m.inode) = false := by simp [hsame]
          have hother' : (m.inode == k) = false := by simp [Ne.symm hsame]
          simp [List.lookup_cons, hother, hother']
      · show (p.deferredLinks.without m.inode).inodes.Perm _
        rw [DeferredLinks.without_inodes, CpioMember.filter_orphan_bears hbears]
        have hfilter := h.deferred.filter fun k => decide (k ≠ m.inode)
        rw [List.filter_map] at hfilter
        exact hfilter
    · rw [if_neg hdata] at happly
      have hbears : m.bears = false := by
        simp only [CpioMember.bears, decide_eq_false_iff_not]
        exact fun hall => hdata hall.2.2
      have hbare : m.bare = true := by
        simp only [CpioMember.bare, decide_eq_true_eq]
        exact ⟨hregular, hlinks, by omega⟩
      have horphan : CpioMember.orphan seen m = (p.resolvedInodes.lookup m.inode).isNone := by
        rw [CpioMember.orphan, hbare, Bool.true_and, ← Option.not_isSome, h.resolved,
          List.not_any_eq_all_not]
      cases hlookup : p.resolvedInodes.lookup m.inode with
      | some path =>
        rw [hlookup] at happly horphan
        obtain ⟨rfl, rfl⟩ := Prod.mk.inj happly
        exact h.report hbears horphan
      | none =>
        rw [hlookup] at happly horphan
        obtain ⟨rfl, rfl⟩ := Prod.mk.inj happly
        refine ⟨?_, ?_, ?_⟩
        · show (recorded ++ [] ++ (p.pending ++ (p.deferredLinks.push m.inode m.entry).flatten).map
              ArchiveEntry.key).Perm _
          have hpush := (DeferredLinks.push_flatten m.inode m.entry p.deferredLinks).map
            ArchiveEntry.key
          rw [List.append_nil, List.map_append (f := CpioMember.key)]
          have hwaiting : ((p.pending ++ (p.deferredLinks.push m.inode m.entry).flatten).map
              ArchiveEntry.key).Perm
              ((p.pending ++ p.deferredLinks.flatten).map ArchiveEntry.key ++ [m.key]) := by
            rw [List.map_append, List.map_append, List.append_assoc]
            rw [List.map_append] at hpush
            exact List.Perm.append_left _ hpush
          have hall := List.Perm.append_left recorded hwaiting
          rw [← List.append_assoc] at hall
          exact hall.trans (List.Perm.append_right _ h.keys)
        · intro k
          rw [List.any_append, h.resolved, List.any_cons, hbears]
          simp
        · show (p.deferredLinks.push m.inode m.entry).inodes.Perm _
          rw [CpioMember.filter_orphan_snoc hbears, horphan, List.map_append]
          exact (DeferredLinks.push_inodes m.inode m.entry p.deferredLinks).trans
            (List.Perm.append_right _ h.deferred)

end Books
end Iluvatar
