/-
Which members of a cpio archive an engine's index has.

A member deferred for the data of its hard-link group is released by the trailer, one
for each call of the parser, and the engine calls the parser only while it has bytes to
give.  So every member comes out exactly once when a byte follows the trailer's name, or
when at most one member is released by it; otherwise the rest of them are lost.
-/
import Iluvatar.Archive.CpioRuns
import Iluvatar.Archive.Detection
import Iluvatar.Engine.Delivery

namespace Iluvatar

open CpioMember (orphans)

variable {σ κ τ ρ : Type}

namespace IndexBuilder

/-- Looking up checkpoints leaves the entries' members alone. -/
theorem assemble_keys {b : IndexBuilder} {stream : StreamIndex σ κ} {complete : Bool}
    {index : ArchiveIndex σ κ} (h : b.assemble stream complete = some index) :
    index.entries.map IndexEntry.key = b.entries.map IndexEntry.key := by
  rw [assemble] at h
  obtain ⟨entries, hmap, rfl⟩ := Option.map_eq_some_iff.mp h
  show entries.map IndexEntry.key = _
  clear h
  generalize b.entries = before at hmap
  induction before generalizing entries with
  | nil =>
    obtain rfl := Option.some.inj hmap
    rfl
  | cons entry before ih =>
    rw [List.mapM_cons] at hmap
    obtain ⟨entry', hentry, hrest⟩ := Option.bind_eq_some_iff.mp hmap
    obtain ⟨rest, htail, hsame⟩ := Option.bind_eq_some_iff.mp hrest
    obtain rfl := Option.some.inj hsame
    obtain ⟨best, _, rfl⟩ := Option.map_eq_some_iff.mp hentry
    rw [List.map_cons, List.map_cons, ih rest htail]
    rfl

end IndexBuilder

namespace CpioParser

variable {format : CpioSubFormat} {tail plain : List Byte} {all : List CpioMember}

/-- The bytes given so far leave the parser standing in the archive. -/
def Within (format : CpioSubFormat) (tail : List Byte) (all : List CpioMember) (plain : List Byte)
    (d : List Byte) (q : CpioParser ⊕ ρ) (entries : List IndexEntry) : Prop :=
  ∃ p rest, q = .inl p ∧ plain = d ++ rest ∧
    Standing format tail all p rest (entries.map IndexEntry.key)

theorem among_feed_eq (others : ArchiveParser ρ) (p : CpioParser) (data : List Byte) :
    (among others).feed (.inl p) data = ((p.feed data).1.mapError .error, .inl (p.feed data).2) := rfl

theorem among_feed {others : ArchiveParser ρ} {p : CpioParser} {data : List Byte}
    {answer : Nat × ArchiveEvent} {q : CpioParser ⊕ ρ}
    (h : (among others).feed (.inl p) data = (.ok answer, q)) :
    ∃ p', q = .inl p' ∧ p.feed data = (.ok answer, p') := by
  rw [among_feed_eq] at h
  match hfeed : p.feed data with
  | (.ok answer', p') =>
    rw [hfeed] at h
    obtain ⟨hanswer, rfl⟩ := Prod.mk.inj h
    obtain rfl := Except.ok.inj hanswer
    exact ⟨p', rfl, rfl⟩
  | (.error e, p') =>
    rw [hfeed] at h
    obtain ⟨hanswer, _⟩ := Prod.mk.inj h
    cases hanswer

theorem within_next {d data rest : List Byte} {n : Nat} (hplain : plain = d ++ rest)
    (hbegins : d ++ data <+: plain) (hle : n ≤ data.length) :
    plain = (d ++ data.take n) ++ rest.drop n := by
  have hdata : data <+: rest := by
    rw [hplain] at hbegins
    exact (List.prefix_append_right_inj d).mp hbegins
  rw [take_of_begins hdata hle, List.append_assoc, List.take_append_drop]
  exact hplain

theorem prefix_rest {d data rest : List Byte} (hplain : plain = d ++ rest)
    (hbegins : d ++ data <+: plain) : data <+: rest := by
  rw [hplain] at hbegins
  exact (List.prefix_append_right_inj d).mp hbegins

/-- The cpio parser reads a well-formed archive in any pieces. -/
theorem reads (format : CpioSubFormat) (tail : List Byte) (all : List CpioMember) (plain : List Byte)
    (others : ArchiveParser ρ) :
    Reads (among others) plain (Within format tail all plain)
      (fun entries => Settled tail all (entries.map IndexEntry.key)) fun _ _ => True where
  needData := by
    rintro d data q q' b n ⟨p, rest, rfl, hplain, hstanding⟩ hne hbegins hfeed
    obtain ⟨p', rfl, hanswer⟩ := among_feed hfeed
    have hgood := feed_good hstanding hne (prefix_rest hplain hbegins)
    rw [hanswer] at hgood
    cases hgood with
    | needData hpos hle hstanding' =>
      exact ⟨hpos, hle, p', rest.drop n, rfl, within_next hplain hbegins hle, hstanding'⟩
  entry := by
    rintro d data q q' b n e ⟨p, rest, rfl, hplain, hstanding⟩ hne hbegins hfeed
    obtain ⟨p', rfl, hanswer⟩ := among_feed hfeed
    have hgood := feed_good hstanding hne (prefix_rest hplain hbegins)
    rw [hanswer] at hgood
    cases hgood with
    | entry hle hstanding' =>
      refine ⟨hle, p', rest.drop n, rfl, within_next hplain hbegins hle, ?_⟩
      have hrecorded : (b.addEntry e).entries.map IndexEntry.key =
          b.entries.map IndexEntry.key ++ [e.key] := List.map_append
      rw [hrecorded]
      exact hstanding'
  endOfArchive := by
    rintro d data q q' b n ⟨p, rest, rfl, hplain, hstanding⟩ hne hbegins hfeed
    obtain ⟨p', rfl, hanswer⟩ := among_feed hfeed
    have hgood := feed_good hstanding hne (prefix_rest hplain hbegins)
    rw [hanswer] at hgood
    cases hgood with
    | endOfArchive hsettled => exact hsettled
  error := fun _ _ _ _ _ _ _ _ _ _ => trivial
  truncated := fun _ _ _ _ _ => trivial
  endOfStream := by
    rintro q b ⟨p, rest, rfl, hplain, hstanding⟩ hend
    obtain rfl : rest = [] := by simpa using hplain
    exact endOfStream_settled hstanding hend

/-- A well-formed archive begins with a cpio magic. -/
theorem archive_magic {pos : Nat} (h : CpioArchive format tail pos plain all) :
    6 ≤ plain.length ∧ (plain.take 6 = newcMagic ∨ plain.take 6 = newcCrcMagic ∨
      plain.take 6 = odcMagic) := by
  obtain ⟨header, hdr, name, rest, rfl, hheads, _⟩ := h.heading
  have hlong := format.headerLen_ge
  have hlen := hheads.length
  have htake : (header ++ (name ++ rest)).take 6 = header.take 6 :=
    List.take_append_of_le_length (by omega)
  refine ⟨by rw [List.length_append]; omega, ?_⟩
  rw [htake]
  have hmagic := hheads.magic
  cases format with
  | newc => exact hmagic.imp_right .inl
  | newcCrc => exact hmagic.imp_right .inl
  | odc => exact .inr (.inr hmagic)

/-- No other format is detected in bytes that begin like a cpio archive. -/
theorem detected_cpio {d : List Byte} {found : ArchiveFormat}
    (hmagic : 6 ≤ d.length → d.take 6 = newcMagic ∨ d.take 6 = newcCrcMagic ∨ d.take 6 = odcMagic)
    (h : detectArchiveFormat d = some found) : found = .cpio := by
  have hnotAr : ¬ (8 ≤ d.length ∧ (d.take 8 = arMagic ∨ d.take 8 = thinMagic)) := by
    rintro ⟨hlen, hmagics⟩
    exact (arMagic_not_cpio hmagics).1 (hmagic (by omega))
  rw [detectArchiveFormat_cases, if_neg hnotAr] at h
  split at h
  · exact (Option.some.inj h).symm
  · rename_i hnotCpio
    split at h
    · exact (Option.some.inj h).symm
    · split at h
      · rename_i hlong
        have hsix : 6 ≤ d.length := Nat.le_trans (by decide) hlong
        exact absurd ⟨hsix, hmagic hsix⟩ hnotCpio
      · exact absurd h (by simp)

/-- A cpio archive is never left undetected. -/
theorem detectArchiveFormat_archive {pos : Nat} (h : CpioArchive format tail pos plain all) :
    detectArchiveFormat plain ≠ none := by
  obtain ⟨hlen, hmagic⟩ := archive_magic h
  rw [detectArchiveFormat_cases]
  split
  · simp
  · rw [if_pos ⟨hlen, hmagic⟩]
    simp

theorem within_start (harchive : CpioArchive format tail 0 plain all) (others : ArchiveParser ρ) :
    Within format tail all plain [] ((among others).create .cpio) [] :=
  ⟨new, plain, rfl, rfl, new_standing harchive⟩

theorem detects (harchive : CpioArchive format tail 0 plain all) (others : ArchiveParser ρ) :
    Detects (among others) plain (Within format tail all plain)
      fun entries => Settled tail all (entries.map IndexEntry.key) where
  detected := by
    intro d found hbegins hfound
    obtain ⟨_, hmagic⟩ := archive_magic harchive
    have hcpio : found = .cpio := by
      refine detected_cpio ?_ hfound
      intro hlen
      rwa [take_of_begins hbegins hlen]
    rw [hcpio]
    exact within_start harchive others
  undetected := fun hnone => absurd hnone (detectArchiveFormat_archive harchive)
  empty := by
    intro hnil
    obtain ⟨hlen, _⟩ := archive_magic harchive
    rw [hnil] at hlen
    exact absurd hlen (by decide)

variable {codec : Codec σ κ} {packed : List Byte} {At : σ → Nat → Nat → Prop}

/-- When the engine is done with a well-formed archive, every member is in its index exactly
once if and only if a byte follows the trailer's name or at most one member is a hard link of
a group without data. -/
theorem members_recorded_iff (impl : CheckpointStrategy τ) (hC : Obeys codec packed plain At)
    (harchive : CpioArchive format tail 0 plain all) (others : ArchiveParser ρ)
    {compression : CompressionFormat} {given : Option ArchiveFormat}
    (hgiven : given = none ∨ given = some .cpio) {strategy : τ} {archiveSize : Nat}
    {e : IndexingEngine σ κ τ (CpioParser ⊕ ρ)} {es : List EngineEvent}
    {s : EngineSession σ κ τ (CpioParser ⊕ ρ)}
    (hnew : IndexingEngine.withStrategy (among others) codec compression given strategy archiveSize =
      .ok e)
    (hrun : es.foldlM (EngineSession.driveOn (among others) impl packed) (EngineSession.start e) = some s)
    (hdone : s.reported = some .done) :
    ∃ index, s.engine.finish = some index ∧
      ((index.entries.map IndexEntry.key).Perm (all.map CpioMember.key) ↔
        tail ≠ [] ∨ orphans all ≤ 1) := by
  have hstart : ∀ found, given = some found →
      Within format tail all plain [] ((among others).create found) [] := by
    intro found hfound
    rcases hgiven with hnone | hcpio
    · rw [hnone] at hfound
      exact absurd hfound (by simp)
    · obtain rfl := Option.some.inj (hfound.symm.trans hcpio)
      exact within_start harchive others
  have hinv := delivered (D := True) impl hC (reads format tail all plain others)
    (fun _ => detects harchive others) hnew hstart (fun _ => trivial) hrun
  obtain ⟨_, _, ⟨index, hfinish⟩, _⟩ := hinv.engine.gives
  refine ⟨index, hfinish, ?_⟩
  rw [IndexBuilder.assemble_keys hfinish]
  exact hinv.done hdone

/-! ## Two empty hard links -/

/-- An odc header of an empty file with two links, its name of one letter. -/
def linkHeader : List Byte :=
  ascii "0707070000010000071006440000000000000000020000000000000000000000200000000000"

def trailerHeader : List Byte :=
  ascii "0707070000000000000000000000000000000000010000000000000000000001300000000000"

/-- Both names of an empty file, `a` and `b`, and the trailer. -/
def linkedArchive (tail : List Byte) : List Byte :=
  linkHeader ++ ([97, 0] ++ (linkHeader ++ ([98, 0] ++
    (trailerHeader ++ ((ascii "TRAILER!!!" ++ [0]) ++ tail)))))

def linkedHeader : CpioHeader :=
  { ino := 7
    mode := 0o100644
    uid := 0
    gid := 0
    nlink := 2
    mtime := 0
    filesize := 0
    devmajor := 0
    devminor := 1
    rdevmajor := 0
    rdevminor := 0
    namesize := 2 }

def linkedMembers : List CpioMember :=
  [.declared linkedHeader [97, 0] 78, .declared linkedHeader [98, 0] 156]

theorem linkHeader_bytes : linkHeader =
    [48, 55, 48, 55, 48, 55, 48, 48, 48, 48, 48, 49, 48, 48, 48, 48, 48, 55, 49, 48, 48, 54, 52, 52, 48, 48,
    48, 48, 48, 48, 48, 48, 48, 48, 48, 48, 48, 48, 48, 48, 48, 50, 48, 48, 48, 48, 48, 48, 48, 48, 48, 48,
    48, 48, 48, 48, 48, 48, 48, 48, 48, 48, 48, 48, 50, 48, 48, 48, 48, 48, 48, 48, 48, 48, 48, 48] :=
  ascii_ofList _

theorem trailerHeader_bytes : trailerHeader =
    [48, 55, 48, 55, 48, 55, 48, 48, 48, 48, 48, 48, 48, 48, 48, 48, 48, 48, 48, 48, 48, 48, 48, 48, 48, 48,
    48, 48, 48, 48, 48, 48, 48, 48, 48, 48, 48, 48, 48, 48, 48, 49, 48, 48, 48, 48, 48, 48, 48, 48, 48, 48,
    48, 48, 48, 48, 48, 48, 48, 48, 48, 48, 48, 49, 51, 48, 48, 48, 48, 48, 48, 48, 48, 48, 48, 48] :=
  ascii_ofList _

theorem linkHeader_heads : CpioSubFormat.Heads .odc linkHeader linkedHeader where
  length := by
    rw [linkHeader_bytes]
    rfl
  magic := by
    show linkHeader.take 6 = odcMagic
    rw [linkHeader_bytes]
    exact (ascii_ofList ['0', '7', '0', '7', '0', '7']).symm
  parses := by
    rw [linkHeader_bytes]
    rfl

theorem trailerHeader_heads : CpioSubFormat.Heads .odc trailerHeader
    { linkedHeader with ino := 0, mode := 0, nlink := 1, devminor := 0, namesize := 11 } where
  length := by
    rw [trailerHeader_bytes]
    rfl
  magic := by
    show trailerHeader.take 6 = odcMagic
    rw [trailerHeader_bytes]
    exact (ascii_ofList ['0', '7', '0', '7', '0', '7']).symm
  parses := by
    rw [trailerHeader_bytes]
    rfl

/-- An empty link before an archive. -/
theorem linkHeader_archive {pos : Nat} {name rest : List Byte} {ms : List CpioMember}
    (hname : name.length = 2) (hother : filenameOf name ≠ trailerName)
    (hrest : CpioArchive .odc tail (pos + 78) rest ms) :
    CpioArchive .odc tail pos (linkHeader ++ (name ++ rest))
      (.declared linkedHeader name (pos + 78) :: ms) := by
  have hne : name ≠ [] := by
    rintro rfl
    exact absurd hname (by decide)
  have hpos : pos + linkHeader.length + name.length = pos + 78 := by
    rw [linkHeader_heads.length, hname]
    rfl
  have hmember := @CpioArchive.member .odc tail pos linkHeader name [] [] [] rest linkedHeader ms
    linkHeader_heads hname hne hother rfl rfl rfl (by rw [hpos]; exact hrest)
  rw [hpos] at hmember
  exact hmember

theorem linkedArchive_wellFormed (tail : List Byte) :
    CpioArchive .odc tail 0 (linkedArchive tail) linkedMembers :=
  linkHeader_archive rfl (by decide) (linkHeader_archive rfl (by decide)
    (.trailer trailerHeader_heads (by decide) (by decide) (by decide)))

/-- A caller that gives all of the archive at once. -/
def linkedEvents : List EngineEvent :=
  [.step 500 500, .provide 500, .step 500 500, .provide 500, .step 500 500]

def noOther : ArchiveParser Unit where
  create _ := ()
  feed _ _ := (.error (.error .unsupportedFormat), ())
  endOfStream _ := .error .unsupportedFormat

/-- An uncompressed archive indexed, its format to be detected. -/
def indexed (plain : List Byte) (es : List EngineEvent) :
    Option (EngineSession NoneDecompressor Empty Nat (CpioParser ⊕ Unit)) :=
  match IndexingEngine.withStrategy (among noOther) NoneDecompressor.codec .none none 1000 0 with
  | .ok e =>
    es.foldlM (EngineSession.driveOn (among noOther) .fixedInterval plain) (EngineSession.start e)
  | .error _ => none

/-- With nothing after the trailer's name the second of two empty links is lost, in a run
that reports it is done. -/
theorem members_lost :
    CpioArchive .odc [] 0 (linkedArchive []) linkedMembers ∧
    ∃ s index, indexed (linkedArchive []) linkedEvents = some s ∧ s.reported = some .done ∧
      s.engine.finish = some index ∧
      ¬ (index.entries.map IndexEntry.key).Perm (linkedMembers.map CpioMember.key) := by
  have hrun : (indexed (linkedArchive []) linkedEvents).map (fun s => (s.reported,
      s.engine.finish.map fun index => index.entries.map IndexEntry.key)) =
      some (some .done, some [⟨"a", 0o644, 0, 0, 0, 78⟩]) := by
    unfold linkedArchive
    rw [linkHeader_bytes, trailerHeader_bytes]
    decide +kernel
  refine ⟨linkedArchive_wellFormed [], ?_⟩
  obtain ⟨s, hs, hsummary⟩ := Option.map_eq_some_iff.mp hrun
  obtain ⟨hdone, hfinish⟩ := Prod.mk.inj hsummary
  obtain ⟨index, hindex, hkeys⟩ := Option.map_eq_some_iff.mp hfinish
  refine ⟨s, index, hs, hdone, hindex, ?_⟩
  rw [hkeys]
  intro hperm
  exact absurd hperm.length_eq (by decide)

/-- With one byte after the trailer's name both links come out. -/
theorem members_recorded_padded :
    ∃ s index, indexed (linkedArchive [0]) [.step 500 500, .provide 500, .step 500 500] = some s ∧
      s.reported = some .done ∧ s.engine.finish = some index ∧
      (index.entries.map IndexEntry.key).Perm (linkedMembers.map CpioMember.key) := by
  have hrun : (indexed (linkedArchive [0]) [.step 500 500, .provide 500, .step 500 500]).map
      (fun s => s.reported) = some (some .done) := by
    unfold linkedArchive
    rw [linkHeader_bytes, trailerHeader_bytes]
    decide +kernel
  obtain ⟨s, hs, hdone⟩ := Option.map_eq_some_iff.mp hrun
  have hs' := hs
  rw [indexed] at hs'
  split at hs'
  · rename_i e hnew
    obtain ⟨index, hindex, hiff⟩ := members_recorded_iff .fixedInterval
      (NoneDecompressor.obeys (linkedArchive [0])) (linkedArchive_wellFormed [0]) noOther (.inl rfl)
      hnew hs' hdone
    exact ⟨s, index, hs, hdone, hindex, hiff.mpr (.inl (by decide))⟩
  · exact absurd hs' (by simp)

end CpioParser
end Iluvatar
