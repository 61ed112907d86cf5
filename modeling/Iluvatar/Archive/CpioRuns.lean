/-
`CpioParser` over a well-formed archive.

`Stands` says where the parser is in the archive, state by state, and `Standing` adds
what has become of the members.  Every call that is given bytes of the archive keeps it,
reports one member at most and, where it asks for more, has taken something.
-/
import Iluvatar.Archive.CpioFormat

namespace Iluvatar

open CpioMember (orphans)

variable {format : CpioSubFormat} {tail : List Byte}

/-- A member's data from offset `pos` on, and the members after it. -/
def CpioData (format : CpioSubFormat) (tail : List Byte) (pos size : Nat) (bytes : List Byte)
    (members : List CpioMember) : Prop :=
  ∃ data dataPad rest, bytes = data ++ (dataPad ++ rest) ∧ data.length = size ∧
    dataPad.length = format.pad size ∧
    CpioArchive format tail (pos + data.length + dataPad.length) rest members

/-- What follows the name of a header, from offset `pos` on. -/
inductive CpioNamed (format : CpioSubFormat) (tail : List Byte) (pos : Nat) (hdr : CpioHeader)
    (name bytes : List Byte) (members : List CpioMember) : Prop where
  | trailer (filename : CpioParser.filenameOf name = trailerName) (members_eq : members = [])
      (bytes_eq : bytes = tail)
  | member {namePad rest : List Byte} {ms : List CpioMember}
      (filename : CpioParser.filenameOf name ≠ trailerName) (bytes_eq : bytes = namePad ++ rest)
      (namePad_length : namePad.length = format.pad (format.headerLen + hdr.namesize))
      (members_eq : members = CpioMember.declared hdr name (pos + namePad.length) :: ms)
      (data : CpioData format tail (pos + namePad.length) hdr.filesize rest ms)

theorem CpioArchive.heading {pos : Nat} {bytes : List Byte} {members : List CpioMember}
    (h : CpioArchive format tail pos bytes members) :
    ∃ header hdr name rest, bytes = header ++ (name ++ rest) ∧ format.Heads header hdr ∧
      name.length = hdr.namesize ∧ name ≠ [] ∧
      CpioNamed format tail (pos + header.length + name.length) hdr name rest members := by
  cases h with
  | trailer hheads hname hne htrailer =>
    exact ⟨_, _, _, _, rfl, hheads, hname, hne, .trailer htrailer rfl rfl⟩
  | member hheads hname hne hother hpad hdata hdataPad hrest =>
    exact ⟨_, _, _, _, rfl, hheads, hname, hne,
      .member hother rfl hpad rfl ⟨_, _, _, rfl, hdata, hdataPad, hrest⟩⟩

theorem CpioSubFormat.pad_zero (format : CpioSubFormat) : format.pad 0 = 0 := by
  cases format <;> rfl

theorem CpioSubFormat.headerLen_ge (format : CpioSubFormat) : 6 < format.headerLen := by
  cases format <;> decide

theorem CpioSubFormat.subFormatOf_eq {header : List Byte} (h : format.HasMagic header) :
    ∃ f, CpioParser.subFormatOf (header.take 6) = some f ∧ (f = .odc ↔ format = .odc) := by
  cases format with
  | odc =>
    rw [show header.take 6 = odcMagic from h]
    exact ⟨.odc, by decide, by simp⟩
  | newc =>
    rcases h with h | h
    · rw [h]
      exact ⟨.newc, by decide, by simp⟩
    · rw [h]
      exact ⟨.newcCrc, by decide, by simp⟩
  | newcCrc =>
    rcases h with h | h
    · rw [h]
      exact ⟨.newc, by decide, by simp⟩
    · rw [h]
      exact ⟨.newcCrc, by decide, by simp⟩

namespace CpioParser

/-- The parser has found out the archive's format. -/
def Knows (format : CpioSubFormat) (p : CpioParser) : Prop :=
  ∃ f, p.subFormat = some f ∧ (f = .odc ↔ format = .odc)

section

variable {p : CpioParser}

theorem Knows.headerSize (h : Knows format p) : p.headerSize = format.headerLen := by
  obtain ⟨f, hf, hkin⟩ := h
  rw [CpioParser.headerSize, hf]
  cases f <;> cases format <;> simp_all [CpioSubFormat.headerLen]

theorem Knows.padding (h : Knows format p) (n : Nat) : p.padding n = format.pad n := by
  obtain ⟨f, hf, hkin⟩ := h
  rw [CpioParser.padding, usesAlignment, hf]
  cases f <;> cases format <;> simp_all [CpioSubFormat.pad]

theorem Knows.magicOk (h : Knows format p) {header : List Byte} (hmagic : format.HasMagic header) :
    p.magicOk (header.take 6) = true := by
  obtain ⟨f, hf, hkin⟩ := h
  rw [CpioParser.magicOk, hf]
  cases f <;> cases format <;> simp_all [CpioSubFormat.HasMagic]

theorem Knows.parseHeader (h : Knows format p) : p.parseHeader = format.parse := by
  obtain ⟨f, hf, hkin⟩ := h
  funext data
  rw [CpioParser.parseHeader, hf]
  cases f <;> cases format <;> simp_all [CpioSubFormat.parse]

theorem Knows.same {p' : CpioParser} (h : Knows format p) (hsame : p'.subFormat = p.subFormat) :
    Knows format p' := by
  obtain ⟨f, hf, hkin⟩ := h
  exact ⟨f, hsame.trans hf, hkin⟩

end

/-- Where the parser is when `rest` is still to come, with these members in it. -/
def Stands (format : CpioSubFormat) (tail : List Byte) (p : CpioParser) (rest : List Byte)
    (members : List CpioMember) : Prop :=
  match p.state with
  | .readingHeader =>
    ∃ pos, CpioArchive format tail pos (p.headerBuf ++ rest) members ∧
      p.streamPos = pos + p.headerBuf.length ∧
      (p.subFormat = none ∧ p.headerBuf.length < 6 ∨
        Knows format p ∧ p.headerBuf.length < format.headerLen)
  | .readingFilename hdr remaining buf =>
    Knows format p ∧ p.headerBuf = [] ∧ ∃ more after, rest = more ++ after ∧
      more.length = remaining ∧ 0 < remaining ∧ buf.length + remaining = hdr.namesize ∧
      CpioNamed format tail (p.streamPos + remaining) hdr (buf ++ more) after members
  | .skippingNamePad entry remaining inode nlink =>
    Knows format p ∧ p.headerBuf = [] ∧ ∃ more after ms, rest = more ++ after ∧
      more.length = remaining ∧ 0 < remaining ∧ members = ⟨entry, inode, nlink⟩ :: ms ∧
      entry.dataOffset = p.streamPos + remaining ∧
      CpioData format tail entry.dataOffset entry.size after ms
  | .readingLinkTarget entry remaining _ =>
    Knows format p ∧ p.headerBuf = [] ∧ ∃ more dataPad after inode nlink ms,
      rest = more ++ (dataPad ++ after) ∧ more.length = remaining ∧ 0 < remaining ∧
      members = ⟨entry, inode, nlink⟩ :: ms ∧ entry.entryType = .symLink ∧
      entry.dataOffset + entry.size = p.streamPos + remaining ∧
      dataPad.length = format.pad entry.size ∧
      CpioArchive format tail (entry.dataOffset + entry.size + dataPad.length) after ms
  | .skippingData remaining | .skippingDataPad remaining =>
    Knows format p ∧ p.headerBuf = [] ∧ ∃ more after, rest = more ++ after ∧
      more.length = remaining ∧ 0 < remaining ∧
      CpioArchive format tail (p.streamPos + remaining) after members
  | .ended => False

theorem Stands.same {p p' : CpioParser} {rest : List Byte} {members : List CpioMember}
    (h : Stands format tail p rest members) (hstate : p'.state = p.state)
    (hbuf : p'.headerBuf = p.headerBuf) (hpos : p'.streamPos = p.streamPos)
    (hformat : p'.subFormat = p.subFormat) : Stands format tail p' rest members := by
  have hknows : Knows format p' ↔ Knows format p := by rw [Knows, Knows, hformat]
  rw [Stands] at h ⊢
  simpa only [hstate, hbuf, hpos, hformat, hknows] using h

/-- The condition under which every member of an archive comes out. -/
def AllOut (tail : List Byte) (members : List CpioMember) : Prop :=
  tail ≠ [] ∨ orphans members ≤ 1

/-- What the records of a whole archive come to. -/
def Settled (tail : List Byte) (members : List CpioMember) (recorded : List MemberKey) : Prop :=
  recorded.Perm (members.map CpioMember.key) ↔ AllOut tail members

/-- The parser within an archive: `recorded` are its reports so far. -/
inductive Standing (format : CpioSubFormat) (tail : List Byte) (all : List CpioMember)
    (p : CpioParser) (rest : List Byte) (recorded : List MemberKey) : Prop where
  | reading {seen members : List CpioMember} (whole : seen ++ members = all)
      (stands : Stands format tail p rest members) (books : Books p recorded seen)
  /-- Past the trailer, with members to report. -/
  | ended (state : p.state = .ended) (rest_eq : rest = tail)
      (keys : (recorded ++ p.pending.map ArchiveEntry.key).Perm (all.map CpioMember.key))
      (few : p.pending.length + 1 ≤ orphans all)
      (last : p.pending.length + 1 = orphans all ∨ tail ≠ [])

variable {all : List CpioMember}

/-- A good answer to a call with `data`. -/
inductive Good (format : CpioSubFormat) (tail : List Byte) (all : List CpioMember)
    (data rest : List Byte) (recorded : List MemberKey) : Answer → Prop where
  | error (e : Error) (p : CpioParser) : Good format tail all data rest recorded (.error e, p)
  | needData {n : Nat} {p : CpioParser} (taken : 0 < n) (within : n ≤ data.length)
      (standing : Standing format tail all p (rest.drop n) recorded) :
      Good format tail all data rest recorded (.ok (n, .needData), p)
  | entry {n : Nat} {p : CpioParser} {e : ArchiveEntry} (within : n ≤ data.length)
      (standing : Standing format tail all p (rest.drop n) (recorded ++ [e.key])) :
      Good format tail all data rest recorded (.ok (n, .entry e), p)
  | endOfArchive {n : Nat} {p : CpioParser} (settled : Settled tail all recorded) :
      Good format tail all data rest recorded (.ok (n, .endOfArchive), p)

section

variable {p : CpioParser} {data rest : List Byte} {recorded : List MemberKey}
  {seen members : List CpioMember}

theorem good_needData {p' : CpioParser} {n : Nat} (hpos : 0 < n) (hle : n ≤ data.length)
    (hwhole : seen ++ members = all) (hstands : Stands format tail p' (rest.drop n) members)
    (hbooks : Books p' recorded seen) :
    Good format tail all data rest recorded (.ok (n, .needData), p') :=
  .needData hpos hle (.reading hwhole hstands hbooks)

theorem take_of_begins {k : Nat} (h : data <+: rest) (hk : k ≤ data.length) :
    data.take k = rest.take k := by
  obtain ⟨more, rfl⟩ := h
  rw [List.take_append_of_le_length hk]

/-- Resolving a member changes neither the place in the stream nor the state. -/
theorem applyHardlinkPolicy_frame (p : CpioParser) (entry : ArchiveEntry) (inode : InodeKey)
    (nlink : Nat) :
    (p.applyHardlinkPolicy entry inode nlink).2.state = p.state ∧
      (p.applyHardlinkPolicy entry inode nlink).2.headerBuf = p.headerBuf ∧
      (p.applyHardlinkPolicy entry inode nlink).2.streamPos = p.streamPos ∧
      (p.applyHardlinkPolicy entry inode nlink).2.subFormat = p.subFormat := by
  unfold applyHardlinkPolicy
  split
  · exact ⟨rfl, rfl, rfl, rfl⟩
  · split
    · exact ⟨rfl, rfl, rfl, rfl⟩
    · split <;> exact ⟨rfl, rfl, rfl, rfl⟩

/-- A member is resolved where the parser already stands behind its header. -/
theorem good_resolved {skip : Nat} {entry : ArchiveEntry} {inode : InodeKey} {nlink : Nat}
    (hpos : 0 < skip) (hle : skip ≤ data.length)
    (hwhole : seen ++ (⟨entry, inode, nlink⟩ :: members) = all)
    (hstands : Stands format tail p (rest.drop skip) members) (hbooks : Books p recorded seen) :
    Good format tail all data rest recorded
      (.ok (skip, eventOf (p.applyHardlinkPolicy entry inode nlink).1),
        (p.applyHardlinkPolicy entry inode nlink).2) := by
  have hresult : p.applyHardlinkPolicy entry inode nlink =
      ((p.applyHardlinkPolicy entry inode nlink).1, (p.applyHardlinkPolicy entry inode nlink).2) := rfl
  have happly := hbooks.apply ⟨entry, inode, nlink⟩ hresult
  obtain ⟨hstate, hbuf, hstream, hformat⟩ := applyHardlinkPolicy_frame p entry inode nlink
  have hstands' := hstands.same hstate hbuf hstream hformat
  have hwhole' : (seen ++ [⟨entry, inode, nlink⟩]) ++ members = all := by
    rw [List.append_assoc]
    exact hwhole
  match hemitted : (p.applyHardlinkPolicy entry inode nlink).1 with
  | none =>
    rw [hemitted] at happly
    have hbooks' : Books (p.applyHardlinkPolicy entry inode nlink).2 recorded (seen ++ [⟨entry, inode, nlink⟩]) := by
      simpa using happly
    exact good_needData hpos hle hwhole' hstands' hbooks'
  | some e =>
    rw [hemitted] at happly
    exact .entry hle (.reading hwhole' hstands' happly)

theorem transitionToData_good {skip : Nat} {entry : ArchiveEntry} {inode : InodeKey} {nlink : Nat}
    (hknows : Knows format p) (hbuf : p.headerBuf = []) (hpos : 0 < skip) (hle : skip ≤ data.length)
    (hplace : entry.dataOffset = p.streamPos)
    (hdata : CpioData format tail entry.dataOffset entry.size (rest.drop skip) members)
    (hwhole : seen ++ (⟨entry, inode, nlink⟩ :: members) = all) (hbooks : Books p recorded seen) :
    Good format tail all data rest recorded (p.transitionToData skip entry inode nlink) := by
  obtain ⟨content, dataPad, after, hbytes, hcontent, hpad, harchive⟩ := hdata
  have hentry : { entry with dataOffset := p.streamPos } = entry := by rw [← hplace]
  unfold transitionToData
  simp only [hentry]
  by_cases hlink : entry.entryType = .symLink ∧ 0 < entry.size
  · rw [if_pos hlink]
    by_cases hlong : maxNameSize < entry.size
    · rw [if_pos hlong]
      exact .error _ _
    · rw [if_neg hlong]
      refine good_needData hpos hle hwhole ?_ (hbooks.same rfl rfl rfl)
      refine ⟨hknows.same rfl, hbuf, content, dataPad, after, inode, nlink, members, hbytes,
        hcontent, hlink.2, rfl, hlink.1, ?_, hpad, ?_⟩
      · rw [hplace]
      · rw [← hcontent]
        exact harchive
  · rw [if_neg hlink]
    by_cases hsize : 0 < entry.size
    · rw [if_pos hsize]
      refine good_resolved hpos hle hwhole ?_ (hbooks.same rfl rfl rfl)
      refine ⟨hknows.same rfl, hbuf, content ++ dataPad, after, ?_, ?_, ?_, ?_⟩
      · rw [hbytes, List.append_assoc]
      · rw [List.length_append, hcontent, hpad, hknows.padding]
      · omega
      · show CpioArchive format tail (p.streamPos + (entry.size + p.padding entry.size)) after members
        rw [hknows.padding, ← hplace, ← hpad, ← hcontent, ← Nat.add_assoc]
        exact harchive
    · rw [if_neg hsize]
      refine good_resolved hpos hle hwhole ?_ (hbooks.same rfl rfl rfl)
      have hzero : entry.size = 0 := by omega
      rw [hzero] at hcontent hpad
      rw [format.pad_zero] at hpad
      obtain rfl := List.length_eq_zero_iff.mp hcontent
      obtain rfl := List.length_eq_zero_iff.mp hpad
      refine ⟨p.streamPos, ?_, ?_, .inr ⟨hknows.same rfl, ?_⟩⟩
      · show CpioArchive format tail p.streamPos (p.headerBuf ++ rest.drop skip) members
        rw [hbuf, hbytes, ← hplace]
        exact harchive
      · show p.streamPos = p.streamPos + p.headerBuf.length
        rw [hbuf]
        rfl
      · show p.headerBuf.length < format.headerLen
        have := format.headerLen_ge
        rw [hbuf, List.length_nil]
        omega

/-- What is left of `more` when `data` is given. -/
theorem split_more {more after : List Byte} (hdata : data <+: more ++ after) :
    data.take (min data.length more.length) = more.take (min data.length more.length) ∧
      (more ++ after).drop (min data.length more.length) =
        more.drop (min data.length more.length) ++ after := by
  constructor
  · rw [take_of_begins hdata (Nat.min_le_left ..),
      List.take_append_of_le_length (Nat.min_le_right ..)]
  · exact List.drop_append_of_le_length (Nat.min_le_right ..)

theorem length_pos_of_ne_nil (hne : data ≠ []) : 0 < data.length := List.length_pos_iff.mpr hne

theorem feedSkip_good {left : Nat → CpioState} {remaining : Nat}
    (hleft : ∀ n, left n = .skippingData n ∨ left n = .skippingDataPad n)
    (hknows : Knows format p) (hbuf : p.headerBuf = []) {more after : List Byte}
    (hrest : rest = more ++ after) (hmore : more.length = remaining) (hsome : 0 < remaining)
    (harchive : CpioArchive format tail (p.streamPos + remaining) after members)
    (hwhole : seen ++ members = all) (hbooks : Books p recorded seen) (hne : data ≠ [])
    (hdata : data <+: rest) :
    Good format tail all data rest recorded (p.feedSkip left remaining data) := by
  have hpos := length_pos_of_ne_nil hne
  subst hrest hmore
  obtain ⟨_, hdrop⟩ := split_more hdata
  have hempty : data.isEmpty = false := by simpa using hne
  unfold feedSkip
  rw [hempty]
  simp only [Bool.false_eq_true, if_false]
  refine good_needData (by omega) (Nat.min_le_left ..) hwhole ?_ (hbooks.same rfl rfl rfl)
  rw [hdrop]
  by_cases hall : more.length - min data.length more.length = 0
  · rw [if_pos hall]
    have hmin : min data.length more.length = more.length := by omega
    rw [hmin, List.drop_length, List.nil_append]
    refine ⟨p.streamPos + more.length, ?_, ?_, .inr ⟨hknows.same rfl, ?_⟩⟩
    · show CpioArchive format tail _ (p.headerBuf ++ after) members
      rw [hbuf]
      exact harchive
    · show p.streamPos + more.length = p.streamPos + more.length + p.headerBuf.length
      rw [hbuf]
      rfl
    · show p.headerBuf.length < format.headerLen
      have := format.headerLen_ge
      rw [hbuf, List.length_nil]
      omega
  · rw [if_neg hall]
    have hstands : Knows format p ∧ p.headerBuf = [] ∧ ∃ more' after',
        more.drop (min data.length more.length) ++ after = more' ++ after' ∧
        more'.length = more.length - min data.length more.length ∧
        0 < more.length - min data.length more.length ∧
        CpioArchive format tail (p.streamPos + min data.length more.length +
          (more.length - min data.length more.length)) after' members := by
      refine ⟨hknows, hbuf, _, after, rfl, List.length_drop, by omega, ?_⟩
      rwa [show p.streamPos + min data.length more.length +
        (more.length - min data.length more.length) = p.streamPos + more.length by omega]
    rcases hleft (more.length - min data.length more.length) with h | h <;> rw [h] <;> exact hstands

theorem feedSkipNamePad_good {entry : ArchiveEntry} {remaining : Nat} {inode : InodeKey}
    {nlink : Nat} (hknows : Knows format p) (hbuf : p.headerBuf = []) {more after : List Byte}
    {ms : List CpioMember} (hrest : rest = more ++ after) (hmore : more.length = remaining)
    (hsome : 0 < remaining) (hmembers : members = ⟨entry, inode, nlink⟩ :: ms)
    (hplace : entry.dataOffset = p.streamPos + remaining)
    (hafter : CpioData format tail entry.dataOffset entry.size after ms)
    (hwhole : seen ++ members = all) (hbooks : Books p recorded seen) (hne : data ≠ [])
    (hdata : data <+: rest) :
    Good format tail all data rest recorded (p.feedSkipNamePad entry remaining inode nlink data) := by
  have hpos := length_pos_of_ne_nil hne
  subst hrest hmore hmembers
  obtain ⟨_, hdrop⟩ := split_more hdata
  have hempty : data.isEmpty = false := by simpa using hne
  unfold feedSkipNamePad
  rw [hempty]
  simp only [Bool.false_eq_true, if_false]
  by_cases hpart : 0 < more.length - min data.length more.length
  · rw [if_pos hpart]
    refine good_needData (by omega) (Nat.min_le_left ..) hwhole ?_ (hbooks.same rfl rfl rfl)
    rw [hdrop]
    refine ⟨hknows.same rfl, hbuf, _, after, ms, rfl, List.length_drop, hpart, rfl, ?_, hafter⟩
    show entry.dataOffset = p.streamPos + min data.length more.length +
      (more.length - min data.length more.length)
    omega
  · rw [if_neg hpart]
    have hmin : min data.length more.length = more.length := by omega
    refine transitionToData_good (hknows.same rfl) hbuf (by omega) (Nat.min_le_left ..) ?_ ?_ hwhole
      (hbooks.same rfl rfl rfl)
    · show entry.dataOffset = p.streamPos + min data.length more.length
      rw [hmin]
      exact hplace
    · rw [hdrop, hmin, List.drop_length, List.nil_append]
      exact hafter

theorem feedLinkTarget_good {entry : ArchiveEntry} {remaining : Nat} {buf : List Byte}
    (hknows : Knows format p) (hbuf : p.headerBuf = []) {more dataPad after : List Byte}
    {inode : InodeKey} {nlink : Nat} {ms : List CpioMember} (hrest : rest = more ++ (dataPad ++ after))
    (hmore : more.length = remaining) (hsome : 0 < remaining)
    (hmembers : members = ⟨entry, inode, nlink⟩ :: ms) (hlink : entry.entryType = .symLink)
    (hplace : entry.dataOffset + entry.size = p.streamPos + remaining)
    (hpad : dataPad.length = format.pad entry.size)
    (hafter : CpioArchive format tail (entry.dataOffset + entry.size + dataPad.length) after ms)
    (hwhole : seen ++ members = all) (hbooks : Books p recorded seen) (hne : data ≠ [])
    (hdata : data <+: rest) :
    Good format tail all data rest recorded (p.feedLinkTarget entry remaining buf data) := by
  have hpos := length_pos_of_ne_nil hne
  subst hrest hmore hmembers
  obtain ⟨_, hdrop⟩ := split_more hdata
  have hempty : data.isEmpty = false := by simpa using hne
  unfold feedLinkTarget
  rw [hempty]
  simp only [Bool.false_eq_true, if_false]
  by_cases hpart : 0 < more.length - min data.length more.length
  · rw [if_pos hpart]
    refine good_needData (by omega) (Nat.min_le_left ..) hwhole ?_ (hbooks.same rfl rfl rfl)
    rw [hdrop]
    refine ⟨hknows.same rfl, hbuf, _, dataPad, after, inode, nlink, ms, rfl, List.length_drop, hpart,
      rfl, hlink, ?_, hpad, hafter⟩
    show entry.dataOffset + entry.size = p.streamPos + min data.length more.length +
      (more.length - min data.length more.length)
    omega
  · rw [if_neg hpart]
    have hmin : min data.length more.length = more.length := by omega
    rw [hmin] at hdrop ⊢
    rw [List.drop_length, List.nil_append] at hdrop
    have hbears : (⟨entry, inode, nlink⟩ : CpioMember).bears = false := by
      simp [CpioMember.bears, hlink]
    have horphan : CpioMember.orphan seen ⟨entry, inode, nlink⟩ = false := by
      simp [CpioMember.orphan, CpioMember.bare, hlink]
    have hwhole' : (seen ++ [⟨entry, inode, nlink⟩]) ++ ms = all := by
      rw [List.append_assoc]
      exact hwhole
    have hsize : p.streamPos + more.length - entry.dataOffset = entry.size := by omega
    have hpadding : ∀ state streamPos, CpioParser.padding { p with state, streamPos }
        (p.streamPos + more.length - entry.dataOffset) = dataPad.length := by
      intro state streamPos
      have hknows' : Knows format { p with state, streamPos } := hknows.same rfl
      rw [hsize, hknows'.padding, hpad]
    refine .entry (by omega) (.reading hwhole' ?_ ((hbooks.report hbears horphan).same rfl rfl rfl))
    rw [hdrop]
    show Stands format tail { p with
      state := if 0 < CpioParser.padding _ (p.streamPos + more.length - entry.dataOffset) then
          .skippingDataPad (CpioParser.padding _ (p.streamPos + more.length - entry.dataOffset))
        else .readingHeader
      streamPos := p.streamPos + more.length } (dataPad ++ after) ms
    rw [hpadding]
    by_cases hsomePad : 0 < dataPad.length
    · rw [if_pos hsomePad]
      refine ⟨hknows.same rfl, hbuf, dataPad, after, rfl, rfl, hsomePad, ?_⟩
      show CpioArchive format tail (p.streamPos + more.length + dataPad.length) after ms
      rw [← hplace]
      exact hafter
    · rw [if_neg hsomePad]
      obtain rfl := List.length_eq_zero_iff.mp (show dataPad.length = 0 by omega)
      refine ⟨p.streamPos + more.length, ?_, ?_, .inr ⟨hknows.same rfl, ?_⟩⟩
      · show CpioArchive format tail (p.streamPos + more.length) (p.headerBuf ++ ([] ++ after)) ms
        rw [hbuf, ← hplace]
        exact hafter
      · show p.streamPos + more.length = p.streamPos + more.length + p.headerBuf.length
        rw [hbuf]
        rfl
      · show p.headerBuf.length < format.headerLen
        have := format.headerLen_ge
        rw [hbuf, List.length_nil]
        omega

/-- The trailer releases what is deferred: the first of it is reported now. -/
theorem filenameComplete_trailer {take : Nat} {hdr : CpioHeader} (hpending : p.pending = [])
    (hle : take ≤ data.length) (hrest : rest.drop take = tail) (hbooks : Books p recorded all) :
    Good format tail all data rest recorded (p.filenameComplete take hdr trailerName) := by
  obtain ⟨hkeys, hcount⟩ := hbooks.release
  rw [hpending, List.nil_append] at hkeys
  unfold filenameComplete
  rw [if_pos rfl, hpending, List.nil_append]
  match hflatten : p.deferredLinks.flatten with
  | [] =>
    rw [hflatten] at hkeys hcount
    rw [List.map_nil, List.append_nil] at hkeys
    have hfew : orphans all ≤ 1 := by
      rw [← hcount]
      exact Nat.zero_le 1
    exact .endOfArchive ⟨fun _ => .inr hfew, fun _ => hkeys⟩
  | entry :: pending =>
    rw [hflatten] at hkeys hcount
    rw [List.length_cons] at hcount
    refine .entry hle (.ended rfl hrest ?_ (Nat.le_of_eq hcount) (.inl hcount))
    show (recorded ++ [entry.key] ++ pending.map ArchiveEntry.key).Perm _
    rw [List.append_assoc]
    exact hkeys

theorem filenameComplete_member (hdr : CpioHeader) {take : Nat} {name namePad bytes : List Byte}
    {ms : List CpioMember} (hknows : Knows format p) (hbuf : p.headerBuf = []) (hpos : 0 < take)
    (hle : take ≤ data.length) (hother : filenameOf name ≠ trailerName)
    (hrest : rest.drop take = namePad ++ bytes)
    (hpad : namePad.length = format.pad (format.headerLen + hdr.namesize))
    (hdata : CpioData format tail (p.streamPos + namePad.length) hdr.filesize bytes ms)
    (hwhole : seen ++ (CpioMember.declared hdr name (p.streamPos + namePad.length) :: ms) = all)
    (hbooks : Books p recorded seen) :
    Good format tail all data rest recorded (p.filenameComplete take hdr (filenameOf name)) := by
  have hpadding : p.padding (p.headerSize + hdr.namesize) = namePad.length := by
    rw [hknows.padding, hknows.headerSize, hpad]
  unfold filenameComplete
  simp only [hother, if_false, hpadding]
  by_cases hsomePad : 0 < namePad.length
  · rw [if_pos hsomePad]
    refine good_needData hpos hle hwhole ?_ (hbooks.same rfl rfl rfl)
    rw [hrest]
    exact ⟨hknows.same rfl, hbuf, namePad, bytes, ms, rfl, rfl, hsomePad, rfl, rfl, hdata⟩
  · rw [if_neg hsomePad]
    have hnone : namePad = [] := List.length_eq_zero_iff.mp (by omega)
    subst hnone
    refine transitionToData_good hknows hbuf hpos hle rfl ?_ hwhole hbooks
    rw [hrest]
    exact hdata

theorem feedFilename_good {hdr : CpioHeader} {remaining : Nat} {buf : List Byte}
    (hpending : p.pending = []) (hknows : Knows format p) (hbuf : p.headerBuf = [])
    {more after : List Byte} (hrest : rest = more ++ after) (hmore : more.length = remaining)
    (hsome : 0 < remaining) (hlen : buf.length + remaining = hdr.namesize)
    (hafter : CpioNamed format tail (p.streamPos + remaining) hdr (buf ++ more) after members)
    (hwhole : seen ++ members = all) (hbooks : Books p recorded seen) (hne : data ≠ [])
    (hdata : data <+: rest) :
    Good format tail all data rest recorded (p.feedFilename hdr remaining buf data) := by
  have hpos := length_pos_of_ne_nil hne
  subst hrest hmore
  obtain ⟨htake, hdrop⟩ := split_more hdata
  have hempty : data.isEmpty = false := by simpa using hne
  by_cases hpart : 0 < more.length - min data.length more.length
  · unfold feedFilename
    rw [hempty]
    simp only [Bool.false_eq_true, if_false]
    rw [if_pos hpart]
    refine good_needData (by omega) (Nat.min_le_left ..) hwhole ?_ (hbooks.same rfl rfl rfl)
    rw [hdrop, htake]
    refine ⟨hknows.same rfl, hbuf, _, after, rfl, List.length_drop, hpart, ?_, ?_⟩
    · rw [List.length_append, List.length_take]
      omega
    · show CpioNamed format tail (p.streamPos + min data.length more.length +
        (more.length - min data.length more.length)) hdr _ after members
      rw [List.append_assoc, List.take_append_drop,
        show p.streamPos + min data.length more.length +
          (more.length - min data.length more.length) = p.streamPos + more.length by omega]
      exact hafter
  · have hmin : min data.length more.length = more.length := by omega
    rw [hmin] at hdrop htake
    rw [List.take_length] at htake
    rw [List.drop_length, List.nil_append] at hdrop
    have hcall : p.feedFilename hdr more.length buf data =
        { p with
          state := .readingFilename hdr (more.length - more.length) (buf ++ more)
          streamPos := p.streamPos + more.length }.filenameComplete more.length hdr
            (filenameOf (buf ++ more)) := by
      unfold feedFilename
      rw [hempty]
      simp only [Bool.false_eq_true, if_false]
      rw [if_neg hpart, hmin, htake]
    have hknows' : Knows format { p with
        state := .readingFilename hdr (more.length - more.length) (buf ++ more)
        streamPos := p.streamPos + more.length } := hknows.same rfl
    have hbooks' : Books { p with
        state := .readingFilename hdr (more.length - more.length) (buf ++ more)
        streamPos := p.streamPos + more.length } recorded seen := hbooks.same rfl rfl rfl
    have hle : more.length ≤ data.length := by omega
    rw [hcall]
    cases hafter with
    | trailer hname hnil hend =>
      rw [hnil, List.append_nil] at hwhole
      rw [hwhole] at hbooks'
      rw [hname]
      exact filenameComplete_trailer hpending hle (hdrop.trans hend) hbooks'
    | member hname hbytes hpad hmembers hcontent =>
      rw [hmembers] at hwhole
      exact filenameComplete_member hdr hknows' hbuf hsome hle hname (hdrop.trans hbytes) hpad
        hcontent hwhole hbooks'

/-- A header that is whole is the one the archive has here. -/
theorem processHeader_good {consumed pos : Nat} (hknows : Knows format p)
    (hpos : 0 < consumed) (hle : consumed ≤ data.length)
    (harchive : CpioArchive format tail pos (p.headerBuf ++ rest.drop consumed) members)
    (hplace : p.streamPos = pos + p.headerBuf.length) (hwhole : p.headerBuf.length = format.headerLen)
    (hall : seen ++ members = all) (hbooks : Books p recorded seen) :
    Good format tail all data rest recorded (p.processHeader consumed) := by
  obtain ⟨header, hdr, name, after, hbytes, hheads, hname, hne, hnamed⟩ := harchive.heading
  obtain ⟨hheader, hrest⟩ := List.append_inj hbytes (hwhole.trans hheads.length.symm)
  unfold processHeader
  simp only [hheader, hknows.magicOk hheads.magic, hknows.parseHeader, hheads.parses,
    Bool.true_eq_false, if_false]
  by_cases hlong : maxNameSize < hdr.namesize
  · rw [if_pos hlong]
    exact .error _ _
  · rw [if_neg hlong]
    have hsome : 0 < hdr.namesize := by
      rw [← hname]
      exact length_pos_of_ne_nil hne
    refine good_needData hpos hle hall ?_ (hbooks.same rfl rfl rfl)
    refine ⟨hknows.same rfl, rfl, name, after, hrest, hname, hsome, Nat.zero_add _, ?_⟩
    show CpioNamed format tail (p.streamPos + hdr.namesize) hdr name after members
    rw [hplace, hheader, ← hname]
    exact hnamed

theorem fillHeader_good {consumed pos : Nat} (hknows : Knows format p) (hstate : p.state = .readingHeader)
    (hpos : 0 < consumed ∨ consumed < data.length) (hle : consumed ≤ data.length)
    (hdata : data <+: rest)
    (harchive : CpioArchive format tail pos (p.headerBuf ++ rest.drop consumed) members)
    (hplace : p.streamPos = pos + p.headerBuf.length) (hpart : p.headerBuf.length < format.headerLen)
    (hall : seen ++ members = all) (hbooks : Books p recorded seen) :
    Good format tail all data rest recorded (p.fillHeader consumed data) := by
  have hlen := hdata.length_le
  have hbegins : data.drop consumed <+: rest.drop consumed := by
    obtain ⟨more, rfl⟩ := hdata
    rw [List.drop_append_of_le_length hle]
    exact List.prefix_append _ _
  unfold fillHeader
  rw [hknows.headerSize]
  simp only
  have htaken : min (data.length - consumed) (format.headerLen - p.headerBuf.length) ≤
      (data.drop consumed).length := by
    rw [List.length_drop]
    omega
  rw [take_of_begins hbegins htaken]
  generalize hn : min (data.length - consumed) (format.headerLen - p.headerBuf.length) = n at *
  have hbuf : (p.buffer ((rest.drop consumed).take n)).headerBuf ++ rest.drop (consumed + n) =
      p.headerBuf ++ rest.drop consumed := by
    show p.headerBuf ++ (rest.drop consumed).take n ++ rest.drop (consumed + n) = _
    rw [List.append_assoc, ← List.drop_drop, List.take_append_drop]
  have hcount : (p.buffer ((rest.drop consumed).take n)).headerBuf.length = p.headerBuf.length + n := by
    show (p.headerBuf ++ (rest.drop consumed).take n).length = _
    rw [List.length_append, List.length_take, List.length_drop]
    omega
  have hstream : (p.buffer ((rest.drop consumed).take n)).streamPos =
      pos + (p.buffer ((rest.drop consumed).take n)).headerBuf.length := by
    have hmoved : (p.buffer ((rest.drop consumed).take n)).streamPos = p.streamPos + n := by
      show p.streamPos + ((rest.drop consumed).take n).length = _
      rw [List.length_take, List.length_drop]
      omega
    rw [hmoved, hcount, hplace]
    omega
  have hknows' : Knows format (p.buffer ((rest.drop consumed).take n)) := hknows.same rfl
  have hbooks' : Books (p.buffer ((rest.drop consumed).take n)) recorded seen :=
    hbooks.same rfl rfl rfl
  have harchive' : CpioArchive format tail pos ((p.buffer ((rest.drop consumed).take n)).headerBuf ++
      rest.drop (consumed + n)) members := by
    rw [hbuf]
    exact harchive
  rw [hknows'.headerSize]
  by_cases hmore : (p.buffer ((rest.drop consumed).take n)).headerBuf.length < format.headerLen
  · rw [if_pos hmore]
    refine good_needData (by omega) (by omega) hall ?_ hbooks'
    have hstate' : (p.buffer ((rest.drop consumed).take n)).state = .readingHeader := hstate
    rw [Stands, hstate']
    exact ⟨pos, harchive', hstream, .inr ⟨hknows', hmore⟩⟩
  · rw [if_neg hmore]
    exact processHeader_good hknows' (by omega) (by omega) harchive' hstream (by omega) hall
      hbooks'

theorem feedHeader_good {pos : Nat} (hstate : p.state = .readingHeader)
    (harchive : CpioArchive format tail pos (p.headerBuf ++ rest) members)
    (hplace : p.streamPos = pos + p.headerBuf.length)
    (hknown : p.subFormat = none ∧ p.headerBuf.length < 6 ∨
      Knows format p ∧ p.headerBuf.length < format.headerLen)
    (hall : seen ++ members = all) (hbooks : Books p recorded seen) (hne : data ≠ [])
    (hdata : data <+: rest) :
    Good format tail all data rest recorded (p.feedHeader data) := by
  have hpos := length_pos_of_ne_nil hne
  have hlen := hdata.length_le
  have hempty : data.isEmpty = false := by simpa using hne
  unfold feedHeader
  rw [hempty]
  simp only [Bool.false_eq_true, if_false]
  rcases hknown with ⟨hnone, hshort⟩ | ⟨hknows, hpart⟩
  · rw [hnone]
    simp only
    rw [take_of_begins hdata (Nat.min_le_left ..)]
    generalize hn : min data.length (6 - p.headerBuf.length) = n
    have hbuf : (p.buffer (rest.take n)).headerBuf ++ rest.drop n = p.headerBuf ++ rest := by
      show p.headerBuf ++ rest.take n ++ rest.drop n = _
      rw [List.append_assoc, List.take_append_drop]
    have hcount : (p.buffer (rest.take n)).headerBuf.length = p.headerBuf.length + n := by
      show (p.headerBuf ++ rest.take n).length = _
      rw [List.length_append, List.length_take]
      omega
    have hstream : (p.buffer (rest.take n)).streamPos =
        pos + (p.buffer (rest.take n)).headerBuf.length := by
      have hmoved : (p.buffer (rest.take n)).streamPos = p.streamPos + n := by
        show p.streamPos + (rest.take n).length = _
        rw [List.length_take]
        omega
      rw [hmoved, hcount, hplace]
      omega
    have harchive' : CpioArchive format tail pos ((p.buffer (rest.take n)).headerBuf ++ rest.drop n)
        members := by
      rw [hbuf]
      exact harchive
    have hbooks' : Books (p.buffer (rest.take n)) recorded seen := hbooks.same rfl rfl rfl
    have hstate' : (p.buffer (rest.take n)).state = .readingHeader := hstate
    by_cases hmore : (p.buffer (rest.take n)).headerBuf.length < 6
    · rw [if_pos hmore]
      refine good_needData (by omega) (by omega) hall ?_ hbooks'
      rw [Stands, hstate']
      exact ⟨pos, harchive', hstream, .inl ⟨hnone, hmore⟩⟩
    · rw [if_neg hmore]
      obtain ⟨header, hdr, name, after, hbytes, hheads, _⟩ := harchive'.heading
      have hlong := format.headerLen_ge
      have hmagic : (p.buffer (rest.take n)).headerBuf.take 6 = header.take 6 := by
        have hsame := congrArg (List.take 6) hbytes
        rwa [List.take_append_of_le_length (by omega),
          List.take_append_of_le_length (by rw [hheads.length]; omega)] at hsame
      obtain ⟨f, hf, hkin⟩ := CpioSubFormat.subFormatOf_eq hheads.magic
      rw [hmagic, hf]
      simp only
      have hknows : Knows format { p.buffer (rest.take n) with subFormat := some f } := ⟨f, rfl, hkin⟩
      have hbooks'' : Books { p.buffer (rest.take n) with subFormat := some f } recorded seen :=
        hbooks.same rfl rfl rfl
      have hsix : (p.buffer (rest.take n)).headerBuf.length < format.headerLen := by omega
      exact fillHeader_good hknows hstate' (.inl (by omega)) (by omega) hdata harchive' hstream hsix
        hall hbooks''
  · obtain ⟨f, hf, _⟩ := id hknows
    rw [hf]
    simp only
    exact fillHeader_good hknows hstate (.inr hpos) (Nat.zero_le _) hdata harchive hplace hpart hall
      hbooks

/-- Every call within an archive is answered well. -/
theorem feed_good (h : Standing format tail all p rest recorded) (hne : data ≠ [])
    (hdata : data <+: rest) : Good format tail all data rest recorded (p.feed data) := by
  unfold feed
  match hpending : p.pending with
  | entry :: pending =>
    cases h with
    | reading hwhole hstands hbooks =>
      exact .entry (Nat.zero_le _) (.reading hwhole (hstands.same rfl rfl rfl rfl) (hbooks.pop hpending))
    | ended hstate hrest hkeys hfew _ =>
      rw [hpending] at hkeys hfew
      have htail : tail ≠ [] := by
        rintro hnil
        rw [hrest, hnil] at hdata
        exact hne (List.prefix_nil.mp hdata)
      refine .entry (Nat.zero_le _) (.ended hstate hrest ?_ ?_ (.inr htail))
      · show (recorded ++ [entry.key] ++ pending.map ArchiveEntry.key).Perm _
        rw [List.append_assoc]
        exact hkeys
      · show pending.length + 1 ≤ orphans all
        rw [List.length_cons] at hfew
        omega
  | [] =>
    cases h with
    | reading hwhole hstands hbooks =>
      rw [Stands] at hstands
      match hstate : p.state with
      | .readingHeader =>
        simp only [hstate] at hstands ⊢
        obtain ⟨pos, harchive, hplace, hknown⟩ := hstands
        exact feedHeader_good hstate harchive hplace hknown hwhole hbooks hne hdata
      | .readingFilename hdr remaining buf =>
        simp only [hstate] at hstands ⊢
        obtain ⟨hknows, hbuf, more, after, hrest, hmore, hsome, hlen, hafter⟩ := hstands
        exact feedFilename_good hpending hknows hbuf hrest hmore hsome hlen hafter hwhole hbooks hne
          hdata
      | .skippingNamePad entry remaining inode nlink =>
        simp only [hstate] at hstands ⊢
        obtain ⟨hknows, hbuf, more, after, ms, hrest, hmore, hsome, hmembers, hplace, hafter⟩ :=
          hstands
        exact feedSkipNamePad_good hknows hbuf hrest hmore hsome hmembers hplace hafter hwhole hbooks
          hne hdata
      | .readingLinkTarget entry remaining buf =>
        simp only [hstate] at hstands ⊢
        obtain ⟨hknows, hbuf, more, dataPad, after, inode, nlink, ms, hrest, hmore, hsome, hmembers,
          hlink, hplace, hpad, hafter⟩ := hstands
        exact feedLinkTarget_good hknows hbuf hrest hmore hsome hmembers hlink hplace hpad hafter hwhole
          hbooks hne hdata
      | .skippingData remaining =>
        simp only [hstate] at hstands ⊢
        obtain ⟨hknows, hbuf, more, after, hrest, hmore, hsome, hafter⟩ := hstands
        exact feedSkip_good (fun _ => .inl rfl) hknows hbuf hrest hmore hsome hafter hwhole hbooks hne
          hdata
      | .skippingDataPad remaining =>
        simp only [hstate] at hstands ⊢
        obtain ⟨hknows, hbuf, more, after, hrest, hmore, hsome, hafter⟩ := hstands
        exact feedSkip_good (fun _ => .inr rfl) hknows hbuf hrest hmore hsome hafter hwhole hbooks hne
          hdata
      | .ended =>
        simp only [hstate] at hstands
    | ended hstate hrest hkeys hfew _ =>
      rw [hstate]
      rw [hpending, List.map_nil, List.append_nil] at hkeys
      have htail : tail ≠ [] := by
        rintro hnil
        rw [hrest, hnil] at hdata
        exact hne (List.prefix_nil.mp hdata)
      exact .endOfArchive ⟨fun _ => .inl htail, fun _ => hkeys⟩

/-- Where the stream ends with no complaint, the records are settled. -/
theorem endOfStream_settled (h : Standing format tail all p [] recorded)
    (hend : p.endOfStream = .ok ()) : Settled tail all recorded := by
  cases h with
  | reading hwhole hstands hbooks =>
    rw [endOfStream] at hend
    rw [Stands] at hstands
    match hstate : p.state with
    | .readingHeader =>
      simp only [hstate] at hend
      split at hend <;> exact absurd hend (by simp)
    | .readingFilename .. | .skippingNamePad .. | .readingLinkTarget .. | .skippingData .. |
      .skippingDataPad .. => simp [hstate] at hend
    | .ended => simp only [hstate] at hstands
  | ended hstate hrest hkeys hfew hlast =>
    subst hrest
    have hcount : p.pending.length + 1 = orphans all := hlast.resolve_right (by simp)
    constructor
    · intro hperm
      -- What was recorded is all, so nothing was left waiting.
      have hlen := hkeys.length_eq
      rw [List.length_append, hperm.length_eq, List.length_map, List.length_map] at hlen
      have hone : orphans all ≤ 1 := by omega
      exact .inr hone
    · rintro (hne | hone)
      · exact absurd rfl hne
      · have hnone : p.pending = [] := List.length_eq_zero_iff.mp (by omega)
        rw [hnone, List.map_nil, List.append_nil] at hkeys
        exact hkeys

end

/-- A new parser stands at the start of an archive. -/
theorem new_standing {bytes : List Byte} (h : CpioArchive format tail 0 bytes all) :
    Standing format tail all new bytes [] :=
  .reading (List.nil_append all) ⟨0, h, rfl, .inl ⟨rfl, by decide⟩⟩ Books.new

end CpioParser
end Iluvatar
