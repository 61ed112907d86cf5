/-
`CpioParser` reports every member of a well-formed archive once, and its hard links point
back to entries with their data.

A parser that is given the whole rest in each call is followed piece by piece through the
archive, the ledger being kept; being incremental, it reports the same in any pieces.
-/
import Iluvatar.Archive.CpioLedger
import Iluvatar.Archive.CpioPieces
import Iluvatar.Engine.CpioMembers
import Iluvatar.Engine.Driving

namespace Iluvatar

/-- What the entries of an archive tell of its files: every file is reported once, every hard
link points back to an entry with its data, and the offset and size of each entry with data
delimit that file's bytes. -/
structure CpioAccount (bytes : List Byte) (files : List CpioFile) (reports : List CpioReport) :
    Prop where
  once : (reports.map Prod.snd).Perm files
  reported : ∀ report ∈ reports, report.2.ReportedAs files report.1
  links : LinksBack reports
  delimited : ∀ report ∈ reports, 0 < report.1.size →
    (bytes.drop report.1.dataOffset).take report.1.size = report.2.data

variable {format : CpioSubFormat} {tail : List Byte}

/-! ## Where the files lie -/

/-- The data of a file is where its header's offset and size say. -/
theorem CpioListing.lies {pos : Nat} {bytes : List Byte} {files : List CpioFile}
    (h : CpioListing format tail pos bytes files) :
    ∀ f ∈ files, pos ≤ f.member.entry.dataOffset ∧
      (bytes.drop (f.member.entry.dataOffset - pos)).take f.member.entry.size = f.data := by
  induction h with
  | trailer => exact fun f hf => absurd hf List.not_mem_nil
  | @member pos header name namePad data dataPad rest hdr files hheads hname hne hlimit hother hpad
      hdata hlink hdataPad hrest ih =>
    intro f hf
    rcases List.mem_cons.mp hf with rfl | hf
    · refine ⟨by simp only [CpioMember.declared]; omega, ?_⟩
      show ((header ++ (name ++ (namePad ++ (data ++ (dataPad ++ rest))))).drop
        (pos + header.length + name.length + namePad.length - pos)).take hdr.filesize = data
      have hbefore : header ++ (name ++ (namePad ++ (data ++ (dataPad ++ rest)))) =
          (header ++ name ++ namePad) ++ (data ++ (dataPad ++ rest)) := by
        simp only [List.append_assoc]
      have hcount : pos + header.length + name.length + namePad.length - pos =
          (header ++ name ++ namePad).length := by
        simp only [List.length_append]
        omega
      rw [hbefore, hcount, List.drop_left, ← hdata, List.take_left]
    · obtain ⟨hpos, hlies⟩ := ih f hf
      refine ⟨by omega, ?_⟩
      have hbefore : header ++ (name ++ (namePad ++ (data ++ (dataPad ++ rest)))) =
          (header ++ name ++ namePad ++ data ++ dataPad) ++ rest := by
        simp only [List.append_assoc]
      have hcount : f.member.entry.dataOffset - pos =
          (header ++ name ++ namePad ++ data ++ dataPad).length + (f.member.entry.dataOffset -
            (pos + header.length + name.length + namePad.length + data.length + dataPad.length)) := by
        simp only [List.length_append]
        omega
      rw [hbefore, hcount, ← List.drop_drop, List.drop_left]
      exact hlies

/-- An entry with data reports its file's offset and size. -/
theorem CpioFile.ReportedAs.data {files : List CpioFile} {f : CpioFile} {e : ArchiveEntry}
    (h : f.ReportedAs files e) (hdata : 0 < e.size) :
    e.dataOffset = f.member.entry.dataOffset ∧ e.size = f.member.entry.size := by
  cases h with
  | declared | orphan => exact ⟨rfl, rfl⟩
  | symLink => exact absurd hdata (Nat.lt_irrefl 0)
  | hardLink path hbare => exact ⟨rfl, rfl⟩

namespace CpioParser

variable {files seen : List CpioFile} {reports : List CpioReport} {held : HeldFiles}
  {p : CpioParser}

/-- What is reported after a piece was completed with this answer. -/
def EmitsAfter (answer : Except Error ArchiveEvent × CpioParser) (rest : List Byte)
    (entries : List ArchiveEntry) : Prop :=
  match answer with
  | (.error _, _) => False
  | (.ok .endOfArchive, _) => entries = []
  | (.ok .needData, p) => Emits feed p rest entries
  | (.ok (.entry e), p) => ∃ more, entries = e :: more ∧ Emits feed p rest more

/-- A parser given a whole piece completes it. -/
theorem emits_piece (hon : OnPiece p) {piece rest : List Byte} (hne : piece ≠ [])
    (hwants : wants p = piece.length) {entries : List ArchiveEntry}
    (hthen : EmitsAfter (complete p piece) rest entries) : Emits feed p (piece ++ rest) entries := by
  have hboth : piece ++ rest ≠ [] := by simp [hne]
  have hfeed : p.feed (piece ++ rest) = answering piece.length (complete p piece) := by
    have hfull := pieces.full p (piece ++ rest) hon hboth
    rw [show pieces.wants p = piece.length from hwants, List.take_left] at hfull
    exact hfull (by rw [List.length_append]; omega)
  have hdrop : (piece ++ rest).drop piece.length = rest := List.drop_left
  generalize hanswer : complete p piece = answer at hthen hfeed
  obtain ⟨answer, q⟩ := answer
  cases answer with
  | error e => exact hthen.elim
  | ok event =>
    cases event with
    | endOfArchive =>
      obtain rfl : entries = [] := hthen
      exact .endOfArchive hfeed
    | needData =>
      refine .needData hfeed ?_
      rw [hdrop]
      exact hthen
    | entry e =>
      obtain ⟨more, rfl, hmore⟩ := hthen
      refine .entry hfeed ?_
      rw [hdrop]
      exact hmore

/-- Pending entries come out first. -/
theorem emits_pending {pending : List ArchiveEntry} {rest : List Byte} {entries : List ArchiveEntry}
    (h : Emits feed { p with pending := [] } rest entries) :
    Emits feed { p with pending } rest (pending ++ entries) := by
  induction pending with
  | nil => exact h
  | cons e pending ih =>
    have hfeed : feed { p with pending := e :: pending } rest = (.ok (0, .entry e), { p with pending }) := rfl
    exact .entry hfeed ih

/-- The parser at a header, at offset `pos`. -/
structure Opens (format : CpioSubFormat) (p : CpioParser) (pos : Nat) : Prop where
  state : p.state = .readingHeader
  headerBuf : p.headerBuf = []
  streamPos : p.streamPos = pos
  pending : p.pending = []
  format : p.subFormat = none ∨ Knows format p

/-- The parser within a member, at offset `pos`. -/
structure Inside (format : CpioSubFormat) (p : CpioParser) (pos : Nat) : Prop where
  headerBuf : p.headerBuf = []
  streamPos : p.streamPos = pos
  pending : p.pending = []
  knows : Knows format p

/-! ## The header -/

theorem processHeader_whole {hdr : CpioHeader} {n : Nat} (hknows : Knows format p)
    (hheads : format.Heads p.headerBuf hdr) (hlimit : hdr.namesize ≤ maxNameSize) :
    p.processHeader n = (.ok (n, .needData), { p with
      headerBuf := []
      state := .readingFilename hdr hdr.namesize [] }) := by
  have hplausible : ¬ maxNameSize < hdr.namesize := by omega
  unfold processHeader
  simp only [hknows.magicOk hheads.magic, hknows.parseHeader, hheads.parses, Bool.true_eq_false,
    if_false, hplausible]

/-- The rest of a header, after the first `consumed` bytes. -/
theorem fillHeader_whole {header rest : List Byte} {hdr : CpioHeader} {consumed : Nat}
    (hknows : Knows format p) (hheads : format.Heads header hdr) (hlimit : hdr.namesize ≤ maxNameSize)
    (hconsumed : consumed ≤ header.length) (hbuf : p.headerBuf = header.take consumed) :
    p.fillHeader consumed (header ++ rest) = (.ok (header.length, .needData), { p with
      headerBuf := []
      streamPos := p.streamPos + (header.length - consumed)
      state := .readingFilename hdr hdr.namesize [] }) := by
  have htaken : p.headerBuf.length = consumed := by
    rw [hbuf, List.length_take]
    omega
  have hcount : min ((header ++ rest).length - consumed) (p.headerSize - p.headerBuf.length) =
      header.length - consumed := by
    rw [hknows.headerSize, htaken, List.length_append, ← hheads.length]
    omega
  have hbytes : ((header ++ rest).drop consumed).take (header.length - consumed) =
      header.drop consumed := by
    rw [List.drop_append_of_le_length hconsumed,
      List.take_append_of_le_length (by rw [List.length_drop]), ← List.length_drop, List.take_length]
  have hwhole : (p.buffer (header.drop consumed)).headerBuf = header := by
    show p.headerBuf ++ header.drop consumed = header
    rw [hbuf, List.take_append_drop]
  have hknows' : Knows format (p.buffer (header.drop consumed)) := hknows.same rfl
  unfold fillHeader
  simp only [hcount, hbytes]
  rw [if_neg (by rw [hwhole, hknows'.headerSize, hheads.length]; omega),
    processHeader_whole hknows' (by rw [hwhole]; exact hheads) hlimit]
  have hsum : consumed + (header.length - consumed) = header.length := by omega
  rw [hsum]
  simp only [buffer, List.length_drop]

/-- A call that begins at a header and is given the whole of it. -/
theorem feed_heading {pos : Nat} (h : Opens format p pos) {header : List Byte} {hdr : CpioHeader}
    (hheads : format.Heads header hdr) (hlimit : hdr.namesize ≤ maxNameSize) :
    ∃ q, Inside format q (pos + header.length) ∧ q.state = .readingFilename hdr hdr.namesize [] ∧
      q.deferredLinks = p.deferredLinks ∧ q.resolvedInodes = p.resolvedInodes ∧
      ∀ rest, p.feed (header ++ rest) = (.ok (header.length, .needData), q) := by
  have hlong := format.headerLen_ge
  rw [← hheads.length] at hlong
  have hempty : ∀ rest, (header ++ rest).isEmpty = false := by
    intro rest
    cases header with
    | nil => exact absurd hlong (by simp)
    | cons b header => rfl
  have hheading : ∀ rest, p.feed (header ++ rest) = p.feedHeader (header ++ rest) := by
    intro rest
    simp only [feed, h.pending, h.state]
  rcases h.format with hnone | hknows
  · obtain ⟨f, hf, hkin⟩ := CpioSubFormat.subFormatOf_eq hheads.magic
    have hknows : Knows format { p.buffer (header.take 6) with subFormat := some f } := ⟨f, rfl, hkin⟩
    refine ⟨{ p with
      subFormat := some f
      headerBuf := []
      streamPos := p.streamPos + 6 + (header.length - 6)
      state := .readingFilename hdr hdr.namesize [] }, ⟨rfl, ?_, h.pending, f, rfl, hkin⟩, rfl, rfl, rfl,
      fun rest => ?_⟩
    · show p.streamPos + 6 + (header.length - 6) = pos + header.length
      rw [h.streamPos]
      omega
    · have hmin : min (header ++ rest).length (6 - p.headerBuf.length) = 6 := by
        rw [h.headerBuf, List.length_append, List.length_nil]
        omega
      have htake : (header ++ rest).take 6 = header.take 6 :=
        List.take_append_of_le_length (by omega)
      have hbuf : (p.buffer (header.take 6)).headerBuf = header.take 6 := by
        show p.headerBuf ++ header.take 6 = header.take 6
        rw [h.headerBuf, List.nil_append]
      have hsix : (header.take 6).length = 6 := by
        rw [List.length_take]
        omega
      have hwhole : ¬ (p.buffer (header.take 6)).headerBuf.length < 6 := by
        rw [hbuf, hsix]
        omega
      have hmagic : (p.buffer (header.take 6)).headerBuf.take 6 = header.take 6 := by
        rw [hbuf, List.take_take, Nat.min_self]
      have hstream : (p.buffer (header.take 6)).streamPos = p.streamPos + 6 := by
        show p.streamPos + (header.take 6).length = _
        rw [hsix]
      rw [hheading]
      unfold feedHeader
      simp only [hempty, Bool.false_eq_true, if_false, hnone, hmin, htake, hwhole, hmagic, hf]
      have hfill := @fillHeader_whole _ _ _ rest _ _ hknows hheads hlimit (by omega) hbuf
      refine hfill.trans ?_
      simp only [hstream]
      rfl
  · obtain ⟨f, hf, hkin⟩ := id hknows
    refine ⟨{ p with
      headerBuf := []
      streamPos := p.streamPos + (header.length - 0)
      state := .readingFilename hdr hdr.namesize [] }, ⟨rfl, ?_, h.pending, f, hf, hkin⟩, rfl, rfl, rfl,
      fun rest => ?_⟩
    · show p.streamPos + (header.length - 0) = pos + header.length
      rw [h.streamPos, Nat.sub_zero]
    · have hne : header ++ rest ≠ [] := by
        intro hnil
        have hnone := hempty rest
        rw [hnil] at hnone
        exact absurd hnone (by simp)
      rw [feed_header h.pending h.state hf hne]
      exact fillHeader_whole hknows hheads hlimit (Nat.zero_le _) h.headerBuf

/-! ## The data -/

/-- Padding is skipped. -/
theorem emits_skip {left : Nat → CpioState} (hleft : left = .skippingData ∨ left = .skippingDataPad)
    {pos : Nat} (h : Inside format p pos) {pad rest : List Byte} (hne : pad ≠ [])
    (hstate : p.state = left pad.length) :
    ∃ q, Opens format q (pos + pad.length) ∧ q.deferredLinks = p.deferredLinks ∧
      q.resolvedInodes = p.resolvedInodes ∧
      ∀ entries, Emits feed q rest entries → Emits feed p (pad ++ rest) entries := by
  have hon : OnPiece p := by
    refine ⟨h.pending, fun hheading => ?_⟩
    obtain ⟨f, hf, _⟩ := h.knows
    exact ⟨f, hf⟩
  refine ⟨p.passing pad.length .readingHeader,
    ⟨rfl, h.headerBuf, ?_, h.pending, .inr (h.knows.same rfl)⟩, rfl, rfl, fun entries hthen => ?_⟩
  · show p.streamPos + pad.length = pos + pad.length
    rw [h.streamPos]
  · refine emits_piece hon hne ?_ ?_
    · unfold wants
      rcases hleft with rfl | rfl <;> simp only [hstate]
    · unfold complete
      rcases hleft with rfl | rfl <;> simp only [hstate] <;> exact hthen

/-- A link target is read, and the padding after it skipped. -/
theorem linkTarget_emits {pos : Nat} {f : CpioFile} {dataPad : List Byte} (h : Inside format p pos)
    (hplace : f.member.entry.dataOffset = pos) (hdata : f.data.length = f.member.entry.size)
    (hne : f.data ≠ []) (hpad : dataPad.length = format.pad f.member.entry.size) (rest : List Byte) :
    ∃ q, Opens format q (pos + f.data.length + dataPad.length) ∧
      q.deferredLinks = p.deferredLinks ∧ q.resolvedInodes = p.resolvedInodes ∧
      ∀ entries, Emits feed q rest entries →
        Emits feed { p with state := .readingLinkTarget f.member.entry f.member.entry.size [] }
          (f.data ++ (dataPad ++ rest))
          ({ f.member.entry with size := 0, linkTarget := some (fromUtf8Lossy f.data) } :: entries) := by
  have hon : OnPiece { p with state := .readingLinkTarget f.member.entry f.member.entry.size [] } :=
    ⟨h.pending, fun hheading => absurd hheading (by simp)⟩
  have hstream : (p.streamPos + f.data.length) - f.member.entry.dataOffset = f.member.entry.size := by
    rw [h.streamPos, hplace, hdata]
    omega
  have hpadding : ∀ state streamPos, CpioParser.padding { p with state, streamPos }
      (p.streamPos + f.data.length - f.member.entry.dataOffset) = dataPad.length := by
    intro state streamPos
    have hknows : Knows format { p with state, streamPos } := h.knows.same rfl
    rw [hstream, hknows.padding, hpad]
  have hcomplete : ∀ entries, EmitsAfter (.ok (.entry { f.member.entry with
        size := 0, linkTarget := some (fromUtf8Lossy f.data) }), p.passing f.data.length
          (if 0 < dataPad.length then .skippingDataPad dataPad.length else .readingHeader))
      (dataPad ++ rest) entries →
      Emits feed { p with state := .readingLinkTarget f.member.entry f.member.entry.size [] }
        (f.data ++ (dataPad ++ rest)) entries := by
    intro entries hthen
    refine emits_piece hon hne hdata.symm ?_
    unfold complete
    simp only [linkTargetComplete, passing, List.nil_append, hpadding]
    exact hthen
  by_cases hsomePad : dataPad = []
  · subst hsomePad
    refine ⟨p.passing f.data.length .readingHeader,
      ⟨rfl, h.headerBuf, ?_, h.pending, .inr (h.knows.same rfl)⟩, rfl, rfl, fun entries hthen => ?_⟩
    · show p.streamPos + f.data.length = pos + f.data.length + 0
      rw [h.streamPos, Nat.add_zero]
    · exact hcomplete _ ⟨entries, rfl, hthen⟩
  · have hpos := List.length_pos_iff.mpr hsomePad
    have hinside : Inside format (p.passing f.data.length (.skippingDataPad dataPad.length))
        (pos + f.data.length) := by
      refine ⟨h.headerBuf, ?_, h.pending, h.knows.same rfl⟩
      show p.streamPos + f.data.length = pos + f.data.length
      rw [h.streamPos]
    obtain ⟨q, hopens, hdeferred, hresolved, hthen⟩ := emits_skip (.inr rfl) hinside hsomePad rfl
    refine ⟨q, hopens, hdeferred, hresolved, fun entries hentries => hcomplete _ ⟨entries, rfl, ?_⟩⟩
    rw [if_pos hpos]
    exact hthen entries hentries

/-- A member is resolved: it is reported, and what it makes pending after it. -/
theorem emits_resolved {f : CpioFile} (h : CpioLedger files p reports held seen)
    (hpending : p.pending = []) (htype : f.member.entry.entryType ≠ .hardLink)
    (hsymlink : f.member.entry.entryType ≠ .symLink ∨ f.data = []) :
    ∃ due held' q, CpioLedger files q (reports ++ due) held' (seen ++ [f]) ∧
      q.state = p.state ∧ q.headerBuf = p.headerBuf ∧ q.streamPos = p.streamPos ∧
      q.subFormat = p.subFormat ∧ q.pending = [] ∧
      ∀ rest entries, Emits feed q rest entries →
        EmitsAfter
          (.ok (eventOf (p.applyHardlinkPolicy f.member.entry f.member.inode f.member.nlink).1),
            (p.applyHardlinkPolicy f.member.entry f.member.inode f.member.nlink).2)
          rest (due.map Prod.fst ++ entries) := by
  obtain ⟨due, held', hledger, hdue⟩ := h.apply hpending htype hsymlink
  obtain ⟨hstate, hbuf, hstream, hformat⟩ :=
    applyHardlinkPolicy_frame p f.member.entry f.member.inode f.member.nlink
  generalize p.applyHardlinkPolicy f.member.entry f.member.inode f.member.nlink = result at *
  obtain ⟨emitted, q⟩ := result
  refine ⟨due, held', { q with pending := [] }, hledger.same rfl rfl, hstate, hbuf, hstream, hformat, rfl,
    fun rest entries hthen => ?_⟩
  have hemits : Emits feed q rest (q.pending ++ entries) := emits_pending hthen
  rw [← hdue]
  cases emitted with
  | none => exact hemits
  | some e => exact ⟨q.pending ++ entries, rfl, hemits⟩

/-- A member's name, and the padding after it, are behind the parser: what the rest of the
member comes to. -/
theorem transitionToData_emits {pos : Nat} {f : CpioFile} {dataPad : List Byte}
    (h : Inside format p pos) (hledger : CpioLedger files p reports held seen)
    (hplace : f.member.entry.dataOffset = pos) (hdata : f.data.length = f.member.entry.size)
    (htype : f.member.entry.entryType ≠ .hardLink)
    (hlimit : f.member.entry.entryType = .symLink → f.data.length ≤ maxNameSize)
    (hpad : dataPad.length = format.pad f.member.entry.size) (rest : List Byte) :
    ∃ due held' q, CpioLedger files q (reports ++ due) held' (seen ++ [f]) ∧
      Opens format q (pos + f.data.length + dataPad.length) ∧
      ∀ entries, Emits feed q rest entries →
        EmitsAfter (settle (p.transitionToData 0 f.member.entry f.member.inode f.member.nlink))
          (f.data ++ (dataPad ++ rest)) (due.map Prod.fst ++ entries) := by
  have hentry : { f.member.entry with dataOffset := p.streamPos } = f.member.entry := by
    rw [h.streamPos, ← hplace]
  unfold transitionToData
  simp only [hentry]
  by_cases hlink : f.member.entry.entryType = .symLink ∧ 0 < f.member.entry.size
  · have hshort : ¬ maxNameSize < f.member.entry.size := by
      have := hlimit hlink.1
      omega
    rw [if_pos hlink, if_neg hshort]
    have hne : f.data ≠ [] := List.length_pos_iff.mp (by omega)
    have hbears : f.member.bears = false := by simp [CpioMember.bears, hlink.1]
    have hreported := hledger.report (.symLink hlink.1 hne) hbears fun hhard =>
      absurd (hlink.1.symm.trans hhard) (by simp)
    obtain ⟨q, hopens, hdeferred, hresolved, hthen⟩ := linkTarget_emits h hplace hdata hne hpad rest
    refine ⟨_, held, q, hreported.same hdeferred hresolved, hopens, fun entries hentries => ?_⟩
    exact hthen entries hentries
  · rw [if_neg hlink]
    have hsymlink : f.member.entry.entryType ≠ .symLink ∨ f.data = [] := by
      by_cases hkind : f.member.entry.entryType = .symLink
      · refine .inr (List.length_eq_zero_iff.mp ?_)
        have : ¬ 0 < f.member.entry.size := fun hsome => hlink ⟨hkind, hsome⟩
        omega
      · exact .inl hkind
    by_cases hsome : 0 < f.member.entry.size
    · rw [if_pos hsome]
      have hskip : f.member.entry.size + p.padding f.member.entry.size = (f.data ++ dataPad).length := by
        rw [h.knows.padding, List.length_append, hdata, hpad]
      rw [hskip]
      obtain ⟨due, held', q, hledger', hstate, hbuf, hstream, hformat, hpending, hthen⟩ :=
        emits_resolved (p := { p with state := .skippingData (f.data ++ dataPad).length })
          (hledger.same rfl rfl) h.pending htype hsymlink
      have hinside : Inside format q pos :=
        ⟨hbuf.trans h.headerBuf, hstream.trans h.streamPos, hpending, h.knows.same hformat⟩
      have hne : f.data ++ dataPad ≠ [] := by
        refine List.length_pos_iff.mp ?_
        rw [← hskip]
        omega
      obtain ⟨q', hopens, hdeferred, hresolved, hskipped⟩ := emits_skip (.inl rfl) hinside hne hstate
      rw [List.length_append, ← Nat.add_assoc] at hopens
      refine ⟨due, held', q', hledger'.same hdeferred hresolved, hopens, fun entries hentries => ?_⟩
      rw [← List.append_assoc]
      exact hthen _ _ (hskipped entries hentries)
    · rw [if_neg hsome]
      obtain ⟨due, held', q, hledger', hstate, hbuf, hstream, hformat, hpending, hthen⟩ :=
        emits_resolved (p := { p with state := .readingHeader }) (hledger.same rfl rfl) h.pending htype
          hsymlink
      have hzero : f.member.entry.size = 0 := by omega
      rw [hzero] at hdata hpad
      rw [format.pad_zero] at hpad
      rw [hdata, hpad, List.length_eq_zero_iff.mp hdata, List.length_eq_zero_iff.mp hpad]
      refine ⟨due, held', q, hledger', ⟨hstate, hbuf.trans h.headerBuf, hstream.trans h.streamPos,
        hpending, .inr (h.knows.same hformat)⟩, fun entries hentries => hthen _ _ hentries⟩

/-! ## The archive -/

theorem entryTypeFromMode_ne_hardLink (mode : Nat) : entryTypeFromMode mode ≠ .hardLink := by
  unfold entryTypeFromMode
  simp only
  repeat' split
  all_goals simp

/-- What a member's name comes to, once it is read. -/
theorem filenameComplete_emits {pos : Nat} {hdr : CpioHeader} {name namePad data dataPad : List Byte}
    (h : Inside format p pos) (hledger : CpioLedger files p reports held seen)
    (hother : filenameOf name ≠ trailerName)
    (hnamePad : namePad.length = format.pad (format.headerLen + hdr.namesize))
    (hdata : data.length = hdr.filesize)
    (hlimit : entryTypeFromMode hdr.mode = .symLink → data.length ≤ maxNameSize)
    (hdataPad : dataPad.length = format.pad hdr.filesize) (rest : List Byte) :
    ∃ due held' q, CpioLedger files q (reports ++ due) held'
        (seen ++ [⟨CpioMember.declared hdr name (pos + namePad.length), data⟩]) ∧
      Opens format q (pos + namePad.length + data.length + dataPad.length) ∧
      ∀ entries, Emits feed q rest entries →
        EmitsAfter (settle (p.filenameComplete 0 hdr (filenameOf name)))
          (namePad ++ (data ++ (dataPad ++ rest))) (due.map Prod.fst ++ entries) := by
  have hpadding : p.padding (p.headerSize + hdr.namesize) = namePad.length := by
    rw [h.knows.padding, h.knows.headerSize, hnamePad]
  unfold filenameComplete
  simp only [hother, if_false, hpadding]
  by_cases hsomePad : 0 < namePad.length
  · rw [if_pos hsomePad]
    have hne : namePad ≠ [] := List.length_pos_iff.mp hsomePad
    have hon : ∀ entry inode nlink, OnPiece { p with
        state := .skippingNamePad entry namePad.length inode nlink } := fun _ _ _ =>
      ⟨h.pending, fun hheading => absurd hheading (by simp)⟩
    have hinside : Inside format (p.passing namePad.length .ended) (pos + namePad.length) := by
      refine ⟨h.headerBuf, ?_, h.pending, h.knows.same rfl⟩
      show p.streamPos + namePad.length = pos + namePad.length
      rw [h.streamPos]
    obtain ⟨due, held', q, hledger', hopens, hthen⟩ := transitionToData_emits
      (f := ⟨CpioMember.declared hdr name (pos + namePad.length), data⟩) hinside
      (hledger.same rfl rfl) rfl hdata
      (entryTypeFromMode_ne_hardLink _) hlimit hdataPad rest
    refine ⟨due, held', q, hledger', hopens, fun entries hentries => ?_⟩
    have hoffset : p.streamPos + namePad.length = pos + namePad.length := by rw [h.streamPos]
    rw [hoffset]
    have hskipped := emits_piece (hon _ _ _) hne rfl (hthen entries hentries)
    exact hskipped
  · rw [if_neg hsomePad]
    have hnone : namePad = [] := List.length_eq_zero_iff.mp (by omega)
    subst hnone
    rw [h.streamPos]
    exact transitionToData_emits (f := ⟨CpioMember.declared hdr name pos, data⟩) h hledger rfl hdata
      (entryTypeFromMode_ne_hardLink _) hlimit hdataPad rest

/-- The trailer ends the archive; what is withheld comes out. -/
theorem trailer_emits (hdr : CpioHeader) {pos : Nat} {name : List Byte} (h : Inside format p pos)
    (hledger : CpioLedger files p reports held files) (htrailer : filenameOf name = trailerName)
    (rest : List Byte) :
    ∃ due : List CpioReport, ((reports ++ due).map Prod.snd).Perm files ∧
      (∀ report ∈ reports ++ due, report.2.ReportedAs files report.1) ∧ LinksBack (reports ++ due) ∧
      EmitsAfter (settle (p.filenameComplete 0 hdr (filenameOf name))) rest (due.map Prod.fst) := by
  obtain ⟨due, hdue, honce, hreported, hlinks⟩ := hledger.release
  refine ⟨due, honce, hreported, hlinks, ?_⟩
  unfold filenameComplete
  rw [if_pos htrailer, h.pending, List.nil_append, ← hdue]
  generalize p.deferredLinks.flatten = released
  cases released with
  | nil => rfl
  | cons e pending =>
    refine ⟨pending, rfl, ?_⟩
    have hended : Emits feed { p with deferredLinks := [], state := .ended, pending := [] } rest [] :=
      .endOfArchive (n := 0) rfl
    have hreleased : Emits feed { p with deferredLinks := [], state := .ended, pending } rest
        (pending ++ []) := emits_pending (p := { p with deferredLinks := [], state := .ended }) hended
    rw [List.append_nil] at hreleased
    exact hreleased

/-- From a header on, the parser reports the files of the rest of the archive. -/
theorem listing_emits {pos : Nat} {bytes : List Byte} {rest : List CpioFile}
    (h : CpioListing format tail pos bytes rest) (hopens : Opens format p pos)
    (hledger : CpioLedger files p reports held seen) (hall : seen ++ rest = files) :
    ∃ due : List CpioReport, ((reports ++ due).map Prod.snd).Perm files ∧
      (∀ report ∈ reports ++ due, report.2.ReportedAs files report.1) ∧ LinksBack (reports ++ due) ∧
      Emits feed p bytes (due.map Prod.fst) := by
  induction h generalizing p reports held seen with
  | @trailer pos header name hdr hheads hname hne hlimit htrailer =>
    rw [List.append_nil] at hall
    subst hall
    obtain ⟨q, hinside, hstate, hdeferred, hresolved, hfeed⟩ :=
      feed_heading hopens hheads (by omega)
    have hinside' : Inside format (q.passing name.length (.readingFilename hdr 0 ([] ++ name)))
        (pos + header.length + name.length) := by
      refine ⟨hinside.headerBuf, ?_, hinside.pending, hinside.knows.same rfl⟩
      show q.streamPos + name.length = _
      rw [hinside.streamPos]
    obtain ⟨due, honce, hreported, hlinks, hthen⟩ := trailer_emits hdr hinside'
      (hledger.same hdeferred hresolved) htrailer tail
    refine ⟨due, honce, hreported, hlinks, .needData (hfeed _) ?_⟩
    rw [List.drop_left]
    refine emits_piece ⟨hinside.pending, fun hheading => ?_⟩ hne ?_ ?_
    · rw [hstate] at hheading
      exact absurd hheading (by simp)
    · unfold wants
      rw [hstate]
      exact hname.symm
    · unfold complete
      rw [hstate]
      exact hthen
  | @member pos header name namePad data dataPad after hdr rest hheads hname hne hlimit hother hnamePad
      hdata hlink hdataPad _ ih =>
    obtain ⟨q, hinside, hstate, hdeferred, hresolved, hfeed⟩ :=
      feed_heading hopens hheads (by omega)
    have hinside' : Inside format (q.passing name.length (.readingFilename hdr 0 ([] ++ name)))
        (pos + header.length + name.length) := by
      refine ⟨hinside.headerBuf, ?_, hinside.pending, hinside.knows.same rfl⟩
      show q.streamPos + name.length = _
      rw [hinside.streamPos]
    obtain ⟨due, held', q', hledger', hopens', hthen⟩ := filenameComplete_emits hinside'
      (hledger.same hdeferred hresolved) hother hnamePad hdata hlink hdataPad after
    have hall' : (seen ++ [⟨CpioMember.declared hdr name
        (pos + header.length + name.length + namePad.length), data⟩]) ++ rest = files := by
      rw [List.append_assoc]
      exact hall
    obtain ⟨more, honce, hreported, hlinks, hemits⟩ := ih hopens' hledger' hall'
    rw [List.append_assoc] at honce hreported hlinks
    refine ⟨due ++ more, honce, hreported, hlinks, .needData (hfeed _) ?_⟩
    rw [List.drop_left, List.map_append]
    refine emits_piece ⟨hinside.pending, fun hheading => ?_⟩ hne ?_ ?_
    · rw [hstate] at hheading
      exact absurd hheading (by simp)
    · unfold wants
      rw [hstate]
      exact hname.symm
    · unfold complete
      rw [hstate]
      exact hthen _ hemits

/-- Whatever pieces a well-formed archive is offered in, the parser comes to its end, having
reported every file once, with each hard link after the entry that has its data. -/
theorem reports_every_member {bytes : List Byte} {files : List CpioFile}
    (h : CpioListing format tail 0 bytes files) (sizes : Nat → Nat) :
    ∃ fuel reports, drive feed sizes fuel 0 new bytes = some (reports.map Prod.fst) ∧
      CpioAccount bytes files reports := by
  obtain ⟨reports, honce, hreported, hlinks, hemits⟩ :=
    listing_emits h ⟨rfl, rfl, rfl, rfl, .inl rfl⟩ CpioLedger.new rfl
  rw [List.nil_append] at honce hreported hlinks
  obtain ⟨fuel, hdrive⟩ := hemits.drives incremental sizes 0
  refine ⟨fuel, reports, hdrive, honce, hreported, hlinks, fun report hreport hdata => ?_⟩
  obtain ⟨hoffset, hsize⟩ := (hreported report hreport).data hdata
  have hfile : report.2 ∈ files := honce.mem_iff.mp (List.mem_map_of_mem hreport)
  have hlies := (h.lies report.2 hfile).2
  rw [hoffset, hsize]
  exact hlies

/-! ## A link before its data -/

/-- An odc header of a file of three bytes with two links, its name of one letter. -/
def dataHeader : List Byte :=
  ascii "0707070000010000071006440000000000000000020000000000000000000000200000000003"

/-- The names `a` and `b` of one file, its data with `b`. -/
def groupArchive : List Byte :=
  linkHeader ++ ([97, 0] ++ (dataHeader ++ ([98, 0] ++ (ascii "xyz" ++
    (trailerHeader ++ (ascii "TRAILER!!!" ++ [0]))))))

def groupFiles : List CpioFile :=
  [⟨.declared linkedHeader [97, 0] 78, []⟩,
    ⟨.declared { linkedHeader with filesize := 3 } [98, 0] 156, ascii "xyz"⟩]

theorem dataHeader_bytes : dataHeader =
    [48, 55, 48, 55, 48, 55, 48, 48, 48, 48, 48, 49, 48, 48, 48, 48, 48, 55, 49, 48, 48, 54, 52, 52, 48, 48,
    48, 48, 48, 48, 48, 48, 48, 48, 48, 48, 48, 48, 48, 48, 48, 50, 48, 48, 48, 48, 48, 48, 48, 48, 48, 48,
    48, 48, 48, 48, 48, 48, 48, 48, 48, 48, 48, 48, 50, 48, 48, 48, 48, 48, 48, 48, 48, 48, 48, 51] :=
  ascii_ofList _

theorem dataHeader_heads : CpioSubFormat.Heads .odc dataHeader { linkedHeader with filesize := 3 } where
  length := by
    rw [dataHeader_bytes]
    rfl
  magic := by
    show dataHeader.take 6 = odcMagic
    rw [dataHeader_bytes]
    exact (ascii_ofList ['0', '7', '0', '7', '0', '7']).symm
  parses := by
    rw [dataHeader_bytes]
    rfl

theorem groupArchive_wellFormed : CpioListing .odc [] 0 groupArchive groupFiles := by
  have hlink : linkHeader.length = 76 := linkHeader_heads.length
  have hlength : dataHeader.length = 76 := dataHeader_heads.length
  have htrailer : CpioListing .odc [] (156 + 3) (trailerHeader ++ ((ascii "TRAILER!!!" ++ [0]) ++ []))
      [] :=
    .trailer trailerHeader_heads (by decide) (by decide) (by decide)
      (by decide)
  have hdata := @CpioListing.member .odc [] 78 dataHeader [98, 0] [] (ascii "xyz") []
    (trailerHeader ++ ((ascii "TRAILER!!!" ++ [0]) ++ [])) { linkedHeader with filesize := 3 } []
    dataHeader_heads rfl (by decide) (by decide) (by decide) rfl rfl
    (fun _ => by decide) rfl (by rw [hlength]; exact htrailer)
  rw [hlength] at hdata
  have hboth := @CpioListing.member .odc [] 0 linkHeader [97, 0] [] [] [] _ linkedHeader _ linkHeader_heads rfl
    (by decide) (by decide) (by decide) rfl rfl (fun _ => by decide) rfl
    (by rw [hlink]; exact hdata)
  rw [hlink] at hboth
  simp only [List.nil_append, List.append_nil] at hboth
  exact hboth

/-- Offered byte by byte, both names are reported, the link after the data. -/
theorem reports_every_member_group :
    ∃ fuel reports, drive feed (fun _ => 0) fuel 0 new groupArchive = some (reports.map Prod.fst) ∧
      CpioAccount groupArchive groupFiles reports :=
  reports_every_member groupArchive_wellFormed fun _ => 0

end CpioParser
end Iluvatar
