/-
An ar archive that was written, read by the engine's parser.

No call of that reading idles: the long-name table is left out where it would be empty, and so
every call takes some bytes.
-/
import Iluvatar.Archive.ArRoundTrip
import Iluvatar.Engine.Cuts

namespace Iluvatar

open Sansio

variable {plain : List Byte}

/-! ## Calls that take bytes -/

/-- One call after the other, and each takes some bytes. -/
def Place.Strides (plain : List Byte) : Place ArParser → Place ArParser → Prop :=
  Relation.ReflTransGen fun s s' => s.next ArParser.feed plain = some s' ∧ s.taken < s'.taken

/-- A call of the engine's parser that answers. -/
theorem archiveParsers_ar {p p' : ArParser} {data : List Byte} {n : Nat} {event : ArchiveEvent}
    (h : p.feed data = (.ok (n, event), p')) :
    archiveParsers.feed (.inr (.inr p)) data = (.ok (n, event), .inr (.inr p')) := by
  show (((p.feed data).1.mapError Fault.error), Sum.inr (Sum.inr (p.feed data).2)) = _
  rw [h]
  rfl

theorem Place.next_some {s s' : Place ArParser} (h : s.next ArParser.feed plain = some s') :
    plain.drop s.taken ≠ [] ∧ ∃ n event,
      s.parser.feed (plain.drop s.taken) = (.ok (n, event), s'.parser) ∧ event ≠ .endOfArchive ∧
        s'.taken = s.taken + n ∧ s'.entries = s.entries ++ event.entries := by
  unfold next at h
  split at h
  · cases h
  · next hleft =>
    split at h
    · cases h
    · cases h
    · next n event p hevent hfeed =>
      obtain rfl := Option.some.inj h
      exact ⟨hleft, n, event, hfeed, hevent, rfl, rfl⟩

namespace Place.Strides

variable {s s' : Place ArParser}

/-- The reading of the engine goes the same way. -/
theorem reading (h : Strides plain s s') {outcome : ReadOutcome} {entries : List IndexEntry}
    (hthen : Reading archiveParsers plain (.inr (.inr s'.parser)) s'.taken (s'.entries.map recordOf) outcome entries) :
    Reading archiveParsers plain (.inr (.inr s.parser)) s.taken (s.entries.map recordOf) outcome entries := by
  induction h using Relation.ReflTransGen.head_induction_on with
  | refl => exact hthen
  | @head s₁ s₂ hstep _ ih =>
    obtain ⟨hleft, n, event, hfeed, hevent, htaken, hentries⟩ := next_some hstep.1
    rw [htaken, hentries] at ih
    have hanswer := archiveParsers_ar hfeed
    cases event with
    | endOfArchive => exact absurd rfl hevent
    | needData =>
      rw [ArchiveEvent.entries_needData, List.append_nil] at ih
      exact .needData hleft hanswer ih
    | entry e =>
      rw [ArchiveEvent.entries_entry, List.map_append] at ih
      exact .entry hleft hanswer ih

/-- A call that idles is none of these. -/
theorem meetsIdle (h : Strides plain s s') (hmeets : MeetsIdle archiveParsers plain (.inr (.inr s.parser)) s.taken) :
    MeetsIdle archiveParsers plain (.inr (.inr s'.parser)) s'.taken := by
  induction h using Relation.ReflTransGen.head_induction_on with
  | refl => exact hmeets
  | @head s₁ s₂ hstep _ ih =>
    obtain ⟨hleft, n, event, hfeed, hevent, htaken, _⟩ := next_some hstep.1
    have hmore := hstep.2
    rw [htaken] at ih hmore
    have hanswer := archiveParsers_ar hfeed
    apply ih
    cases hmeets with
    | here _ hidle =>
      obtain ⟨q, hidle⟩ := hidle
      rw [hanswer] at hidle
      obtain ⟨hzero, _⟩ := Prod.mk.inj (Except.ok.inj (Prod.mk.inj hidle).1)
      omega
    | entry _ hentry hrest =>
      rw [hanswer] at hentry
      obtain ⟨hsame, rfl⟩ := Prod.mk.inj hentry
      obtain ⟨rfl, _⟩ := Prod.mk.inj (Except.ok.inj hsame)
      exact hrest
    | needData _ hneeds hrest =>
      rw [hanswer] at hneeds
      obtain ⟨hsame, rfl⟩ := Prod.mk.inj hneeds
      obtain ⟨rfl, _⟩ := Prod.mk.inj (Except.ok.inj hsame)
      exact hrest

end Place.Strides

namespace ArParser

open Ar

/-! ## Archives -/

variable {r : Record} {pos taken : Nat} {table table' : Option (List Byte)} {p p' : ArParser}
variable {es : List ArchiveEntry} {piece bytes rest : List Byte}

theorem piece_strides {event : ArchiveEvent} (hleft : plain.drop taken = piece ++ rest) (hne : piece ≠ [])
    (hwants : wants p = piece.length) (hcomplete : complete p piece = (.ok event, p'))
    (hevent : event ≠ .endOfArchive) :
    Place.Strides plain { taken, entries := es, parser := p }
      { taken := taken + piece.length, entries := es ++ event.entries, parser := p' } := by
  have hpos := List.length_pos_iff.mpr hne
  have hsome : plain.drop taken ≠ [] := by
    rw [hleft]
    simp [hne]
  exact .single ⟨next_complete (s := { taken, entries := es, parser := p }) hleft hsome hwants hcomplete hevent,
    by show taken < taken + _; omega⟩

theorem skip_strides {n pad : Nat} (hleft : plain.drop taken = bytes ++ rest) (hlength : bytes.length = n + pad) :
    Place.Strides plain { taken, entries := es, parser := (atBoundary pos table).skip n pad }
      { taken := taken + bytes.length, entries := es, parser := atBoundary (pos + bytes.length) table } := by
  by_cases hzero : n + pad = 0
  · have hnone : bytes = [] := List.eq_nil_of_length_eq_zero (hlength.trans hzero)
    have hn : n = 0 := by omega
    have hpad : pad = 0 := by omega
    subst hnone hn hpad
    exact .refl
  · rw [skip_pos _ hzero]
    have hne : bytes ≠ [] := by
      rintro rfl
      exact hzero hlength.symm
    have hcomplete : complete { atBoundary pos table with state := .skippingData (n + pad) pad } bytes =
        (.ok .needData, atBoundary (pos + bytes.length) table) := by
      rw [← hlength]
      rfl
    have hwants : wants { atBoundary pos table with state := .skippingData (n + pad) pad } = bytes.length :=
      hlength.symm
    have hstride := @piece_strides plain taken _ _ es bytes rest .needData hleft hne hwants hcomplete
      (fun h => by cases h)
    rwa [ArchiveEvent.entries_needData, List.append_nil] at hstride

/-- A header read, and what comes after it. -/
theorem header_strides (h : r.Writable) {event : ArchiveEvent} (hevent : event ≠ .endOfArchive)
    (hcomplete : complete (atBoundary pos table) r.header = (.ok event, p'))
    (hleft : plain.drop taken = r.bytes ++ rest) :
    Place.Strides plain { taken, entries := es, parser := atBoundary pos table }
        { taken := taken + Ar.headerSize, entries := es ++ event.entries, parser := p' } ∧
      plain.drop (taken + Ar.headerSize) = r.inlineName ++ (r.data ++ Record.padding r.size) ++ rest := by
  have hsplit : plain.drop taken = r.header ++ (r.inlineName ++ (r.data ++ Record.padding r.size) ++ rest) := by
    rw [hleft, Record.bytes, List.append_assoc]
  have hwants : wants (atBoundary pos table) = r.header.length := (r.header_length h).symm
  have hstride := @piece_strides plain taken _ _ es r.header _ event hsplit (header_ne_nil h) hwants hcomplete hevent
  rw [r.header_length h] at hstride
  refine ⟨hstride, ?_⟩
  rw [← List.drop_drop, hsplit, ← r.header_length h, List.drop_left]

/-- A member whose data are passed over after its header. -/
theorem header_skip_strides (h : r.Writable) {event : ArchiveEvent} (hevent : event ≠ .endOfArchive)
    (hinline : r.inlineName = [])
    (hcomplete : complete (atBoundary pos table) r.header =
      (.ok event, (atBoundary (pos + Ar.headerSize) table).skip r.size (r.size % 2)))
    (hleft : plain.drop taken = r.bytes ++ rest) :
    Place.Strides plain { taken, entries := es, parser := atBoundary pos table }
      { taken := taken + r.bytes.length, entries := es ++ event.entries,
        parser := atBoundary (pos + r.bytes.length) table } := by
  obtain ⟨hheader, hthen⟩ := @header_strides plain r pos taken table _ es rest h event hevent hcomplete hleft
  rw [hinline, List.nil_append] at hthen
  have hbody : (r.data ++ Record.padding r.size).length = r.size + r.size % 2 := by
    rw [List.length_append, padding_length, size_eq hinline]
  have hskip := @skip_strides plain (pos + Ar.headerSize) _ table (es ++ event.entries) _ rest r.size (r.size % 2) hthen
    hbody
  rw [hbody, Nat.add_assoc, Nat.add_assoc, ← bytes_length h] at hskip
  exact hheader.trans hskip

/-- A member of which something is read after the header, and the rest passed over. -/
theorem header_piece_strides (h : r.Writable) {event : ArchiveEvent} {mid : ArParser} {body : List Byte} {m : Nat}
    (hevent : event ≠ .endOfArchive) (hheader : complete (atBoundary pos table) r.header = (.ok .needData, mid))
    (hne : piece ≠ []) (hwants : wants mid = piece.length)
    (hcomplete : complete mid piece =
      (.ok event, (atBoundary (pos + Ar.headerSize + piece.length) table').skip m (r.size % 2)))
    (hall : r.inlineName ++ (r.data ++ Record.padding r.size) = piece ++ body)
    (hbody : body.length = m + r.size % 2) (hsize : piece.length + m = r.size)
    (hleft : plain.drop taken = r.bytes ++ rest) :
    Place.Strides plain { taken, entries := es, parser := atBoundary pos table }
      { taken := taken + r.bytes.length, entries := es ++ event.entries,
        parser := atBoundary (pos + r.bytes.length) table' } := by
  obtain ⟨hfirst, hthen⟩ := @header_strides plain r pos taken table _ es rest h .needData (fun h => by cases h) hheader
    hleft
  rw [ArchiveEvent.entries_needData, List.append_nil] at hfirst
  rw [hall, List.append_assoc] at hthen
  have hpiece := @piece_strides plain (taken + Ar.headerSize) _ _ es piece _ event hthen hne hwants hcomplete hevent
  have hafter : plain.drop (taken + Ar.headerSize + piece.length) = body ++ rest := by
    rw [← List.drop_drop, hthen, List.drop_left]
  have hskip := @skip_strides plain (pos + Ar.headerSize + piece.length) _ table' (es ++ event.entries) body rest m
    (r.size % 2) hafter hbody
  have hwhole : ∀ k, k + Ar.headerSize + piece.length + body.length = k + r.bytes.length := by
    intro k
    rw [bytes_length h, hbody]
    omega
  rw [hwhole, hwhole] at hskip
  exact hfirst.trans (hpiece.trans hskip)

/-- A member read in calls that each take some bytes. -/
theorem record_strides (h : r.Writable) (hreads : Reads table r table') (hleft : plain.drop taken = r.bytes ++ rest) :
    Place.Strides plain { taken, entries := es, parser := atBoundary pos table }
      { taken := taken + r.bytes.length, entries := es ++ r.entryAt pos,
        parser := atBoundary (pos + r.bytes.length) table' } := by
  have hinlineSize : r.inlineName.length + r.data.length = r.size := rfl
  have hinlineBody : (r.data ++ Record.padding r.size).length = r.data.length + r.size % 2 := by
    rw [List.length_append, padding_length]
  have hnoEntry : r.path = none → r.entryAt pos = ArchiveEvent.needData.entries := by
    intro hpath
    unfold Record.entryAt
    rw [hpath]
    rfl
  cases hreads with
  | skipped hinline hpath hclass =>
    rw [hnoEntry hpath]
    have hcomplete := @complete_header r pos table h _ hclass (.inr fun h => by cases h)
    exact header_skip_strides h (fun h => by cases h) hinline hcomplete hleft
  | named path hinline hpath hclass =>
    have hcomplete := @complete_header r pos table h _ hclass (.inr fun h => by cases h)
    have hentry := entryAt_eq hpath pos table
    rw [hinline, ← size_eq hinline] at hentry
    rw [hentry]
    exact header_skip_strides h (fun h => by cases h) hinline hcomplete hleft
  | nameTable hinline hpath hdata hsmall hclass =>
    have hsize := size_eq hinline
    rw [hnoEntry hpath]
    have hall : r.inlineName ++ (r.data ++ Record.padding r.size) = r.data ++ Record.padding r.size := by
      rw [hinline, List.nil_append]
    have hbody : (Record.padding r.size).length = 0 + r.size % 2 := by rw [padding_length, Nat.zero_add]
    exact header_piece_strides h (fun h => by cases h) (complete_header h hclass (.inl hsmall)) hdata hsize rfl hall
      hbody (by rw [hsize, Nat.add_zero]) hleft
  | bsdSymbols hinline hpath hsymbols hclass =>
    have hcomplete := complete_bsdName (pos + Ar.headerSize) table r
    rw [if_pos hsymbols] at hcomplete
    rw [hnoEntry hpath]
    exact header_piece_strides h (fun h => by cases h) (complete_header h hclass (.inr fun h => by cases h)) hinline rfl
      hcomplete rfl hinlineBody hinlineSize hleft
  | bsdNamed path hpath hname hsymbols htext hclass =>
    have hinline : r.inlineName ≠ [] := by
      intro hnil
      rw [hnil] at hname
      exact hname rfl
    have hempty : (trimEnd 0 r.inlineName).isEmpty = false := by simpa using hname
    have hcomplete := complete_bsdName (pos + Ar.headerSize) table r
    rw [if_neg hsymbols, hempty, if_neg Bool.false_ne_true, htext] at hcomplete
    rw [entryAt_eq hpath pos table]
    exact header_piece_strides h (fun h => by cases h) (complete_header h hclass (.inr fun h => by cases h)) hinline rfl
      hcomplete rfl hinlineBody hinlineSize hleft

theorem records_strides {rs : List Record} (h : ReadsAll table rs table') :
    ∀ {pos taken : Nat} {es : List ArchiveEntry}, plain.drop taken = rs.flatMap Record.bytes ++ rest →
      Place.Strides plain { taken, entries := es, parser := atBoundary pos table }
        { taken := taken + (rs.flatMap Record.bytes).length, entries := es ++ Record.entriesFrom pos rs,
          parser := atBoundary (pos + (rs.flatMap Record.bytes).length) table' } := by
  induction h with
  | nil =>
    intro pos taken es _
    simp only [List.flatMap_nil, List.length_nil, Nat.add_zero, Record.entriesFrom, List.append_nil]
    exact .refl
  | @cons _ _ _ r rs hwritable hreads _ ih =>
    intro pos taken es hleft
    rw [List.flatMap_cons, List.append_assoc] at hleft
    have hthen : plain.drop (taken + r.bytes.length) = rs.flatMap Record.bytes ++ rest := by
      rw [← List.drop_drop, hleft, List.drop_left]
    have hstrides := (@record_strides plain r pos taken _ _ es _ hwritable hreads hleft).trans (ih hthen)
    rw [Nat.add_assoc, Nat.add_assoc, ← List.length_append, ← List.flatMap_cons, List.append_assoc] at hstrides
    exact hstrides

/-- An archive read in calls that each take some bytes. -/
theorem archive_strides {rs : List Record} (h : ReadsAll none rs table) :
    Place.Strides (archive rs) { taken := 0, entries := [], parser := new }
      { taken := (archive rs).length, entries := Record.entriesFrom arMagic.length rs,
        parser := atBoundary (archive rs).length table } := by
  have hmagic : (archive rs).drop 0 = arMagic ++ rs.flatMap Record.bytes := rfl
  have hcomplete : complete new arMagic = (.ok .needData, atBoundary arMagic.length none) := by
    have hthin : arMagic ≠ thinMagic := by decide
    show (new.buffer arMagic).bufferComplete arMagic.length magicComplete = _
    unfold bufferComplete magicComplete buffer new
    rw [List.nil_append, if_neg (by simp), if_neg hthin, if_neg (by simp), Nat.zero_add]
    rfl
  have hfirst := @piece_strides (archive rs) 0 _ _ [] arMagic _ .needData hmagic (by decide) rfl hcomplete
    (fun h => by cases h)
  have hrecords : (archive rs).drop (0 + arMagic.length) = rs.flatMap Record.bytes ++ [] := by
    rw [Nat.zero_add, List.append_nil]
    exact List.drop_left
  have hlength : (archive rs).length = 0 + arMagic.length + (rs.flatMap Record.bytes).length := by
    rw [Nat.zero_add]
    exact List.length_append
  have hstrides := hfirst.trans (records_strides h hrecords)
  rw [hlength]
  exact hstrides

/-- The engine's parser reads the archive to its end, and no call of it idles. -/
theorem archive_reading {rs : List Record} (h : ReadsAll none rs table) :
    Reading archiveParsers (archive rs) (readerOf none (archive rs)) 0 [] .done
        ((Record.entriesFrom arMagic.length rs).map recordOf) ∧
      ¬ MeetsIdle archiveParsers (archive rs) (readerOf none (archive rs)) 0 := by
  have hlong : 8 ≤ (archive rs).length := by
    unfold archive
    rw [List.length_append]
    exact Nat.le_add_right 8 _
  have hmagic : (archive rs).take 8 = arMagic := by
    show (arMagic ++ rs.flatMap Record.bytes).take arMagic.length = arMagic
    exact List.take_left
  have hformat : detectArchiveFormat (archive rs) = some .ar := by
    unfold detectArchiveFormat
    exact if_pos ⟨hlong, .inl hmagic⟩
  have hreader : readerOf none (archive rs) = .inr (.inr new) := by
    rw [readerOf, Option.none_or, hformat]
    rfl
  have hover : (archive rs).drop (archive rs).length = [] := List.drop_length
  rw [hreader]
  refine ⟨(archive_strides h).reading (.finished hover rfl), fun hmeets => ?_⟩
  have hlast := (archive_strides h).meetsIdle hmeets
  cases hlast with
  | here hleft _ => exact hleft hover
  | entry hleft _ _ => exact hleft hover
  | needData hleft _ _ => exact hleft hover

/-- The data of every entry lie within what the records take. -/
theorem entriesFrom_within {rs : List Record} : (∀ r ∈ rs, r.Writable) → ∀ {pos : Nat},
    ∀ e ∈ Record.entriesFrom pos rs, e.dataOffset + e.size ≤ pos + (rs.flatMap Record.bytes).length := by
  induction rs with
  | nil => intro _ pos e he; cases he
  | cons r rs ih =>
    intro hwritable pos e he
    rw [List.flatMap_cons, List.length_append]
    rcases List.mem_append.mp he with hhere | hlater
    · have hlength := bytes_length (hwritable r List.mem_cons_self)
      have hsize : r.inlineName.length + r.data.length = r.size := rfl
      unfold Record.entryAt at hhere
      cases hpath : r.path with
      | none =>
        rw [hpath] at hhere
        cases hhere
      | some path =>
        rw [hpath] at hhere
        obtain rfl := List.mem_singleton.mp hhere
        show pos + Ar.headerSize + r.inlineName.length + r.data.length ≤ _
        omega
    · have hrest := ih (fun r hr => hwritable r (List.mem_cons_of_mem _ hr)) e hlater
      omega

/-- What the engine's parser records of an archive that was written are its files, in order. -/
theorem written_reading (d : Dialect) (symbols : List Record) (files : List File)
    (hsymbols : ∀ r ∈ symbols, r.IsSymbols) (hlimits : WithinLimits d files) (hnames : NoneAmbiguous d files) :
    ∃ entries, List.Forall₂ (Describes (archive (symbols ++ fileRecords d files))) files entries ∧
      (∀ e ∈ entries, e.dataOffset + e.size ≤ (archive (symbols ++ fileRecords d files)).length) ∧
      Reading archiveParsers (archive (symbols ++ fileRecords d files))
        (readerOf none (archive (symbols ++ fileRecords d files))) 0 [] .done (entries.map recordOf) ∧
      ¬ MeetsIdle archiveParsers (archive (symbols ++ fileRecords d files))
        (readerOf none (archive (symbols ++ fileRecords d files))) 0 := by
  obtain ⟨table, hreadFiles⟩ := files_readAll hlimits hnames
  have hreads := (symbols_readAll hsymbols).append hreadFiles
  obtain ⟨front, rs, hsplit, hfront, hfiles⟩ := fileRecords_isFile d files
  have hall : symbols ++ fileRecords d files = (symbols ++ front) ++ rs := by rw [hsplit, List.append_assoc]
  have hnone : ∀ r ∈ symbols ++ front, r.path = none := by
    intro r hr
    rcases List.mem_append.mp hr with hr | hr
    · exact (hsymbols r hr).path
    · exact hfront r hr
  have hwritable : ∀ r ∈ rs, r.Writable := fun r hr => hreads.writable r (by
    rw [hall]
    exact List.mem_append_right _ hr)
  have hat : (archive (symbols ++ fileRecords d files)).drop
      (arMagic.length + ((symbols ++ front).flatMap Record.bytes).length) = rs.flatMap Record.bytes ++ [] := by
    unfold archive
    rw [hall, ← List.drop_drop, List.drop_left, @List.flatMap_append _ _ (symbols ++ front), List.drop_left,
      List.append_nil]
  have hdescribes := entriesFrom_describes hfiles hwritable hat
  have hentries : Record.entriesFrom arMagic.length (symbols ++ fileRecords d files) =
      Record.entriesFrom (arMagic.length + ((symbols ++ front).flatMap Record.bytes).length) rs := by
    rw [hall, entriesFrom_append, entriesFrom_none hnone, List.nil_append]
  have hlength : (archive (symbols ++ fileRecords d files)).length =
      arMagic.length + ((symbols ++ fileRecords d files).flatMap Record.bytes).length := List.length_append
  refine ⟨Record.entriesFrom arMagic.length (symbols ++ fileRecords d files), by rw [hentries]; exact hdescribes, ?_,
    (archive_reading hreads).1, (archive_reading hreads).2⟩
  rw [hlength]
  exact entriesFrom_within fun r hr => hreads.writable r hr

end ArParser
end Iluvatar
