/-
The ar parser on an archive that is written, and on one that is cut off.

A run reads some bytes whole, and says how many of them have to be there for the end of the stream
to be accepted after part of them.
-/
import Iluvatar.Archive.ArFormat
import Iluvatar.Archive.ArPieces
import Iluvatar.Engine.Feedings

namespace Iluvatar
namespace ArParser

open Ar (Record trimEnd)

variable {plain : List Byte}

/-! ## Pieces -/

/-- A piece that is there is completed. -/
theorem next_complete {s : Place ArParser} {piece rest : List Byte} {event : ArchiveEvent} {p' : ArParser}
    (hleft : plain.drop s.taken = piece ++ rest) (hne : plain.drop s.taken ≠ [])
    (hwants : wants s.parser = piece.length)
    (hcomplete : complete s.parser piece = (.ok event, p')) (hevent : event ≠ .endOfArchive) :
    s.next feed plain =
      some { taken := s.taken + piece.length, entries := s.entries ++ event.entries, parser := p' } := by
  have hlong : wants s.parser ≤ (plain.drop s.taken).length := by
    rw [hleft, hwants, List.length_append]
    omega
  have hfeed := pieces.full s.parser (plain.drop s.taken) trivial hne hlong
  have htake : (plain.drop s.taken).take (wants s.parser) = piece := by rw [hleft, hwants, List.take_left]
  have hanswer : feed s.parser (plain.drop s.taken) = (.ok (piece.length, event), p') := by
    rw [hfeed]
    show answering (wants s.parser) (complete s.parser ((plain.drop s.taken).take (wants s.parser))) = _
    rw [htake, hcomplete, hwants]
    rfl
  unfold Place.next
  rw [if_neg hne, hanswer]
  cases event with
  | endOfArchive => exact absurd rfl hevent
  | needData => rfl
  | entry e => rfl

/-- A piece that is cut off is taken as far as it goes. -/
theorem next_short {s : Place ArParser} (hne : plain.drop s.taken ≠ [])
    (hshort : (plain.drop s.taken).length < wants s.parser) :
    s.next feed plain = some
      { taken := s.taken + (plain.drop s.taken).length, entries := s.entries,
        parser := absorb s.parser (plain.drop s.taken) } := by
  have hfeed := pieces.short s.parser (plain.drop s.taken) trivial hne hshort
  unfold Place.next
  rw [if_neg hne, hfeed]
  simp only [ArchiveEvent.entries_needData, List.append_nil]
  rfl

/-- The end of the stream is accepted. -/
def Accepts (p : ArParser) : Prop := p.endOfStream = .ok ()

/-- From `p` the parser reads `bytes`, reports `entries` and is `p'`.  Cut off, the stream may end once
`needed` of the bytes are there. -/
structure Run (p : ArParser) (bytes : List Byte) (needed : Nat) (entries : List ArchiveEntry) (p' : ArParser) :
    Prop where
  whole : ∀ (plain rest : List Byte) (pos : Nat) (es : List ArchiveEntry), plain.drop pos = bytes ++ rest →
    Place.Leads feed plain { taken := pos, entries := es, parser := p }
      { taken := pos + bytes.length, entries := es ++ entries, parser := p' }
  cut : ∀ (plain : List Byte) (pos : Nat) (es : List ArchiveEntry), plain.drop pos ≠ [] →
    (∃ missing, missing ≠ [] ∧ plain.drop pos ++ missing = bytes) →
    ∃ s, Place.Leads feed plain { taken := pos, entries := es, parser := p } s ∧ plain.drop s.taken = [] ∧
      (Accepts s.parser ↔ needed ≤ (plain.drop pos).length)

variable {p q p' : ArParser} {piece bytes more : List Byte} {needed : Nat} {es es' : List ArchiveEntry}

theorem drop_all (plain : List Byte) (pos : Nat) : plain.drop (pos + (plain.drop pos).length) = [] := by
  rw [List.drop_eq_nil_iff, List.length_drop]
  omega

/-- One piece that is not to be cut. -/
theorem Run.ofPiece {event : ArchiveEvent} (hne : piece ≠ []) (hwants : wants p = piece.length)
    (hcomplete : complete p piece = (.ok event, p')) (hevent : event ≠ .endOfArchive)
    (hcut : ∀ data, data ≠ [] → data.length < piece.length → ¬ Accepts (absorb p data)) :
    Run p piece piece.length event.entries p' where
  whole := by
    intro plain rest pos es hleft
    refine .single (next_complete hleft ?_ hwants hcomplete hevent)
    rw [hleft]
    simp [hne]
  cut := by
    rintro plain pos es hsome ⟨missing, hmissing, hall⟩
    have hpos := List.length_pos_iff.mpr hmissing
    have hlength := congrArg List.length hall
    rw [List.length_append] at hlength
    have hshort : (plain.drop pos).length < wants p := by
      rw [hwants]
      omega
    refine ⟨_, .single (next_short hsome hshort), drop_all plain pos, ?_⟩
    constructor
    · exact fun haccepts => absurd haccepts (hcut (plain.drop pos) hsome (by omega))
    · intro hneeded
      omega

/-- What follows a run that is not to be cut. -/
theorem Run.andThen {a b : List Byte} (ha : Run p a a.length es q) (hb : Run q b needed es' p')
    (hstart : Accepts q ↔ needed = 0) : Run p (a ++ b) (a.length + needed) (es ++ es') p' where
  whole := by
    intro plain rest pos es'' hleft
    rw [List.append_assoc] at hleft
    have hthen : plain.drop (pos + a.length) = b ++ rest := by rw [← List.drop_drop, hleft, List.drop_left]
    have hleads := (ha.whole plain _ pos es'' hleft).trans (hb.whole plain rest _ _ hthen)
    rw [List.append_assoc, Nat.add_assoc, ← List.length_append] at hleads
    exact hleads
  cut := by
    rintro plain pos es'' hsome ⟨missing, hmissing, hall⟩
    have hpos := List.length_pos_iff.mpr hmissing
    by_cases hshort : (plain.drop pos).length < a.length
    · -- the first run is cut off
      have hpart : plain.drop pos ++ a.drop (plain.drop pos).length = a := by
        have htake : (plain.drop pos ++ missing).take (plain.drop pos).length =
            (a ++ b).take (plain.drop pos).length := by rw [hall]
        rw [List.take_left, List.take_append_of_le_length (Nat.le_of_lt hshort)] at htake
        conv_lhs => rw [htake]
        rw [List.length_take, Nat.min_eq_left (Nat.le_of_lt hshort), List.take_append_drop]
      obtain ⟨s, hleads, hover, haccepts⟩ := ha.cut plain pos es'' hsome
        ⟨a.drop (plain.drop pos).length, by rw [ne_eq, List.drop_eq_nil_iff]; omega, hpart⟩
      refine ⟨s, hleads, hover, haccepts.trans ?_⟩
      omega
    · have hrest : plain.drop pos = a ++ plain.drop (pos + a.length) := by
        have htake : (plain.drop pos).take a.length = a := by
          have hboth : (plain.drop pos ++ missing).take a.length = (a ++ b).take a.length := by rw [hall]
          rwa [List.take_left, List.take_append_of_le_length (by omega)] at hboth
        rw [← List.drop_drop]
        conv_lhs => rw [← List.take_append_drop a.length (plain.drop pos), htake]
      have hleads := ha.whole plain _ pos es'' hrest
      have hlength : (plain.drop pos).length = a.length + (plain.drop (pos + a.length)).length := by
        conv_lhs => rw [hrest]
        rw [List.length_append]
      by_cases hnone : plain.drop (pos + a.length) = []
      · refine ⟨_, hleads, hnone, hstart.trans ?_⟩
        rw [hlength, hnone, List.length_nil]
        omega
      · have hpart : plain.drop (pos + a.length) ++ missing = b := by
          rw [hrest, List.append_assoc] at hall
          exact List.append_cancel_left hall
        obtain ⟨s, hthen, hover, haccepts⟩ := hb.cut plain (pos + a.length) (es'' ++ es) hnone
          ⟨missing, hmissing, hpart⟩
        refine ⟨s, hleads.trans hthen, hover, haccepts.trans ?_⟩
        omega

/-! ## Members -/

/-- The parser at a member boundary. -/
def atBoundary (pos : Nat) (table : Option (List Byte)) : ArParser :=
  { state := .readingHeader, headerBuf := [], streamPos := pos, nameTable := table }

theorem atBoundary_accepts (pos : Nat) (table : Option (List Byte)) : Accepts (atBoundary pos table) := rfl

theorem skip_zero (p : ArParser) : p.skip 0 0 = { p with state := .readingHeader } := rfl

theorem skip_pos {n pad : Nat} (p : ArParser) (h : n + pad ≠ 0) :
    p.skip n pad = { p with state := .skippingData (n + pad) pad } := by
  unfold skip
  rw [if_neg h]

theorem accepts_skipping {remaining pad : Nat} (h : p.state = .skippingData remaining pad) :
    Accepts p ↔ remaining ≤ pad := by
  unfold Accepts endOfStream
  rw [h]
  by_cases hdone : remaining ≤ pad
  · exact iff_of_true (if_pos hdone) hdone
  · refine iff_of_false (fun haccepts => ?_) hdone
    have herror := (if_neg hdone).symm.trans haccepts
    cases herror

theorem skip_accepts (pos : Nat) (table : Option (List Byte)) (n pad : Nat) :
    Accepts ((atBoundary pos table).skip n pad) ↔ n = 0 := by
  by_cases hzero : n + pad = 0
  · have hn : n = 0 := by omega
    have hpad : pad = 0 := by omega
    subst hn hpad
    exact iff_of_true rfl rfl
  · rw [skip_pos _ hzero]
    refine (accepts_skipping rfl).trans ?_
    omega

/-- Data and padding passed over: once the data are there the stream may end. -/
theorem skip_run {pos n pad : Nat} {table : Option (List Byte)} (hlength : bytes.length = n + pad) :
    Run ((atBoundary pos table).skip n pad) bytes n [] (atBoundary (pos + (n + pad)) table) where
  whole := by
    intro plain rest taken es hleft
    by_cases hzero : n + pad = 0
    · have hnone : bytes = [] := List.eq_nil_of_length_eq_zero (hlength.trans hzero)
      have hn : n = 0 := by omega
      have hpad : pad = 0 := by omega
      subst hnone hn hpad
      rw [List.append_nil]
      exact .refl
    · rw [skip_pos _ hzero]
      have hne : bytes ≠ [] := by
        rintro rfl
        exact hzero hlength.symm
      have hcomplete : complete { atBoundary pos table with state := .skippingData (n + pad) pad } bytes =
          (.ok .needData, atBoundary (pos + (n + pad)) table) := by
        rw [← hlength]
        rfl
      refine .single (next_complete (s := { taken, entries := es, parser := { atBoundary pos table with
        state := .skippingData (n + pad) pad } }) hleft ?_ hlength.symm hcomplete ?_)
      · rw [hleft]
        simp [hne]
      · exact fun h => by cases h
  cut := by
    rintro plain taken es hsome ⟨missing, hmissing, hall⟩
    have hpos := List.length_pos_iff.mpr hmissing
    have hlen := congrArg List.length hall
    rw [List.length_append, hlength] at hlen
    have hzero : n + pad ≠ 0 := by omega
    have hshort : (plain.drop taken).length < wants ((atBoundary pos table).skip n pad) := by
      rw [skip_pos _ hzero]
      show _ < n + pad
      omega
    refine ⟨_, .single (next_short hsome hshort), drop_all plain taken, ?_⟩
    rw [skip_pos _ hzero]
    have haccepts : Accepts (absorb { atBoundary pos table with state := .skippingData (n + pad) pad }
        (plain.drop taken)) ↔
        n + pad - (plain.drop taken).length ≤ min pad (n + pad - (plain.drop taken).length) := accepts_skipping rfl
    refine haccepts.trans ?_
    omega

variable {r : Record} {pos : Nat} {table : Option (List Byte)}

/-- What the parser takes a record for. -/
def Classified (table : Option (List Byte)) (r : Record) (m : Ar.Member) : Prop :=
  ∀ pos, (atBoundary pos table).classify r.told = .ok m

/-- A header read whole is all that is in the buffer. -/
theorem complete_buffered (h : r.Writable) : complete (atBoundary pos table) r.header =
    headerComplete { atBoundary (pos + Ar.headerSize) table with headerBuf := r.header } := by
  have hlength := r.header_length h
  have hbuffer : (atBoundary pos table).buffer r.header =
      { atBoundary (pos + Ar.headerSize) table with headerBuf := r.header } := by
    unfold buffer
    rw [hlength]
    rfl
  show ((atBoundary pos table).buffer r.header).bufferComplete Ar.headerSize headerComplete = _
  rw [hbuffer]
  exact if_neg (by simp [hlength])

/-- A header read whole. -/
theorem complete_header (h : r.Writable) {m : Ar.Member} (hm : Classified table r m)
    (hsmall : r.size ≤ Ar.maxNameTableSize ∨ m ≠ .nameTable) :
    complete (atBoundary pos table) r.header =
      match m with
      | .skip => (.ok .needData, (atBoundary (pos + Ar.headerSize) table).skip r.size (r.size % 2))
      | .nameTable =>
        (.ok .needData,
          { atBoundary (pos + Ar.headerSize) table with state := .readingNameTable r.size (r.size % 2) [] })
      | .bsdName len =>
        (.ok .needData, { atBoundary (pos + Ar.headerSize) table with state := .readingBsdName r.told len [] })
      | .named path =>
        (.ok (.entry ((atBoundary (pos + Ar.headerSize) table).entry path r.told r.size)),
          (atBoundary (pos + Ar.headerSize) table).skip r.size (r.size % 2)) := by
  rw [complete_buffered h]
  unfold headerComplete
  simp only [Record.parseHeader_header h]
  have hclass : ({ atBoundary (pos + Ar.headerSize) table with headerBuf := [] } : ArParser).classify r.told = .ok m :=
    hm (pos + Ar.headerSize)
  simp only [hclass]
  cases m with
  | skip => rfl
  | nameTable =>
    have hfits : ¬ Ar.maxNameTableSize < r.told.size := by
      rcases hsmall with hle | hne
      · exact Nat.not_lt.mpr hle
      · exact absurd rfl hne
    simp only [if_neg hfits]
    rfl
  | bsdName len => rfl
  | named path => rfl

theorem header_ne_nil (h : r.Writable) : r.header ≠ [] := by
  intro hnil
  have hlength := r.header_length h
  rw [hnil] at hlength
  cases hlength

/-- No archive ends in a header. -/
theorem header_run (h : r.Writable) {event : ArchiveEvent} (hevent : event ≠ .endOfArchive)
    (hcomplete : complete (atBoundary pos table) r.header = (.ok event, p')) :
    Run (atBoundary pos table) r.header r.header.length event.entries p' := by
  have hwants : wants (atBoundary pos table) = r.header.length := (r.header_length h).symm
  refine .ofPiece (header_ne_nil h) hwants hcomplete hevent ?_
  intro data hdata hshort haccepts
  have hempty : data.isEmpty = false := by simpa using hdata
  unfold Accepts absorb endOfStream buffer atBoundary at haccepts
  simp only [List.nil_append, hempty, Bool.false_eq_true, if_false] at haccepts
  cases haccepts

/-- What a record is to the parser, which has the long-name table `table` before and another after. -/
inductive Reads (table : Option (List Byte)) (r : Record) : Option (List Byte) → Prop where
  | skipped : r.inlineName = [] → r.path = none → Classified table r .skip → Reads table r table
  | nameTable : r.inlineName = [] → r.path = none → r.data ≠ [] → r.size ≤ Ar.maxNameTableSize →
      Classified table r .nameTable → Reads table r (some r.data)
  | named (path : String) : r.inlineName = [] → r.path = some path → Classified table r (.named path) →
      Reads table r table
  | bsdSymbols : r.inlineName ≠ [] → r.path = none → (trimEnd 0 r.inlineName).take 9 = ascii "__.SYMDEF" →
      Classified table r (.bsdName r.inlineName.length) → Reads table r table
  | bsdNamed (path : String) : r.path = some path → trimEnd 0 r.inlineName ≠ [] →
      (trimEnd 0 r.inlineName).take 9 ≠ ascii "__.SYMDEF" → fromUtf8Lossy (trimEnd 0 r.inlineName) = path →
      Classified table r (.bsdName r.inlineName.length) → Reads table r table

theorem padding_length (size : Nat) : (Record.padding size).length = size % 2 := by
  unfold Record.padding
  rcases Nat.mod_two_eq_zero_or_one size with h | h
  · rw [if_neg (by omega), h]
    rfl
  · rw [if_pos h, h]
    rfl

theorem bytes_length (h : r.Writable) : r.bytes.length = Ar.headerSize + (r.size + r.size % 2) := by
  unfold Record.bytes
  simp only [List.length_append, r.header_length h, padding_length]
  unfold Record.size
  omega

theorem size_eq (h : r.inlineName = []) : r.size = r.data.length := by
  unfold Record.size
  rw [h, List.length_nil, Nat.zero_add]

/-- A member whose data are passed over after its header. -/
theorem header_skip_run (h : r.Writable) {event : ArchiveEvent} (hevent : event ≠ .endOfArchive)
    (hinline : r.inlineName = [])
    (hcomplete : complete (atBoundary pos table) r.header =
      (.ok event, (atBoundary (pos + Ar.headerSize) table).skip r.size (r.size % 2))) :
    Run (atBoundary pos table) r.bytes (Ar.headerSize + r.size) event.entries
      (atBoundary (pos + r.bytes.length) table) := by
  have hbody : (r.data ++ Record.padding r.size).length = r.size + r.size % 2 := by
    rw [List.length_append, padding_length, size_eq hinline]
  have hrun := (header_run h hevent hcomplete).andThen (skip_run hbody) (skip_accepts _ _ _ _)
  rw [List.append_nil, r.header_length h, Nat.add_assoc, ← bytes_length h] at hrun
  unfold Record.bytes at hrun ⊢
  rw [hinline] at hrun ⊢
  exact hrun

/-- A member of which something is read after the header, and the rest passed over. -/
theorem header_piece_run (h : r.Writable) {event : ArchiveEvent} {mid : ArParser} {body : List Byte} {m : Nat}
    {table' : Option (List Byte)} (hevent : event ≠ .endOfArchive)
    (hheader : complete (atBoundary pos table) r.header = (.ok .needData, mid)) (hstart : ¬ Accepts mid)
    (hne : piece ≠ []) (hwants : wants mid = piece.length)
    (hcomplete : complete mid piece =
      (.ok event, (atBoundary (pos + Ar.headerSize + piece.length) table').skip m (r.size % 2)))
    (hcut : ∀ data, data ≠ [] → data.length < piece.length → ¬ Accepts (absorb mid data))
    (hall : r.inlineName ++ (r.data ++ Record.padding r.size) = piece ++ body)
    (hbody : body.length = m + r.size % 2) (hsize : piece.length + m = r.size) :
    Run (atBoundary pos table) r.bytes (Ar.headerSize + r.size) event.entries
      (atBoundary (pos + r.bytes.length) table') := by
  have hrest := (Run.ofPiece hne hwants hcomplete hevent hcut).andThen (skip_run hbody) (skip_accepts _ _ _ _)
  have hpos := List.length_pos_iff.mpr hne
  have hnever : Accepts mid ↔ piece.length + m = 0 := iff_of_false hstart (by omega)
  have hrun := (header_run h (fun h => by cases h) hheader).andThen hrest hnever
  have hstop : pos + Ar.headerSize + piece.length + (m + r.size % 2) = pos + r.bytes.length := by
    rw [bytes_length h]
    omega
  rw [ArchiveEvent.entries_needData, List.nil_append, List.append_nil, r.header_length h, hsize, hstop, ← hall] at hrun
  exact hrun

/-- A BSD name read whole. -/
theorem complete_bsdName (pos : Nat) (table : Option (List Byte)) (r : Record) :
    complete { atBoundary pos table with state := .readingBsdName r.told r.inlineName.length [] } r.inlineName =
      let p := atBoundary (pos + r.inlineName.length) table
      if (trimEnd 0 r.inlineName).take 9 = ascii "__.SYMDEF" then (.ok .needData, p.skip r.data.length (r.size % 2))
      else if (trimEnd 0 r.inlineName).isEmpty then (.error (.invalidArHeader "empty member name"), p)
      else (.ok (.entry (p.entry (fromUtf8Lossy (trimEnd 0 r.inlineName)) r.told r.data.length)),
        p.skip r.data.length (r.size % 2)) := by
  have hdata : r.told.size - r.inlineName.length = r.data.length := by
    show r.size - _ = _
    unfold Record.size
    omega
  show bsdNameComplete _ r.told ([] ++ r.inlineName) = _
  unfold bsdNameComplete
  rw [List.nil_append, hdata]
  rfl

/-- The entry that a record stands for is the one the parser makes. -/
theorem entryAt_eq {path : String} (h : r.path = some path) (pos : Nat) (table : Option (List Byte)) :
    r.entryAt pos =
      [(atBoundary (pos + Ar.headerSize + r.inlineName.length) table).entry path r.told r.data.length] := by
  have hmode : ∀ n : Nat, n % 2 ^ 32 % 2 ^ 12 = n % 2 ^ 12 := fun n => Nat.mod_mod_of_dvd n (by decide)
  unfold Record.entryAt entry Record.told
  rw [h]
  simp only [hmode]
  rfl

/-- A member read: its entry, the table after it, and an end accepted once its data are there. -/
theorem record_run (h : r.Writable) {table' : Option (List Byte)} (hreads : Reads table r table') :
    Run (atBoundary pos table) r.bytes (Ar.headerSize + r.size) (r.entryAt pos)
      (atBoundary (pos + r.bytes.length) table') := by
  have hinlineSize : r.inlineName.length + r.data.length = r.size := rfl
  have hinlineBody : (r.data ++ Record.padding r.size).length = r.data.length + r.size % 2 := by
    rw [List.length_append, padding_length]
  have hnoEntry : r.path = none → r.entryAt pos = [] := by
    intro hpath
    unfold Record.entryAt
    rw [hpath]
  cases hreads with
  | skipped hinline hpath hclass =>
    rw [hnoEntry hpath]
    exact header_skip_run h (fun h => by cases h) hinline (complete_header h hclass (.inr fun h => by cases h))
  | named path hinline hpath hclass =>
    have hcomplete := @complete_header r pos table h _ hclass (.inr fun h => by cases h)
    have hentry := entryAt_eq hpath pos table
    rw [hinline, ← size_eq hinline] at hentry
    rw [hentry]
    exact header_skip_run h (fun h => by cases h) hinline hcomplete
  | nameTable hinline hpath hdata hsmall hclass =>
    have hsize := size_eq hinline
    rw [hnoEntry hpath]
    have hall : r.inlineName ++ (r.data ++ Record.padding r.size) = r.data ++ Record.padding r.size := by
      rw [hinline, List.nil_append]
    have hbody : (Record.padding r.size).length = 0 + r.size % 2 := by rw [padding_length, Nat.zero_add]
    show Run _ _ _ ArchiveEvent.needData.entries _
    exact header_piece_run h (fun h => by cases h) (complete_header h hclass (.inl hsmall)) (fun h => by cases h) hdata
      hsize rfl (fun data hne hshort h => by cases h) hall hbody (by rw [hsize, Nat.add_zero])
  | bsdSymbols hinline hpath hsymbols hclass =>
    have hcomplete := complete_bsdName (pos + Ar.headerSize) table r
    rw [if_pos hsymbols] at hcomplete
    rw [hnoEntry hpath]
    show Run _ _ _ ArchiveEvent.needData.entries _
    exact header_piece_run h (fun h => by cases h) (complete_header h hclass (.inr fun h => by cases h))
      (fun h => by cases h) hinline rfl hcomplete (fun data hne hshort h => by cases h) rfl hinlineBody hinlineSize
  | bsdNamed path hpath hname hsymbols htext hclass =>
    have hinline : r.inlineName ≠ [] := by
      intro hnil
      rw [hnil] at hname
      exact hname rfl
    have hempty : (trimEnd 0 r.inlineName).isEmpty = false := by simpa using hname
    have hcomplete := complete_bsdName (pos + Ar.headerSize) table r
    rw [if_neg hsymbols, hempty, if_neg Bool.false_ne_true, htext] at hcomplete
    rw [entryAt_eq hpath pos table]
    exact header_piece_run h (fun h => by cases h) (complete_header h hclass (.inr fun h => by cases h))
      (fun h => by cases h) hinline rfl hcomplete (fun data hne hshort h => by cases h) rfl hinlineBody hinlineSize

/-! ## Archives -/

/-- Records read one after the other. -/
inductive ReadsAll : Option (List Byte) → List Record → Option (List Byte) → Prop where
  | nil (table : Option (List Byte)) : ReadsAll table [] table
  | cons {table between after : Option (List Byte)} {r : Record} {rs : List Record} : r.Writable →
      Reads table r between → ReadsAll between rs after → ReadsAll table (r :: rs) after

theorem ReadsAll.append {table between after : Option (List Byte)} {rs more : List Record}
    (h : ReadsAll table rs between) (hmore : ReadsAll between more after) : ReadsAll table (rs ++ more) after := by
  induction h with
  | nil => exact hmore
  | cons hwritable hreads _ ih => exact .cons hwritable hreads (ih hmore)

variable {rs : List Record} {table' : Option (List Byte)}

theorem records_whole (h : ReadsAll table rs table') {rest : List Byte} :
    ∀ {pos : Nat} {es : List ArchiveEntry}, plain.drop pos = rs.flatMap Record.bytes ++ rest →
      Place.Leads feed plain { taken := pos, entries := es, parser := atBoundary pos table }
        { taken := pos + (rs.flatMap Record.bytes).length, entries := es ++ Record.entriesFrom pos rs,
          parser := atBoundary (pos + (rs.flatMap Record.bytes).length) table' } := by
  induction h with
  | nil =>
    intro pos es _
    simp only [List.flatMap_nil, List.length_nil, Nat.add_zero, Record.entriesFrom, List.append_nil]
    exact .refl
  | @cons _ _ _ r rs hwritable hreads _ ih =>
    intro pos es hleft
    rw [List.flatMap_cons, List.append_assoc] at hleft
    have hthen : plain.drop (pos + r.bytes.length) = rs.flatMap Record.bytes ++ rest := by
      rw [← List.drop_drop, hleft, List.drop_left]
    have hleads := ((record_run hwritable hreads).whole plain _ pos es hleft).trans (ih hthen)
    rw [Nat.add_assoc, ← List.length_append, ← List.flatMap_cons, List.append_assoc] at hleads
    exact hleads

theorem mem_stops {k : Nat} : k ∈ Record.stops (r :: rs) ↔
    k = 0 ∨ (r.size % 2 = 1 ∧ k = r.bytes.length - 1) ∨ ∃ j ∈ Record.stops rs, r.bytes.length + j = k := by
  rw [Record.stops, List.mem_cons, List.mem_append, List.mem_map]
  by_cases hodd : r.size % 2 = 1
  · rw [if_pos hodd, List.mem_singleton]
    tauto
  · rw [if_neg hodd]
    simp [hodd]

theorem records_cut (h : ReadsAll table rs table') :
    ∀ {k pos : Nat} {es : List ArchiveEntry}, k ≤ (rs.flatMap Record.bytes).length →
      plain.drop pos = (rs.flatMap Record.bytes).take k →
      ∃ s, Place.Leads feed plain { taken := pos, entries := es, parser := atBoundary pos table } s ∧
        plain.drop s.taken = [] ∧ (Accepts s.parser ↔ k ∈ Record.stops rs) := by
  induction h with
  | nil =>
    intro k pos es hk hleft
    obtain rfl : k = 0 := Nat.le_zero.mp hk
    exact ⟨_, .refl, hleft, iff_of_true rfl List.mem_cons_self⟩
  | @cons _ _ _ r rs hwritable hreads _ ih =>
    intro k pos es hk hleft
    have hlength := bytes_length hwritable
    have hheader : Ar.headerSize = 60 := rfl
    rw [List.flatMap_cons] at hk hleft
    rw [List.length_append] at hk
    by_cases hzero : k = 0
    · subst hzero
      exact ⟨_, .refl, hleft, iff_of_true rfl List.mem_cons_self⟩
    by_cases hshort : k < r.bytes.length
    · -- the record is cut off
      rw [List.take_append_of_le_length (Nat.le_of_lt hshort)] at hleft
      have htaken : (plain.drop pos).length = k := by
        rw [hleft, List.length_take]
        omega
      have hsome : plain.drop pos ≠ [] := by
        intro hnil
        rw [hnil] at htaken
        exact hzero htaken.symm
      obtain ⟨s, hleads, hover, haccepts⟩ := (record_run hwritable hreads).cut plain pos es hsome
        ⟨r.bytes.drop k, by rw [ne_eq, List.drop_eq_nil_iff]; omega, by rw [hleft, List.take_append_drop]⟩
      refine ⟨s, hleads, hover, haccepts.trans ?_⟩
      rw [mem_stops, htaken]
      constructor
      · intro hdata
        exact .inr (.inl ⟨by omega, by omega⟩)
      · rintro (hnone | ⟨hodd, hlast⟩ | ⟨j, _, hj⟩)
        · omega
        · omega
        · omega
    · rw [List.take_append, List.take_of_length_le (Nat.le_of_not_lt hshort)] at hleft
      have hthen : plain.drop (pos + r.bytes.length) = (rs.flatMap Record.bytes).take (k - r.bytes.length) := by
        rw [← List.drop_drop, hleft, List.drop_left]
      obtain ⟨s, hleads, hover, haccepts⟩ := @ih (k - r.bytes.length) (pos + r.bytes.length)
        (es ++ r.entryAt pos) (by omega) hthen
      refine ⟨s, ((record_run hwritable hreads).whole plain _ pos es hleft).trans hleads, hover, haccepts.trans ?_⟩
      rw [mem_stops]
      constructor
      · intro hstop
        exact .inr (.inr ⟨_, hstop, by omega⟩)
      · rintro (hnone | ⟨hodd, hlast⟩ | ⟨j, hj, hsum⟩)
        · omega
        · omega
        · rwa [show k - r.bytes.length = j by omega]

/-- The global header read. -/
theorem magic_run : Run new arMagic arMagic.length [] (atBoundary arMagic.length none) := by
  have hthin : arMagic ≠ thinMagic := by decide
  have hcomplete : complete new arMagic = (.ok .needData, atBoundary arMagic.length none) := by
    show (new.buffer arMagic).bufferComplete arMagic.length magicComplete = _
    unfold bufferComplete magicComplete buffer new
    rw [List.nil_append, if_neg (by simp), if_neg hthin, if_neg (by simp), Nat.zero_add]
    rfl
  show Run _ _ _ ArchiveEvent.needData.entries _
  exact .ofPiece (by decide) rfl hcomplete (fun h => by cases h) fun data hne hshort h => by cases h

/-! ## Every driver -/

/-- The parser between two calls: there is something to read, except for an empty name table or name. -/
def Sane (p : ArParser) : Prop :=
  match p.state with
  | .readingMagic => p.headerBuf.length < arMagic.length
  | .readingHeader => p.headerBuf.length < Ar.headerSize
  | .readingNameTable _ _ _ => p.headerBuf = []
  | .readingBsdName _ remaining buf => p.headerBuf = [] ∧ (remaining = 0 → buf = [])
  | .skippingData remaining _ => p.headerBuf = [] ∧ 0 < remaining

theorem new_sane : Sane new := by
  show 0 < arMagic.length
  decide

theorem boundary_sane {p : ArParser} (hstate : p.state = .readingHeader) (hbuf : p.headerBuf = []) : Sane p := by
  unfold Sane
  rw [hstate, hbuf]
  show 0 < Ar.headerSize
  decide

theorem skip_sane {p : ArParser} (hbuf : p.headerBuf = []) (n pad : Nat) : Sane (p.skip n pad) := by
  by_cases hzero : n + pad = 0
  · refine boundary_sane ?_ hbuf
    unfold skip
    rw [if_pos hzero]
  · rw [skip_pos p hzero]
    exact ⟨hbuf, Nat.pos_of_ne_zero hzero⟩

theorem absorb_sane {data : List Byte} (h : Sane p) (hshort : data.length < wants p) : Sane (absorb p data) := by
  unfold wants at hshort
  unfold Sane at h
  unfold Sane absorb
  cases hstate : p.state with
  | readingMagic | readingHeader =>
    simp only [hstate] at h hshort ⊢
    simp only [buffer_state, hstate, buffer_length]
    omega
  | readingNameTable remaining pad buf =>
    simp only [hstate] at h
    exact h
  | readingBsdName hdr remaining buf =>
    simp only [hstate] at h hshort
    exact ⟨h.1, fun hzero => by omega⟩
  | skippingData remaining pad =>
    simp only [hstate] at h hshort
    exact ⟨h.1, by omega⟩

theorem headerComplete_sane {event : ArchiveEvent} (h : p.headerComplete = (.ok event, p')) : Sane p' := by
  unfold headerComplete at h
  split at h
  · cases h
  · next hdr hparse =>
    simp only at h
    split at h
    · cases h
    · obtain ⟨_, rfl⟩ := Prod.mk.inj h
      exact skip_sane rfl _ _
    · split at h
      · cases h
      · obtain ⟨_, rfl⟩ := Prod.mk.inj h
        exact rfl
    · obtain ⟨_, rfl⟩ := Prod.mk.inj h
      exact ⟨rfl, fun _ => rfl⟩
    · obtain ⟨_, rfl⟩ := Prod.mk.inj h
      exact skip_sane rfl _ _

theorem bsdNameComplete_sane {hdr : ArHeader} {buf : List Byte} {event : ArchiveEvent} (hbuf : p.headerBuf = [])
    (h : p.bsdNameComplete hdr buf = (.ok event, p')) : Sane p' := by
  unfold bsdNameComplete at h
  simp only at h
  split at h
  · obtain ⟨_, rfl⟩ := Prod.mk.inj h
    exact skip_sane hbuf _ _
  · split at h
    · cases h
    · obtain ⟨_, rfl⟩ := Prod.mk.inj h
      exact skip_sane hbuf _ _

theorem complete_sane {piece : List Byte} {event : ArchiveEvent} (h : Sane p) (hlength : piece.length = wants p)
    (hcomplete : complete p piece = (.ok event, p')) : Sane p' := by
  unfold wants at hlength
  unfold Sane at h
  unfold complete at hcomplete
  cases hstate : p.state with
  | readingMagic =>
    simp only [hstate] at h hlength hcomplete
    have hfull : (p.buffer piece).headerBuf.length = arMagic.length := by
      rw [buffer_length]
      omega
    unfold bufferComplete magicComplete at hcomplete
    rw [if_neg (by rw [hfull]; simp)] at hcomplete
    split at hcomplete
    · cases hcomplete
    · split at hcomplete
      · cases hcomplete
      · obtain ⟨_, rfl⟩ := Prod.mk.inj hcomplete
        exact boundary_sane rfl rfl
  | readingHeader =>
    simp only [hstate] at h hlength hcomplete
    have hfull : (p.buffer piece).headerBuf.length = Ar.headerSize := by
      rw [buffer_length]
      omega
    unfold bufferComplete at hcomplete
    rw [if_neg (by rw [hfull]; simp)] at hcomplete
    exact headerComplete_sane hcomplete
  | readingNameTable remaining pad buf =>
    simp only [hstate] at h hcomplete
    obtain ⟨_, rfl⟩ := Prod.mk.inj hcomplete
    exact skip_sane h _ _
  | readingBsdName hdr remaining buf =>
    simp only [hstate] at h hcomplete
    refine bsdNameComplete_sane ?_ hcomplete
    exact h.1
  | skippingData remaining pad =>
    simp only [hstate] at h hcomplete
    obtain ⟨_, rfl⟩ := Prod.mk.inj hcomplete
    exact boundary_sane rfl h.1

theorem fed_sane {taken : Nat} (h : Fed feed (fun _ _ => True) plain new taken es p) : Sane p := by
  refine h.invariant (I := fun _ _ p => Sane p) new_sane ?_
  intro _ _ _ q q' piece event hsane hne _ _ hfeed
  by_cases hshort : piece.length < wants q
  · rw [pieces.short q piece trivial hne hshort] at hfeed
    obtain ⟨_, rfl⟩ := Prod.mk.inj hfeed
    exact absorb_sane hsane hshort
  · have hlong : wants q ≤ piece.length := Nat.le_of_not_lt hshort
    rw [pieces.full q piece trivial hne hlong] at hfeed
    have htake : (piece.take (wants q)).length = wants q := by
      rw [List.length_take]
      omega
    exact complete_sane hsane htake (answering_done hfeed)

/-- A call that takes nothing meets an empty name table, which is got past. -/
def idle (p : ArParser) : Nat := if wants p = 0 then 1 else 0

theorem idle_less {event : ArchiveEvent} (h : Sane p) (hne : piece ≠ [])
    (hfeed : p.feed piece = (.ok (0, event), p')) : idle p' < idle p := by
  have hpos := List.length_pos_iff.mpr hne
  have hzero : wants p = 0 := by
    by_cases hshort : piece.length < wants p
    · rw [pieces.short p piece trivial hne hshort] at hfeed
      obtain ⟨hlen, _⟩ := Prod.mk.inj (Except.ok.inj (Prod.mk.inj hfeed).1)
      omega
    · rw [pieces.full p piece trivial hne (Nat.le_of_not_lt hshort)] at hfeed
      exact (answering_ok hfeed).symm
  have hdone : complete p [] = (.ok event, p') := by
    rw [pieces.full p piece trivial hne (by show wants p ≤ _; omega)] at hfeed
    have hfeed : answering (wants p) (complete p (piece.take (wants p))) = _ := hfeed
    rw [hzero, List.take_zero] at hfeed
    exact answering_done hfeed
  have hone : idle p = 1 := if_pos hzero
  unfold Sane at h
  unfold wants at hzero
  unfold complete at hdone
  cases hstate : p.state with
  | readingMagic | readingHeader =>
    simp only [hstate] at h hzero
    omega
  | skippingData remaining pad =>
    simp only [hstate] at h hzero
    omega
  | readingNameTable remaining pad buf =>
    simp only [hstate] at h hdone
    obtain ⟨_, rfl⟩ := Prod.mk.inj hdone
    have hwants : wants ({ p with
        state := .readingNameTable 0 pad (buf ++ []), streamPos := p.streamPos + ([] : List Byte).length,
        nameTable := some (buf ++ []) }.skip 0 pad) ≠ 0 := by
      by_cases hpad : pad = 0
      · subst hpad
        rw [skip_zero]
        show Ar.headerSize - p.headerBuf.length ≠ 0
        rw [h]
        decide
      · rw [skip_pos _ (by omega)]
        show 0 + pad ≠ 0
        omega
    rw [hone]
    unfold idle
    rw [if_neg hwants]
    exact Nat.one_pos
  | readingBsdName hdr remaining buf =>
    simp only [hstate] at h hzero hdone
    have hbuf := h.2 hzero
    subst hbuf
    have hsymbols : [] ≠ ascii "__.SYMDEF" := by decide
    -- a name of length zero is no name
    simp [bsdNameComplete, Ar.trimEnd, hsymbols] at hdone

theorem settles (plain : List Byte) : Settles feed plain new idle 1 where
  incremental := fun _ => pieces.incremental trivial
  most_le := fun p => by
    unfold idle
    split <;> omega
  less := fun hleads hleft hfeed _ => idle_less (fed_sane hleads.fed) hleft hfeed

end ArParser
end Iluvatar
