/-
The cpio parser reads headers, names and padded data, piece by piece, but for its first
header: how long that is, its magic says.
-/
import Iluvatar.Archive.Cpio
import Iluvatar.Engine.Pieces

namespace Iluvatar
namespace CpioParser

/-- An answer without its count. -/
def settle (a : Answer) : Except Error ArchiveEvent × CpioParser := (a.1.map (·.2), a.2)

/-- The bytes that complete what the parser is reading. -/
def wants (p : CpioParser) : Nat :=
  match p.state with
  | .readingHeader => p.headerSize - p.headerBuf.length
  | .readingFilename _ remaining _ => remaining
  | .skippingNamePad _ remaining _ _ => remaining
  | .readingLinkTarget _ remaining _ => remaining
  | .skippingData remaining | .skippingDataPad remaining => remaining
  | .ended => 0

/-- The parser in `state` after `n` bytes. -/
def passing (p : CpioParser) (n : Nat) (state : CpioState) : CpioParser :=
  { p with state, streamPos := p.streamPos + n }

/-- The parser with part of a piece taken. -/
def absorb (p : CpioParser) (data : List Byte) : CpioParser :=
  match p.state with
  | .readingHeader => p.buffer data
  | .readingFilename hdr remaining buf =>
    p.passing data.length (.readingFilename hdr (remaining - data.length) (buf ++ data))
  | .skippingNamePad entry remaining inode nlink =>
    p.passing data.length (.skippingNamePad entry (remaining - data.length) inode nlink)
  | .readingLinkTarget entry remaining buf =>
    p.passing data.length (.readingLinkTarget entry (remaining - data.length) (buf ++ data))
  | .skippingData remaining => p.passing data.length (.skippingData (remaining - data.length))
  | .skippingDataPad remaining => p.passing data.length (.skippingDataPad (remaining - data.length))
  | .ended => p

/-- A link target is complete. -/
def linkTargetComplete (p : CpioParser) (entry : ArchiveEntry) (buf : List Byte) :
    Except Error ArchiveEvent × CpioParser :=
  let entry := { entry with linkTarget := some (fromUtf8Lossy buf), size := 0 }
  let dataPad := p.padding (p.streamPos - entry.dataOffset)
  let state := if 0 < dataPad then .skippingDataPad dataPad else .readingHeader
  (.ok (.entry entry), { p with state })

/-- The parser with the rest of a piece taken. -/
def complete (p : CpioParser) (data : List Byte) : Except Error ArchiveEvent × CpioParser :=
  match p.state with
  | .readingHeader => settle ((p.buffer data).processHeader 0)
  | .readingFilename hdr _ buf =>
    settle ((p.passing data.length (.readingFilename hdr 0 (buf ++ data))).filenameComplete 0 hdr
      (filenameOf (buf ++ data)))
  | .skippingNamePad entry _ inode nlink =>
    settle ((p.passing data.length .ended).transitionToData 0 entry inode nlink)
  | .readingLinkTarget entry _ buf =>
    (p.passing data.length (.readingLinkTarget entry 0 (buf ++ data))).linkTargetComplete entry
      (buf ++ data)
  | .skippingData _ | .skippingDataPad _ => (.ok .needData, p.passing data.length .readingHeader)
  | .ended => (.ok .endOfArchive, p)

theorem processHeader_answering (p : CpioParser) (n : Nat) :
    p.processHeader n = answering n (settle (p.processHeader 0)) := by
  unfold processHeader
  simp only
  by_cases hmagic : p.magicOk (p.headerBuf.take 6) = false
  · rw [if_pos hmagic, if_pos hmagic]
    rfl
  · rw [if_neg hmagic, if_neg hmagic]
    match p.parseHeader p.headerBuf with
    | .error e => rfl
    | .ok hdr =>
      simp only
      split <;> rfl

theorem transitionToData_answering (p : CpioParser) (n : Nat) (entry : ArchiveEntry) (inode : InodeKey)
    (nlink : Nat) : p.transitionToData n entry inode nlink =
      answering n (settle (p.transitionToData 0 entry inode nlink)) := by
  unfold transitionToData
  simp only
  split
  · split <;> rfl
  · split <;> rfl

theorem filenameComplete_answering (p : CpioParser) (n : Nat) (hdr : CpioHeader) (filename : String) :
    p.filenameComplete n hdr filename = answering n (settle (p.filenameComplete 0 hdr filename)) := by
  unfold filenameComplete
  split
  · cases p.pending ++ p.deferredLinks.flatten <;> rfl
  · simp only
    split
    · rfl
    · exact transitionToData_answering p n _ _ _

theorem buffer_buffer (p : CpioParser) (data more : List Byte) :
    (p.buffer data).buffer more = p.buffer (data ++ more) := by
  simp only [buffer, List.append_assoc, List.length_append, Nat.add_assoc]

theorem buffer_length (p : CpioParser) (data : List Byte) :
    (p.buffer data).headerBuf.length = p.headerBuf.length + data.length := List.length_append

theorem buffer_state (p : CpioParser) (data : List Byte) : (p.buffer data).state = p.state := rfl

theorem buffer_headerSize (p : CpioParser) (data : List Byte) :
    (p.buffer data).headerSize = p.headerSize := rfl

/-- Bytes taken already only count. -/
theorem fillHeader_shifted (p : CpioParser) (consumed : Nat) (data : List Byte) :
    p.fillHeader consumed data = shifted consumed (p.fillHeader 0 (data.drop consumed)) := by
  unfold fillHeader
  simp only [List.length_drop, Nat.sub_zero, List.drop_zero, Nat.zero_add]
  split
  · rfl
  · rw [processHeader_answering, processHeader_answering _ (min _ _), shifted_answering]

theorem fillHeader_short {p : CpioParser} {data : List Byte}
    (hshort : data.length < p.headerSize - p.headerBuf.length) :
    p.fillHeader 0 data = (.ok (data.length, .needData), p.buffer data) := by
  have hmin : min data.length (p.headerSize - p.headerBuf.length) = data.length := by omega
  have hpart : (p.buffer data).headerBuf.length < p.headerSize := by
    rw [buffer_length]
    omega
  unfold fillHeader
  simp only [Nat.sub_zero, List.drop_zero, hmin, List.take_length, Nat.zero_add, buffer_headerSize]
  rw [if_pos hpart]

theorem fillHeader_full {p : CpioParser} {data : List Byte}
    (hfull : p.headerSize - p.headerBuf.length ≤ data.length) :
    p.fillHeader 0 data = answering (p.headerSize - p.headerBuf.length)
      (settle ((p.buffer (data.take (p.headerSize - p.headerBuf.length))).processHeader 0)) := by
  have hmin : min data.length (p.headerSize - p.headerBuf.length) =
      p.headerSize - p.headerBuf.length := by omega
  have hwhole : ¬ (p.buffer (data.take (p.headerSize - p.headerBuf.length))).headerBuf.length <
      p.headerSize := by
    rw [buffer_length, List.length_take]
    omega
  unfold fillHeader
  simp only [Nat.sub_zero, List.drop_zero, hmin, Nat.zero_add, buffer_headerSize]
  rw [if_neg hwhole]
  exact processHeader_answering _ _

theorem feedSkip_short {p : CpioParser} {left : Nat → CpioState} {remaining : Nat} {data : List Byte}
    (hne : data ≠ []) (hshort : data.length < remaining) :
    p.feedSkip left remaining data =
      (.ok (data.length, .needData), p.passing data.length (left (remaining - data.length))) := by
  have hempty : data.isEmpty = false := by simpa using hne
  have hmin : min data.length remaining = data.length := by omega
  have hleft : remaining - data.length ≠ 0 := by omega
  simp only [feedSkip, hempty, Bool.false_eq_true, if_false, hmin, hleft]
  rfl

theorem feedSkip_full {p : CpioParser} {left : Nat → CpioState} {remaining : Nat} {data : List Byte}
    (hne : data ≠ []) (hfull : remaining ≤ data.length) :
    p.feedSkip left remaining data =
      answering remaining (.ok .needData, p.passing (data.take remaining).length .readingHeader) := by
  have hempty : data.isEmpty = false := by simpa using hne
  have hmin : min data.length remaining = remaining := by omega
  have htake : (data.take remaining).length = remaining := by
    rw [List.length_take]
    omega
  simp only [feedSkip, hempty, Bool.false_eq_true, if_false, hmin, Nat.sub_self, if_true, htake]
  rfl

/-- The parser reads a piece: no entry is pending, and the format of a header is known. -/
def OnPiece (p : CpioParser) : Prop :=
  p.pending = [] ∧ (p.state = .readingHeader → ∃ format, p.subFormat = some format)

theorem feed_header {p : CpioParser} {format : CpioSubFormat} {data : List Byte}
    (hpending : p.pending = []) (hstate : p.state = .readingHeader) (hformat : p.subFormat = some format)
    (hne : data ≠ []) : p.feed data = p.fillHeader 0 data := by
  have hempty : data.isEmpty = false := by simpa using hne
  unfold feed feedHeader
  simp only [hpending, hstate, hempty, Bool.false_eq_true, if_false, hformat]

theorem piece_short : ∀ (p : CpioParser) (data : List Byte), OnPiece p → data ≠ [] → data.length < wants p →
    feed p data = (.ok (data.length, .needData), absorb p data) := by
  rintro p data ⟨hpending, hheader⟩ hne hshort
  have hempty : data.isEmpty = false := by simpa using hne
  unfold absorb
  unfold wants at hshort
  cases hstate : p.state with
  | readingHeader =>
    simp only [hstate] at hshort
    obtain ⟨format, hformat⟩ := hheader hstate
    rw [feed_header hpending hstate hformat hne, fillHeader_short hshort]
  | readingFilename hdr remaining buf =>
    simp only [hstate] at hshort
    have hmin : min data.length remaining = data.length := by omega
    have hleft : 0 < remaining - data.length := by omega
    have hfeed : p.feed data = p.feedFilename hdr remaining buf data := by simp only [feed, hpending, hstate]
    rw [hfeed]
    simp only [feedFilename, hempty, Bool.false_eq_true, if_false, hmin, hleft,
      if_true, List.take_length]
    rfl
  | skippingNamePad entry remaining inode nlink =>
    simp only [hstate] at hshort
    have hmin : min data.length remaining = data.length := by omega
    have hleft : 0 < remaining - data.length := by omega
    have hfeed : p.feed data = p.feedSkipNamePad entry remaining inode nlink data := by simp only [feed, hpending, hstate]
    rw [hfeed]
    simp only [feedSkipNamePad, hempty, Bool.false_eq_true, if_false, hmin,
      hleft, if_true]
    rfl
  | readingLinkTarget entry remaining buf =>
    simp only [hstate] at hshort
    have hmin : min data.length remaining = data.length := by omega
    have hleft : 0 < remaining - data.length := by omega
    have hfeed : p.feed data = p.feedLinkTarget entry remaining buf data := by simp only [feed, hpending, hstate]
    rw [hfeed]
    simp only [feedLinkTarget, hempty, Bool.false_eq_true, if_false, hmin,
      hleft, if_true, List.take_length]
    rfl
  | skippingData remaining =>
    simp only [hstate] at hshort
    have hfeed : p.feed data = p.feedSkipData remaining data := by simp only [feed, hpending, hstate]
    rw [hfeed]
    exact feedSkip_short hne hshort
  | skippingDataPad remaining =>
    simp only [hstate] at hshort
    have hfeed : p.feed data = p.feedSkipDataPad remaining data := by simp only [feed, hpending, hstate]
    rw [hfeed]
    exact feedSkip_short hne hshort
  | ended => simp only [hstate, Nat.not_lt_zero] at hshort

theorem piece_full : ∀ (p : CpioParser) (data : List Byte), OnPiece p → data ≠ [] → wants p ≤ data.length →
    feed p data = answering (wants p) (complete p (data.take (wants p))) := by
  rintro p data ⟨hpending, hheader⟩ hne hfull
  have hempty : data.isEmpty = false := by simpa using hne
  unfold complete wants
  unfold wants at hfull
  cases hstate : p.state with
  | readingHeader =>
    simp only [hstate] at hfull
    obtain ⟨format, hformat⟩ := hheader hstate
    rw [feed_header hpending hstate hformat hne, fillHeader_full hfull]
  | readingFilename hdr remaining buf =>
    simp only [hstate] at hfull
    have hmin : min data.length remaining = remaining := by omega
    have htake : (data.take remaining).length = remaining := by
      rw [List.length_take]
      omega
    have hfeed : p.feed data = p.feedFilename hdr remaining buf data := by simp only [feed, hpending, hstate]
    rw [hfeed]
    simp only [feedFilename, hempty, Bool.false_eq_true, if_false, hmin,
      Nat.sub_self, Nat.lt_irrefl, htake]
    exact filenameComplete_answering _ _ _ _
  | skippingNamePad entry remaining inode nlink =>
    simp only [hstate] at hfull
    have hmin : min data.length remaining = remaining := by omega
    have htake : (data.take remaining).length = remaining := by
      rw [List.length_take]
      omega
    have hfeed : p.feed data = p.feedSkipNamePad entry remaining inode nlink data := by simp only [feed, hpending, hstate]
    rw [hfeed]
    simp only [feedSkipNamePad, hempty, Bool.false_eq_true, if_false, hmin,
      Nat.sub_self, Nat.lt_irrefl, htake]
    exact transitionToData_answering _ _ _ _ _
  | readingLinkTarget entry remaining buf =>
    simp only [hstate] at hfull
    have hmin : min data.length remaining = remaining := by omega
    have htake : (data.take remaining).length = remaining := by
      rw [List.length_take]
      omega
    have hfeed : p.feed data = p.feedLinkTarget entry remaining buf data := by simp only [feed, hpending, hstate]
    rw [hfeed]
    simp only [feedLinkTarget, hempty, Bool.false_eq_true, if_false, hmin,
      Nat.sub_self, Nat.lt_irrefl, htake]
    rfl
  | skippingData remaining =>
    simp only [hstate] at hfull
    have hfeed : p.feed data = p.feedSkipData remaining data := by simp only [feed, hpending, hstate]
    rw [hfeed]
    exact feedSkip_full hne hfull
  | skippingDataPad remaining =>
    simp only [hstate] at hfull
    have hfeed : p.feed data = p.feedSkipDataPad remaining data := by simp only [feed, hpending, hstate]
    rw [hfeed]
    exact feedSkip_full hne hfull
  | ended =>
    simp only [feed, hpending, hstate]
    rfl

theorem absorb_keeps : ∀ (p : CpioParser) (data : List Byte), OnPiece p → OnPiece (absorb p data) := by
  rintro p data ⟨hpending, hheader⟩
  unfold absorb
  cases hstate : p.state with
  | readingHeader => exact ⟨hpending, fun _ => hheader hstate⟩
  | readingFilename | skippingNamePad | readingLinkTarget | skippingData | skippingDataPad =>
    exact ⟨hpending, fun hheading => by cases hheading⟩
  | ended => exact ⟨hpending, fun hheading => by rw [hstate] at hheading; cases hheading⟩

theorem wants_absorb : ∀ (p : CpioParser) (data : List Byte), data.length < wants p →
    wants (absorb p data) = wants p - data.length := by
  intro p data hshort
  unfold absorb wants
  cases hstate : p.state <;> simp only [hstate, passing, buffer_state, buffer_length, buffer_headerSize]
  · omega
  · omega

theorem absorb_absorb : ∀ (p : CpioParser) (data more : List Byte), data.length < wants p →
    absorb (absorb p data) more = absorb p (data ++ more) := by
  intro p data more hshort
  unfold absorb
  cases hstate : p.state <;>
    simp only [hstate, passing, buffer_state, buffer_buffer, List.length_append, Nat.add_assoc,
      List.append_assoc, Nat.sub_sub]

theorem complete_absorb : ∀ (p : CpioParser) (data more : List Byte), data.length < wants p →
    complete (absorb p data) more = complete p (data ++ more) := by
  intro p data more hshort
  unfold absorb complete
  cases hstate : p.state <;>
    simp only [hstate, passing, buffer_state, buffer_buffer, List.length_append, Nat.add_assoc,
      List.append_assoc]

/-- The cpio parser reads pieces. -/
def pieces : Pieces feed where
  on := OnPiece
  wants := wants
  absorb := absorb
  complete := complete
  short := piece_short
  full := piece_full
  keeps := absorb_keeps
  wants_absorb := wants_absorb
  absorb_absorb := absorb_absorb
  complete_absorb := complete_absorb

/-! ## The first header -/

theorem fillHeader_within {p p' : CpioParser} {data : List Byte} {n : Nat} {event : ArchiveEvent}
    (h : p.fillHeader 0 data = (.ok (n, event), p')) : n ≤ data.length := by
  by_cases hshort : data.length < p.headerSize - p.headerBuf.length
  · rw [fillHeader_short hshort] at h
    obtain ⟨hsame, _⟩ := Prod.mk.inj h
    obtain ⟨rfl, _⟩ := Prod.mk.inj (Except.ok.inj hsame)
    exact Nat.le_refl _
  · rw [fillHeader_full (by omega)] at h
    have hcount := answering_ok h
    omega

theorem fillHeader_continued {p : CpioParser} {data : List Byte}
    (hshort : data.length < p.headerSize - p.headerBuf.length) (rest : List Byte) :
    p.fillHeader 0 (data ++ rest) = shifted data.length ((p.buffer data).fillHeader 0 rest) := by
  have hlen : (data ++ rest).length = data.length + rest.length := List.length_append
  have hsize : (p.buffer data).headerSize = p.headerSize := rfl
  have hbuf := p.buffer_length data
  by_cases hmore : (data ++ rest).length < p.headerSize - p.headerBuf.length
  · rw [fillHeader_short hmore, fillHeader_short (by omega), buffer_buffer, hlen]
    rfl
  · have hsum : data.length + (p.headerSize - (p.headerBuf.length + data.length)) =
        p.headerSize - p.headerBuf.length := by omega
    have htake : (data ++ rest).take (p.headerSize - p.headerBuf.length) =
        data ++ rest.take (p.headerSize - (p.headerBuf.length + data.length)) := by
      rw [← hsum, List.take_length_add_append]
    rw [fillHeader_full (by omega), fillHeader_full (by omega), shifted_answering, hsize, hbuf, hsum,
      buffer_buffer, htake]

/-- The parser that has read the magic of its first header goes on with the rest of it. -/
def magicComplete (p : CpioParser) (taken : Nat) (rest : List Byte) : Answer :=
  match subFormatOf (p.headerBuf.take 6) with
  | none =>
    (.error (.invalidCpioHeader ("unrecognized cpio magic: " ++
      toString ((p.headerBuf.take 6).map UInt8.toNat))), p)
  | some format => shifted taken ({ p with subFormat := some format }.fillHeader 0 rest)

/-- The first header is awaited, or its magic. -/
structure OnMagic (p : CpioParser) : Prop where
  pending : p.pending = []
  state : p.state = .readingHeader
  subFormat : p.subFormat = none

theorem OnMagic.buffer {p : CpioParser} (h : OnMagic p) (data : List Byte) : OnMagic (p.buffer data) :=
  ⟨h.pending, h.state, h.subFormat⟩

theorem OnMagic.short {p : CpioParser} (h : OnMagic p) {data : List Byte} (hne : data ≠ [])
    (hshort : data.length < 6 - p.headerBuf.length) :
    p.feed data = (.ok (data.length, .needData), p.buffer data) := by
  have hempty : data.isEmpty = false := by simpa using hne
  have hmin : min data.length (6 - p.headerBuf.length) = data.length := by omega
  have hpart : (p.buffer data).headerBuf.length < 6 := by
    rw [buffer_length]
    omega
  have hfeed : p.feed data = p.feedHeader data := by simp only [feed, h.pending, h.state]
  rw [hfeed]
  unfold feedHeader
  simp only [hempty, Bool.false_eq_true, if_false, h.subFormat, hmin, List.take_length]
  rw [if_pos hpart]

theorem OnMagic.full {p : CpioParser} (h : OnMagic p) {data : List Byte} (hne : data ≠ [])
    (hfull : 6 - p.headerBuf.length ≤ data.length) :
    p.feed data = (p.buffer (data.take (6 - p.headerBuf.length))).magicComplete
      (6 - p.headerBuf.length) (data.drop (6 - p.headerBuf.length)) := by
  have hempty : data.isEmpty = false := by simpa using hne
  have hmin : min data.length (6 - p.headerBuf.length) = 6 - p.headerBuf.length := by omega
  have hwhole : ¬ (p.buffer (data.take (6 - p.headerBuf.length))).headerBuf.length < 6 := by
    rw [buffer_length, List.length_take]
    omega
  have hfeed : p.feed data = p.feedHeader data := by simp only [feed, h.pending, h.state]
  rw [hfeed]
  unfold feedHeader magicComplete
  simp only [hempty, Bool.false_eq_true, if_false, h.subFormat, hmin]
  rw [if_neg hwhole]
  cases subFormatOf ((p.buffer (data.take (6 - p.headerBuf.length))).headerBuf.take 6) with
  | none => rfl
  | some format => exact fillHeader_shifted _ _ _

theorem magicComplete_shifted (p : CpioParser) (a b : Nat) (rest : List Byte) :
    p.magicComplete (a + b) rest = shifted a (p.magicComplete b rest) := by
  unfold magicComplete
  cases subFormatOf (p.headerBuf.take 6) with
  | none => rfl
  | some format => exact (shifted_shifted a b _).symm

/-- A magic that is not complete is continued by the bytes that follow. -/
theorem OnMagic.continued {p : CpioParser} (h : OnMagic p) {data rest : List Byte} (hne : data ≠ [])
    (hrest : rest ≠ []) (hshort : data.length < 6 - p.headerBuf.length) :
    p.feed (data ++ rest) = shifted data.length ((p.buffer data).feed rest) := by
  have hboth : data ++ rest ≠ [] := by simp [hne]
  have hlen : (data ++ rest).length = data.length + rest.length := List.length_append
  have hbuf := p.buffer_length data
  by_cases hmore : (data ++ rest).length < 6 - p.headerBuf.length
  · rw [h.short hboth hmore, (h.buffer data).short hrest (by omega), buffer_buffer, hlen]
    rfl
  · have hsum : data.length + (6 - (p.headerBuf.length + data.length)) = 6 - p.headerBuf.length := by
      omega
    rw [h.full hboth (by omega), (h.buffer data).full hrest (by omega), ← magicComplete_shifted, hbuf,
      ← hsum, List.take_length_add_append, List.drop_length_add_append, buffer_buffer]

theorem magicComplete_count {p p' : CpioParser} {taken n : Nat} {event : ArchiveEvent}
    {rest : List Byte} (h : p.magicComplete taken rest = (.ok (n, event), p')) :
    taken ≤ n ∧ n ≤ taken + rest.length := by
  unfold magicComplete at h
  cases hformat : subFormatOf (p.headerBuf.take 6) with
  | none =>
    rw [hformat] at h
    exact absurd h (by simp)
  | some format =>
    rw [hformat] at h
    match hfill : { p with subFormat := some format }.fillHeader 0 rest with
    | (.error e, q) =>
      simp only [hfill, shifted] at h
      exact absurd h (by simp)
    | (.ok (m, event'), q) =>
      simp only [hfill, shifted] at h
      have hwithin := fillHeader_within hfill
      obtain ⟨hsame, _⟩ := Prod.mk.inj h
      obtain ⟨rfl, _⟩ := Prod.mk.inj (Except.ok.inj hsame)
      omega

theorem OnMagic.incremental {p : CpioParser} (h : OnMagic p) : IncrementalAt feed p where
  within := by
    intro data n event p' hne hfeed
    by_cases hshort : data.length < 6 - p.headerBuf.length
    · rw [h.short hne hshort] at hfeed
      obtain ⟨hsame, _⟩ := Prod.mk.inj hfeed
      obtain ⟨rfl, _⟩ := Prod.mk.inj (Except.ok.inj hsame)
      exact Nat.le_refl _
    · rw [h.full hne (by omega)] at hfeed
      have hcount := magicComplete_count hfeed
      rw [List.length_drop] at hcount
      omega
  more := by
    intro data hne
    have hboth : ∀ rest, data ++ rest ≠ [] := fun rest => by simp [hne]
    by_cases hshort : data.length < 6 - p.headerBuf.length
    · refine .inr ⟨p.buffer data, h.short hne hshort, fun rest hrest => h.continued hne hrest hshort, ?_⟩
      intro rest hrest q hidle
      have hpos := List.length_pos_iff.mpr hrest
      have hbuf := p.buffer_length data
      by_cases hmore : rest.length < 6 - (p.buffer data).headerBuf.length
      · rw [(h.buffer data).short hrest hmore] at hidle
        obtain ⟨hsame, _⟩ := Prod.mk.inj hidle
        obtain ⟨hzero, _⟩ := Prod.mk.inj (Except.ok.inj hsame)
        omega
      · rw [(h.buffer data).full hrest (by omega)] at hidle
        have hcount := magicComplete_count hidle
        omega
    · have hfull : 6 - p.headerBuf.length ≤ data.length := by omega
      have hlong : ∀ rest, p.feed (data ++ rest) =
          (p.buffer (data.take (6 - p.headerBuf.length))).magicComplete (6 - p.headerBuf.length)
            (data.drop (6 - p.headerBuf.length) ++ rest) := by
        intro rest
        rw [h.full (hboth rest) (by rw [List.length_append]; omega), List.take_append_of_le_length hfull,
          List.drop_append_of_le_length hfull]
      rw [h.full hne hfull]
      simp only [hlong]
      generalize hq : p.buffer (data.take (6 - p.headerBuf.length)) = q
      have hdrop : (data.drop (6 - p.headerBuf.length)).length = data.length - (6 - p.headerBuf.length) :=
        List.length_drop
      generalize data.drop (6 - p.headerBuf.length) = x at hdrop
      unfold magicComplete
      cases subFormatOf (q.headerBuf.take 6) with
      | none => exact .inl fun rest => rfl
      | some format =>
        simp only
        have hpending : q.pending = [] := by rw [← hq]; exact h.pending
        have hstate : q.state = .readingHeader := by rw [← hq]; exact h.state
        generalize hq' : ({ q with subFormat := some format } : CpioParser) = q'
        have hpending' : q'.pending = [] := by rw [← hq']; exact hpending
        have hstate' : q'.state = .readingHeader := by rw [← hq']; exact hstate
        have hformat' : q'.subFormat = some format := by rw [← hq']
        by_cases hpart : x.length < q'.headerSize - q'.headerBuf.length
        · have habsorb : pieces.absorb q' x = q'.buffer x := by
            show absorb q' x = q'.buffer x
            unfold absorb
            rw [hstate']
          refine .inr ⟨q'.buffer x, ?_, ?_, ?_⟩
          · rw [fillHeader_short hpart, shifted, hdrop, Nat.add_sub_cancel' hfull]
          · intro rest hrest
            rw [fillHeader_continued hpart, shifted_shifted, hdrop, Nat.add_sub_cancel' hfull,
              @feed_header (q'.buffer x) format rest hpending' hstate' hformat' hrest]
          · intro rest hrest r
            rw [← habsorb]
            refine pieces.busy ⟨hpending', fun _ => ⟨format, hformat'⟩⟩ hrest ?_
            show x.length < wants q'
            unfold wants
            rw [hstate']
            exact hpart
        · refine .inl fun rest => ?_
          have hwhole : q'.headerSize - q'.headerBuf.length ≤ (x ++ rest).length := by
            rw [List.length_append]
            omega
          rw [fillHeader_full hwhole, fillHeader_full (by omega), List.take_append_of_le_length (by omega)]

/-- Pending entries come out whatever the call is given. -/
theorem pending_incremental {p : CpioParser} {e : ArchiveEntry} {es : List ArchiveEntry}
    (hpending : p.pending = e :: es) : IncrementalAt feed p := by
  have hfeed : ∀ data, p.feed data = (.ok (0, .entry e), { p with pending := es }) := by
    intro data
    unfold feed
    rw [hpending]
  constructor
  · intro data n event p' _ hanswer
    rw [hfeed] at hanswer
    obtain ⟨hsame, _⟩ := Prod.mk.inj hanswer
    obtain ⟨rfl, _⟩ := Prod.mk.inj (Except.ok.inj hsame)
    exact Nat.zero_le _
  · intro data _
    exact .inl fun rest => by rw [hfeed, hfeed]

theorem incremental (p : CpioParser) : IncrementalAt feed p := by
  cases hpending : p.pending with
  | cons e es => exact pending_incremental hpending
  | nil =>
    by_cases hheader : p.state = .readingHeader ∧ p.subFormat = none
    · exact OnMagic.incremental ⟨hpending, hheader.1, hheader.2⟩
    · refine pieces.incremental ⟨hpending, fun hstate => ?_⟩
      exact Option.ne_none_iff_exists'.mp fun hnone => hheader ⟨hstate, hnone⟩

end CpioParser
end Iluvatar
