/-
The ar parser reads headers, names and padded data, piece by piece.
-/
import Iluvatar.Archive.Ar
import Iluvatar.Engine.Pieces

namespace Iluvatar
namespace ArParser

/-- The bytes that complete what the parser is reading. -/
def wants (p : ArParser) : Nat :=
  match p.state with
  | .readingMagic => arMagic.length - p.headerBuf.length
  | .readingHeader => Ar.headerSize - p.headerBuf.length
  | .readingNameTable remaining _ _ => remaining
  | .readingBsdName _ remaining _ => remaining
  | .skippingData remaining _ => remaining

/-- The parser with part of a piece taken. -/
def absorb (p : ArParser) (data : List Byte) : ArParser :=
  match p.state with
  | .readingMagic | .readingHeader => p.buffer data
  | .readingNameTable remaining pad buf =>
    { p with
      state := .readingNameTable (remaining - data.length) pad (buf ++ data)
      streamPos := p.streamPos + data.length }
  | .readingBsdName hdr remaining buf =>
    { p with
      state := .readingBsdName hdr (remaining - data.length) (buf ++ data)
      streamPos := p.streamPos + data.length }
  | .skippingData remaining pad =>
    { p with
      state := .skippingData (remaining - data.length) (min pad (remaining - data.length))
      streamPos := p.streamPos + data.length }

/-- A full header buffer is read; no other is met. -/
def bufferComplete (p : ArParser) (size : Nat)
    (next : ArParser → Except Error ArchiveEvent × ArParser) : Except Error ArchiveEvent × ArParser :=
  if p.headerBuf.length ≠ size then (.ok .needData, p) else next p

/-- The parser with the rest of a piece taken. -/
def complete (p : ArParser) (data : List Byte) : Except Error ArchiveEvent × ArParser :=
  match p.state with
  | .readingMagic => (p.buffer data).bufferComplete arMagic.length magicComplete
  | .readingHeader => (p.buffer data).bufferComplete Ar.headerSize headerComplete
  | .readingNameTable _ pad buf =>
    let p := { p with
      state := .readingNameTable 0 pad (buf ++ data)
      streamPos := p.streamPos + data.length }
    (.ok .needData, { p with nameTable := some (buf ++ data) }.skip 0 pad)
  | .readingBsdName hdr _ buf =>
    let p := { p with
      state := .readingBsdName hdr 0 (buf ++ data)
      streamPos := p.streamPos + data.length }
    p.bsdNameComplete hdr (buf ++ data)
  | .skippingData _ _ =>
    (.ok .needData, { p with state := .readingHeader, streamPos := p.streamPos + data.length })

theorem buffer_buffer (p : ArParser) (data more : List Byte) :
    (p.buffer data).buffer more = p.buffer (data ++ more) := by
  simp only [buffer, List.append_assoc, List.length_append, Nat.add_assoc]

theorem buffer_length (p : ArParser) (data : List Byte) :
    (p.buffer data).headerBuf.length = p.headerBuf.length + data.length := List.length_append

theorem buffer_state (p : ArParser) (data : List Byte) : (p.buffer data).state = p.state := rfl

theorem feedBuffered_short {p : ArParser} {size : Nat} {data : List Byte}
    {next : ArParser → Except Error ArchiveEvent × ArParser}
    (hshort : data.length < size - p.headerBuf.length) :
    p.feedBuffered size next data = (.ok (data.length, .needData), p.buffer data) := by
  have hmin : min data.length (size - p.headerBuf.length) = data.length := by omega
  have hpart : (p.buffer data).headerBuf.length ≠ size := by
    rw [buffer_length]
    omega
  unfold feedBuffered
  simp only [hmin, List.take_length]
  rw [if_pos hpart]

theorem feedBuffered_full {p : ArParser} {size : Nat} {data : List Byte}
    {next : ArParser → Except Error ArchiveEvent × ArParser}
    (hfull : size - p.headerBuf.length ≤ data.length) :
    p.feedBuffered size next data = answering (size - p.headerBuf.length)
      ((p.buffer (data.take (size - p.headerBuf.length))).bufferComplete size next) := by
  have hmin : min data.length (size - p.headerBuf.length) = size - p.headerBuf.length := by omega
  unfold feedBuffered bufferComplete
  simp only [hmin]
  split <;> rfl

/-- The ar parser reads pieces. -/
def pieces : Pieces feed where
  on _ := True
  wants := wants
  absorb := absorb
  complete := complete
  short := by
    intro p data _ hne hshort
    have hempty : data.isEmpty = false := by simpa using hne
    unfold feed absorb
    unfold wants at hshort
    rw [hempty]
    cases hstate : p.state with
    | readingMagic =>
      simp only [hstate] at hshort
      exact feedBuffered_short hshort
    | readingHeader =>
      simp only [hstate] at hshort
      exact feedBuffered_short hshort
    | readingNameTable remaining pad buf =>
      simp only [hstate] at hshort
      have hmin : min data.length remaining = data.length := by omega
      have hleft : 0 < remaining - data.length := by omega
      simp only [feedNameTable, Bool.false_eq_true, if_false, hmin, hleft, if_true, List.take_length]
    | readingBsdName hdr remaining buf =>
      simp only [hstate] at hshort
      have hmin : min data.length remaining = data.length := by omega
      have hleft : 0 < remaining - data.length := by omega
      simp only [feedBsdName, Bool.false_eq_true, if_false, hmin, hleft, if_true, List.take_length]
    | skippingData remaining pad =>
      simp only [hstate] at hshort
      have hmin : min data.length remaining = data.length := by omega
      have hleft : remaining - data.length ≠ 0 := by omega
      simp only [feedSkipData, Bool.false_eq_true, if_false, hmin, hleft]
  full := by
    intro p data _ hne hfull
    have hempty : data.isEmpty = false := by simpa using hne
    unfold feed complete wants
    unfold wants at hfull
    rw [hempty]
    cases hstate : p.state with
    | readingMagic =>
      simp only [hstate] at hfull
      exact feedBuffered_full hfull
    | readingHeader =>
      simp only [hstate] at hfull
      exact feedBuffered_full hfull
    | readingNameTable remaining pad buf =>
      simp only [hstate] at hfull
      have hmin : min data.length remaining = remaining := by omega
      have htake : (data.take remaining).length = remaining := by
        rw [List.length_take]
        omega
      simp only [feedNameTable, Bool.false_eq_true, if_false, hmin, Nat.sub_self, Nat.lt_irrefl, htake]
      rfl
    | readingBsdName hdr remaining buf =>
      simp only [hstate] at hfull
      have hmin : min data.length remaining = remaining := by omega
      have htake : (data.take remaining).length = remaining := by
        rw [List.length_take]
        omega
      simp only [feedBsdName, Bool.false_eq_true, if_false, hmin, Nat.sub_self, Nat.lt_irrefl, htake]
      rfl
    | skippingData remaining pad =>
      simp only [hstate] at hfull
      have hmin : min data.length remaining = remaining := by omega
      have htake : (data.take remaining).length = remaining := by
        rw [List.length_take]
        omega
      simp only [feedSkipData, Bool.false_eq_true, if_false, hmin, Nat.sub_self, if_true, htake]
      rfl
  keeps _ _ _ := trivial
  wants_absorb := by
    intro p data hshort
    unfold absorb wants
    cases hstate : p.state <;> simp only [hstate, buffer_state, buffer_length]
    · omega
    · omega
  absorb_absorb := by
    intro p data more hshort
    unfold absorb
    cases hstate : p.state <;>
      simp only [hstate, buffer_state, buffer_buffer, List.length_append, Nat.add_assoc, List.append_assoc,
        Nat.sub_sub]
    congr 2
    omega
  complete_absorb := by
    intro p data more hshort
    unfold absorb complete
    cases hstate : p.state <;>
      simp only [hstate, buffer_state, buffer_buffer, List.length_append, Nat.add_assoc, List.append_assoc]

/-- The ar parser idles at a name table that declares no data, and at no name it has yet
to read. -/
theorem feed_idle_iff {p : ArParser} {data : List Byte}
    (hmagic : p.state = .readingMagic → p.headerBuf.length < arMagic.length)
    (hheader : p.state = .readingHeader → p.headerBuf.length < Ar.headerSize)
    (hname : ∀ hdr buf, p.state = .readingBsdName hdr 0 buf → buf = []) (hne : data ≠ []) :
    (∃ p', p.feed data = (.ok (0, .needData), p')) ↔
      (∃ pad buf, p.state = .readingNameTable 0 pad buf) ∨ ∃ pad, p.state = .skippingData 0 pad := by
  rw [pieces.idle_iff trivial hne]
  show wants p = 0 ∧ (∃ p', complete p [] = (.ok .needData, p')) ↔ _
  unfold wants complete
  cases hstate : p.state with
  | readingMagic =>
    have hmore : arMagic.length - p.headerBuf.length ≠ 0 := Nat.sub_ne_zero_of_lt (hmagic hstate)
    simp [hmore]
  | readingHeader =>
    have hmore : Ar.headerSize - p.headerBuf.length ≠ 0 := Nat.sub_ne_zero_of_lt (hheader hstate)
    simp [hmore]
  | readingNameTable remaining pad buf => simp
  | skippingData remaining pad => simp
  | readingBsdName hdr remaining buf =>
    simp only [reduceCtorEq, exists_false, or_self, iff_false, not_and]
    rintro rfl ⟨p', hanswer⟩
    obtain rfl := hname hdr buf hstate
    have hsymbols : [] ≠ ascii "__.SYMDEF" := by decide
    -- A name of length zero is no name.
    simp [bsdNameComplete, Ar.trimEnd, hsymbols] at hanswer

end ArParser
end Iluvatar
