/-
The tar parser reads blocks and padded data, piece by piece.
-/
import Iluvatar.Archive.Tar
import Iluvatar.Engine.Pieces

namespace Iluvatar
namespace TarParser

open Tar (blockSize)

/-- The bytes that complete what the parser is reading. -/
def wants (p : TarParser) : Nat :=
  match p.state with
  | .readingHeader | .oneZeroBlock => blockSize - p.headerBuf.length
  | .skippingData remaining => remaining
  | .readingPaxData remaining _ _ => remaining
  | .readingGnuLong remaining _ _ _ => remaining
  | .ended => 0

/-- The parser with part of a piece taken. -/
def absorb (p : TarParser) (data : List Byte) : TarParser :=
  match p.state with
  | .readingHeader | .oneZeroBlock =>
    { p with headerBuf := p.headerBuf ++ data, streamPos := p.streamPos + data.length }
  | .skippingData remaining =>
    { p with
      state := .skippingData (remaining - data.length)
      streamPos := p.streamPos + data.length }
  | .readingPaxData remaining size buf =>
    { p with
      state := .readingPaxData (remaining - data.length) size (gather size buf data)
      streamPos := p.streamPos + data.length }
  | .readingGnuLong remaining size buf isLink =>
    { p with
      state := .readingGnuLong (remaining - data.length) size (gather size buf data) isLink
      streamPos := p.streamPos + data.length }
  | .ended => p

/-- An answer that does not panic. -/
def lift (a : Except Error ArchiveEvent × TarParser) : Except Fault ArchiveEvent × TarParser :=
  (a.1.mapError .error, a.2)

/-- The parser with the rest of a piece taken. -/
def complete (p : TarParser) (data : List Byte) : Except Fault ArchiveEvent × TarParser :=
  match p.state with
  | .readingHeader =>
    lift ({ p with headerBuf := [], streamPos := p.streamPos + data.length }.headerComplete
      (p.headerBuf ++ data))
  | .oneZeroBlock =>
    lift ({ p with headerBuf := [], streamPos := p.streamPos + data.length }.secondComplete
      (p.headerBuf ++ data))
  | .skippingData _ =>
    (.ok .needData, { p with state := .readingHeader, streamPos := p.streamPos + data.length })
  | .readingPaxData _ size buf =>
    let buf := gather size buf data
    let p := { p with state := .readingPaxData 0 size buf, streamPos := p.streamPos + data.length }
    match parsePaxData buf.length p 0 buf with
    | some p => (.ok .needData, { p with state := .readingHeader })
    | none => (.error .panic, p)
  | .readingGnuLong _ size buf isLink =>
    let buf := gather size buf data
    let p := { p with state := .readingGnuLong 0 size buf isLink, streamPos := p.streamPos + data.length }
    (.ok .needData, { p.keepLong isLink buf with state := .readingHeader })
  | .ended => (.ok .endOfArchive, p)

/-- Padding is told apart wherever the data is cut. -/
theorem gather_gather (size : Nat) (buf data more : List Byte) :
    gather size (gather size buf data) more = gather size buf (data ++ more) := by
  unfold gather
  rw [List.take_append, List.length_append, List.length_take, List.append_assoc]
  congr 3
  omega

theorem isEmpty_of_ne_nil {data : List Byte} (hne : data ≠ []) : data.isEmpty = false := by
  simpa using hne

theorem feedBlock_short {p : TarParser} {data : List Byte}
    {next : TarParser → List Byte → Except Error ArchiveEvent × TarParser} (hne : data ≠ [])
    (hshort : data.length < blockSize - p.headerBuf.length) :
    p.feedBlock next data = (.ok (data.length, .needData),
      { p with headerBuf := p.headerBuf ++ data, streamPos := p.streamPos + data.length }) := by
  have hmin : min data.length (blockSize - p.headerBuf.length) = data.length := by omega
  have hpart : (p.headerBuf ++ data).length < blockSize := by
    rw [List.length_append]
    omega
  unfold feedBlock
  rw [isEmpty_of_ne_nil hne]
  simp only [Bool.false_eq_true, if_false, hmin, List.take_length, hpart, if_true]

theorem feedBlock_full {p : TarParser} {data : List Byte}
    {next : TarParser → List Byte → Except Error ArchiveEvent × TarParser} (hne : data ≠ [])
    (hfull : blockSize - p.headerBuf.length ≤ data.length) :
    p.feedBlock next data = answering (blockSize - p.headerBuf.length)
      (lift (next { p with
          headerBuf := []
          streamPos := p.streamPos + (data.take (blockSize - p.headerBuf.length)).length }
        (p.headerBuf ++ data.take (blockSize - p.headerBuf.length)))) := by
  have hmin : min data.length (blockSize - p.headerBuf.length) = blockSize - p.headerBuf.length := by
    omega
  have htake : (data.take (blockSize - p.headerBuf.length)).length = blockSize - p.headerBuf.length := by
    rw [List.length_take]
    omega
  have hwhole : ¬ (p.headerBuf ++ data.take (blockSize - p.headerBuf.length)).length < blockSize := by
    rw [List.length_append]
    omega
  unfold feedBlock
  rw [isEmpty_of_ne_nil hne]
  simp only [Bool.false_eq_true, if_false, hmin, hwhole, htake]
  rfl

theorem piece_short : ∀ (p : TarParser) (data : List Byte), data ≠ [] → data.length < wants p →
    feed p data = (.ok (data.length, .needData), absorb p data) := by
  intro p data hne hshort
  have hempty := isEmpty_of_ne_nil hne
  unfold feed absorb
  unfold wants at hshort
  cases hstate : p.state with
  | readingHeader =>
    simp only [hstate] at hshort ⊢
    have hblock := @feedBlock_short p data headerComplete hne hshort
    rw [hstate] at hblock
    exact hblock
  | oneZeroBlock =>
    simp only [hstate] at hshort ⊢
    have hblock := @feedBlock_short p data secondComplete hne hshort
    rw [hstate] at hblock
    exact hblock
  | skippingData remaining =>
    simp only [hstate] at hshort ⊢
    have hmin : min data.length remaining = data.length := by omega
    have hleft : remaining - data.length ≠ 0 := by omega
    simp only [feedSkip, hempty, Bool.false_eq_true, if_false, hmin, hleft]
  | readingPaxData remaining size buf =>
    simp only [hstate] at hshort ⊢
    have hmin : min data.length remaining = data.length := by omega
    have hleft : remaining - data.length ≠ 0 := by omega
    simp only [feedPax, hempty, Bool.false_eq_true, if_false, hmin, hleft, List.take_length]
  | readingGnuLong remaining size buf isLink =>
    simp only [hstate] at hshort ⊢
    have hmin : min data.length remaining = data.length := by omega
    have hleft : remaining - data.length ≠ 0 := by omega
    simp only [feedGnuLong, hempty, Bool.false_eq_true, if_false, hmin, hleft, List.take_length]
  | ended => simp only [hstate, Nat.not_lt_zero] at hshort

theorem piece_full : ∀ (p : TarParser) (data : List Byte), data ≠ [] → wants p ≤ data.length →
    feed p data = answering (wants p) (complete p (data.take (wants p))) := by
  intro p data hne hfull
  have hempty := isEmpty_of_ne_nil hne
  unfold feed complete wants
  unfold wants at hfull
  cases hstate : p.state with
  | readingHeader =>
    simp only [hstate] at hfull ⊢
    have hblock := @feedBlock_full p data headerComplete hne hfull
    rw [hstate] at hblock
    exact hblock
  | oneZeroBlock =>
    simp only [hstate] at hfull ⊢
    have hblock := @feedBlock_full p data secondComplete hne hfull
    rw [hstate] at hblock
    exact hblock
  | skippingData remaining =>
    simp only [hstate] at hfull ⊢
    have hmin : min data.length remaining = remaining := by omega
    have htake : (data.take remaining).length = remaining := by
      rw [List.length_take]
      omega
    simp only [feedSkip, hempty, Bool.false_eq_true, if_false, hmin, Nat.sub_self, if_true, htake]
    rfl
  | readingPaxData remaining size buf =>
    simp only [hstate] at hfull ⊢
    have hmin : min data.length remaining = remaining := by omega
    have htake : (data.take remaining).length = remaining := by
      rw [List.length_take]
      omega
    simp only [feedPax, hempty, Bool.false_eq_true, if_false, hmin, Nat.sub_self, if_true, htake]
    generalize parsePaxData _ _ _ _ = parsed
    cases parsed with
    | none => rfl
    | some kept => rfl
  | readingGnuLong remaining size buf isLink =>
    simp only [hstate] at hfull ⊢
    have hmin : min data.length remaining = remaining := by omega
    have htake : (data.take remaining).length = remaining := by
      rw [List.length_take]
      omega
    simp only [feedGnuLong, hempty, Bool.false_eq_true, if_false, hmin, Nat.sub_self, if_true, htake]
    rfl
  | ended => rfl

theorem wants_absorb : ∀ (p : TarParser) (data : List Byte), data.length < wants p →
    wants (absorb p data) = wants p - data.length := by
  intro p data hshort
  unfold absorb wants
  cases hstate : p.state <;> simp only [hstate]
  · rw [List.length_append]
    omega
  · rw [List.length_append]
    omega
  · omega

theorem absorb_absorb : ∀ (p : TarParser) (data more : List Byte), data.length < wants p →
    absorb (absorb p data) more = absorb p (data ++ more) := by
  intro p data more hshort
  unfold absorb
  cases hstate : p.state <;>
    simp only [hstate, List.length_append, Nat.add_assoc, List.append_assoc, gather_gather, Nat.sub_sub]

theorem complete_absorb : ∀ (p : TarParser) (data more : List Byte), data.length < wants p →
    complete (absorb p data) more = complete p (data ++ more) := by
  intro p data more hshort
  unfold absorb complete
  cases hstate : p.state <;>
    simp only [hstate, List.length_append, Nat.add_assoc, List.append_assoc, gather_gather]

/-- The tar parser reads pieces. -/
def pieces : Pieces feed where
  on _ := True
  wants := wants
  absorb := absorb
  complete := complete
  short p data _ := piece_short p data
  full p data _ := piece_full p data
  keeps _ _ _ := trivial
  wants_absorb := wants_absorb
  absorb_absorb := absorb_absorb
  complete_absorb := complete_absorb

/-- The tar parser idles at an extension or global header that declares no data. -/
theorem feed_idle_iff {p : TarParser} {data : List Byte} (hbuf : p.headerBuf.length < blockSize)
    (hpax : ∀ size buf, p.state = .readingPaxData 0 size buf → buf = []) (hne : data ≠ []) :
    (∃ p', p.feed data = (.ok (0, .needData), p')) ↔
      p.state = .skippingData 0 ∨ (∃ size, p.state = .readingPaxData 0 size []) ∨
        ∃ size buf isLink, p.state = .readingGnuLong 0 size buf isLink := by
  have hblock : blockSize - p.headerBuf.length ≠ 0 := by omega
  rw [pieces.idle_iff trivial hne]
  show wants p = 0 ∧ (∃ p', complete p [] = (.ok .needData, p')) ↔ _
  unfold wants complete
  cases hstate : p.state with
  | readingHeader | oneZeroBlock => simp [hblock]
  | skippingData remaining => simp
  | readingGnuLong remaining size buf isLink => simp
  | ended => simp
  | readingPaxData remaining size buf =>
    have hempty : remaining = 0 → buf = [] := by
      rintro rfl
      exact hpax size buf hstate
    constructor
    · rintro ⟨rfl, _⟩
      rw [hempty rfl]
      exact .inr (.inl ⟨size, rfl⟩)
    · rintro (hskip | ⟨size', hsame⟩ | ⟨size', buf', isLink, hlong⟩)
      · cases hskip
      · cases hsame
        have hnone : gather size [] [] = [] := by rw [gather, List.take_nil, List.append_nil]
        refine ⟨rfl, ?_⟩
        simp [hnone, parsePaxData]
      · cases hlong

end TarParser
end Iluvatar
