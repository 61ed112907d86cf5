/-
TarParser over a whole stream: where it stands in the bytes it has taken.

Between two headers the parser has a number of bytes left to skip, and in a header it holds the
bytes of a block.  Either way the next block begins at a multiple of the block size, after the data
of every entry reported.
-/
import Iluvatar.Archive.TarPieces
import Iluvatar.Engine.Feedings
import Iluvatar.Library.Fallible

namespace Iluvatar
namespace TarParser

open Tar (blockSize)

/-- The size rounded up to a block boundary, in unbounded numbers. -/
def roundUp (size : Nat) : Nat := (size + (blockSize - 1)) / blockSize * blockSize

/-- Bytes of data left to skip before the next header. -/
def dataLeft (p : TarParser) : Nat :=
  match p.state with
  | .skippingData remaining => remaining
  | .readingPaxData remaining _ _ => remaining
  | .readingGnuLong remaining _ _ _ => remaining
  | _ => 0

/-- A header block is being read. -/
def inHeader (p : TarParser) : Bool := p.state = .readingHeader || p.state = .oneZeroBlock

/-- The parser has seen a block of zeros and nothing else since. -/
def sawZeros (p : TarParser) : Bool := p.state = .oneZeroBlock || p.state = .ended

/-- The block of the stream that ends at `stop`. -/
def blockBefore (plain : List Byte) (stop : Nat) : List Byte := (plain.drop (stop - blockSize)).take blockSize

/-- An entry whose data follows its header block. -/
structure EntryAt (plain : List Byte) (e : ArchiveEntry) : Prop where
  after : blockSize ≤ e.dataOffset
  aligned : e.dataOffset % blockSize = 0
  within : e.dataOffset ≤ plain.length
  header : ∃ header path size linkTarget,
    Tar.parseHeader (blockBefore plain e.dataOffset) e.dataOffset = .ok header ∧
      e = toArchiveEntry { header with path, size, linkTarget }

/-- The data of an entry ends before `stop`, if its size can be rounded up. -/
def EndsBefore (stop : Nat) (e : ArchiveEntry) : Prop :=
  e.size ≤ 2 ^ 64 - blockSize → e.dataOffset + e.size ≤ stop

/-- Where the parser stands, with `n` bytes of the stream taken and `es` reported. -/
structure StandsAt (plain : List Byte) (n : Nat) (es : List ArchiveEntry) (p : TarParser) : Prop where
  position : p.streamPos = n
  within : n ≤ plain.length
  short : p.headerBuf.length < blockSize
  back : p.headerBuf.length ≤ n
  buffered : p.headerBuf = (plain.drop (n - p.headerBuf.length)).take p.headerBuf.length
  empty : p.inHeader = false → p.headerBuf = []
  aligned : (n - p.headerBuf.length + p.dataLeft) % blockSize = 0
  past : ∀ e ∈ es, EndsBefore (n - p.headerBuf.length + p.dataLeft) e
  zeros : p.sawZeros = true → blockSize ≤ n - p.headerBuf.length ∧
    Tar.isZeroBlock (blockBefore plain (n - p.headerBuf.length)) = true
  entries : ∀ e ∈ es, EntryAt plain e
  ordered : es.Pairwise fun e e' => EndsBefore (e'.dataOffset - blockSize) e

theorem new_stands (plain : List Byte) : StandsAt plain 0 [] new where
  position := rfl
  within := Nat.zero_le _
  short := by decide
  back := Nat.le_refl _
  buffered := rfl
  empty := fun _ => rfl
  aligned := rfl
  past := by simp
  zeros := fun h => by cases h
  entries := by simp
  ordered := .nil

/-! ## What a header leaves -/

theorem paddedSize_mod (size : Nat) : Tar.paddedSize size % blockSize = 0 := by
  unfold Tar.paddedSize blockSize
  omega

theorem size_le_paddedSize {size : Nat} (h : size ≤ 2 ^ 64 - blockSize) : size ≤ Tar.paddedSize size := by
  unfold Tar.paddedSize
  unfold blockSize at h ⊢
  omega

theorem parseHeader_dataOffset {block : List Byte} {offset : Nat} {e : TarEntry}
    (h : Tar.parseHeader block offset = .ok e) : e.dataOffset = offset := by
  unfold Tar.parseHeader at h
  split at h
  · cases h
  · obtain ⟨mode, _, h⟩ := Except.bind_eq_ok.mp h
    obtain ⟨uid, _, h⟩ := Except.bind_eq_ok.mp h
    obtain ⟨gid, _, h⟩ := Except.bind_eq_ok.mp h
    obtain ⟨size, _, h⟩ := Except.bind_eq_ok.mp h
    obtain ⟨mtime, _, h⟩ := Except.bind_eq_ok.mp h
    simp only at h
    split at h
    · cases h
    · split at h
      · cases h
      · obtain rfl := Except.ok.inj h
        rfl

/-- A header's own size leaves room for rounding it up. -/
theorem parseHeader_size {block : List Byte} {offset : Nat} {header : TarEntry}
    (h : Tar.parseHeader block offset = .ok header) : header.size ≤ 2 ^ 64 - blockSize := by
  unfold Tar.parseHeader at h
  split at h
  · cases h
  · obtain ⟨mode, _, h⟩ := Except.bind_eq_ok.mp h
    obtain ⟨uid, _, h⟩ := Except.bind_eq_ok.mp h
    obtain ⟨gid, _, h⟩ := Except.bind_eq_ok.mp h
    obtain ⟨size, _, h⟩ := Except.bind_eq_ok.mp h
    obtain ⟨mtime, _, h⟩ := Except.bind_eq_ok.mp h
    simp only at h
    split at h
    · cases h
    · next hsize =>
      split at h
      · cases h
      · obtain rfl := Except.ok.inj h
        simp only
        omega

/-- What the parser is with a header read and no entry reported: it has data to skip. -/
structure Skips (p p' : TarParser) (size : Nat) : Prop where
  streamPos : p'.streamPos = p.streamPos
  headerBuf : p'.headerBuf = p.headerBuf
  dataLeft : p'.dataLeft = Tar.paddedSize size
  inHeader : p'.inHeader = true → Tar.paddedSize size = 0
  sawZeros : p'.sawZeros = false

/-- A header is one of an extension, or reports an entry. -/
theorem processHeader_cases {p p' : TarParser} {block : List Byte} {event : ArchiveEvent}
    (h : p.processHeader block = (.ok event, p')) :
    ∃ entry, Tar.parseHeader block p.streamPos = .ok entry ∧
      ((event = .needData ∧ Skips p p' entry.size) ∨
        (event = .entry (toArchiveEntry (p.applyPending entry).1) ∧ Skips p p' (p.applyPending entry).1.size)) := by
  unfold processHeader at h
  split at h
  · cases h
  · next entry hparse =>
    refine ⟨entry, hparse, ?_⟩
    split at h
    · cases h
    · simp only at h
      split at h
      · obtain ⟨hevent, rfl⟩ := Prod.mk.inj h
        exact .inl ⟨(Except.ok.inj hevent).symm, rfl, rfl, rfl, fun hh => (by cases hh), rfl⟩
      · obtain ⟨hevent, rfl⟩ := Prod.mk.inj h
        exact .inl ⟨(Except.ok.inj hevent).symm, rfl, rfl, rfl, fun hh => (by cases hh), rfl⟩
      · obtain ⟨hevent, rfl⟩ := Prod.mk.inj h
        exact .inl ⟨(Except.ok.inj hevent).symm, rfl, rfl, rfl, fun hh => (by cases hh), rfl⟩
      · obtain ⟨hevent, rfl⟩ := Prod.mk.inj h
        exact .inl ⟨(Except.ok.inj hevent).symm, rfl, rfl, rfl, fun hh => (by cases hh), rfl⟩
      · obtain ⟨hevent, rfl⟩ := Prod.mk.inj h
        refine .inr ⟨(Except.ok.inj hevent).symm, rfl, rfl, ?_, ?_, ?_⟩
        · unfold dataLeft
          by_cases hpad : 0 < Tar.paddedSize (p.applyPending entry).1.size
          · simp only [if_pos hpad]
          · simp only [if_neg hpad]
            omega
        · unfold inHeader
          by_cases hpad : 0 < Tar.paddedSize (p.applyPending entry).1.size
          · simp [if_pos hpad]
          · intro _
            omega
        · unfold sawZeros
          by_cases hpad : 0 < Tar.paddedSize (p.applyPending entry).1.size
          · simp [if_pos hpad]
          · simp [if_neg hpad]

/-- An extended header's records change what is pending only. -/
theorem parsePaxData_frame : ∀ (fuel : Nat) {p p' : TarParser} {pos : Nat} {data : List Byte},
    parsePaxData fuel p pos data = some p' →
    p'.state = p.state ∧ p'.headerBuf = p.headerBuf ∧ p'.streamPos = p.streamPos := by
  intro fuel
  induction fuel with
  | zero =>
    intro p p' pos data h
    obtain rfl := Option.some.inj h
    exact ⟨rfl, rfl, rfl⟩
  | succ fuel ih =>
    intro p p' pos data h
    have hrecord : ∀ record, (p.paxRecord record).state = p.state ∧ (p.paxRecord record).headerBuf = p.headerBuf ∧
        (p.paxRecord record).streamPos = p.streamPos := by
      intro record
      unfold paxRecord
      simp only
      repeat' split
      all_goals exact ⟨rfl, rfl, rfl⟩
    unfold parsePaxData at h
    split at h
    · simp only at h
      split at h
      · obtain rfl := Option.some.inj h
        exact ⟨rfl, rfl, rfl⟩
      · split at h
        · obtain rfl := Option.some.inj h
          exact ⟨rfl, rfl, rfl⟩
        · split at h
          · cases h
          · split at h
            · obtain rfl := Option.some.inj h
              exact ⟨rfl, rfl, rfl⟩
            · obtain ⟨hstate, hbuf, hpos⟩ := ih h
              obtain ⟨hstate', hbuf', hpos'⟩ := hrecord
                ((data.take _).drop ((data.takeWhile (· != 32)).length + 1))
              exact ⟨hstate.trans hstate', hbuf.trans hbuf', hpos.trans hpos'⟩
    · obtain rfl := Option.some.inj h
      exact ⟨rfl, rfl, rfl⟩

theorem keepLong_frame (p : TarParser) (isLink : Bool) (buf : List Byte) :
    (p.keepLong isLink buf).headerBuf = p.headerBuf ∧ (p.keepLong isLink buf).streamPos = p.streamPos := by
  unfold keepLong
  cases isLink <;> exact ⟨rfl, rfl⟩

/-! ## One call -/

variable {plain piece : List Byte} {n : Nat} {es : List ArchiveEntry} {p p' : TarParser} {event : ArchiveEvent}

/-- The stream at the boundary of two blocks, the data of all entries being before it. -/
structure Boundary (plain : List Byte) (n : Nat) (es : List ArchiveEntry) : Prop where
  within : n ≤ plain.length
  aligned : n % blockSize = 0
  past : ∀ e ∈ es, EndsBefore n e
  entries : ∀ e ∈ es, EntryAt plain e
  ordered : es.Pairwise fun e e' => EndsBefore (e'.dataOffset - blockSize) e

theorem EndsBefore.mono {stop stop' : Nat} {e : ArchiveEntry} (h : EndsBefore stop e) (hle : stop ≤ stop') :
    EndsBefore stop' e := fun hsize => Nat.le_trans (h hsize) hle

theorem Boundary.stands (h : Boundary plain n es) (hpos : p.streamPos = n) (hbuf : p.headerBuf = [])
    (hleft : p.dataLeft % blockSize = 0)
    (hzeros : p.sawZeros = true → blockSize ≤ n ∧ Tar.isZeroBlock (blockBefore plain n) = true) :
    StandsAt plain n es p := by
  have haligned := h.aligned
  exact
    { position := hpos
      within := h.within
      short := by rw [hbuf]; decide
      back := by rw [hbuf]; exact Nat.zero_le _
      buffered := by rw [hbuf, List.length_nil, List.take_zero]
      empty := fun _ => hbuf
      aligned := by
        rw [hbuf, List.length_nil, Nat.sub_zero]
        unfold blockSize at haligned hleft ⊢
        omega
      past := by
        rw [hbuf, List.length_nil, Nat.sub_zero]
        exact fun e he => (h.past e he).mono (Nat.le_add_right _ _)
      zeros := by
        rw [hbuf, List.length_nil, Nat.sub_zero]
        exact hzeros
      entries := h.entries
      ordered := h.ordered }

/-- Part of a block, or of the data to skip. -/
theorem StandsAt.absorb (h : StandsAt plain n es p) (hbegins : piece <+: plain.drop n)
    (hshort : piece.length < p.wants) : StandsAt plain (n + piece.length) es (p.absorb piece) := by
  have hpos := h.position
  have hback := h.back
  have hwithin : n + piece.length ≤ plain.length := by
    have hle := hbegins.length_le
    have := h.within
    rw [List.length_drop] at hle
    omega
  have hbuffered : p.headerBuf ++ piece =
      (plain.drop (n - p.headerBuf.length)).take (p.headerBuf.length + piece.length) := by
    rw [List.take_add, ← h.buffered, List.drop_drop, Nat.sub_add_cancel hback, ← List.prefix_iff_eq_take.mp hbegins]
  have hsame : n + piece.length - (p.headerBuf ++ piece).length = n - p.headerBuf.length := by
    rw [List.length_append]
    omega
  have hempty := h.empty
  have haligned := h.aligned
  have hpast := h.past
  have hzeros := h.zeros
  unfold inHeader at hempty
  unfold dataLeft at haligned hpast
  unfold sawZeros at hzeros
  unfold wants at hshort
  -- in a header the block grows, and in data the bytes left to skip become fewer
  have hheader : ∀ q : TarParser, q.streamPos = n + piece.length → q.headerBuf = p.headerBuf ++ piece →
      q.dataLeft = 0 → q.inHeader = true → (n - p.headerBuf.length) % blockSize = 0 →
      (∀ e ∈ es, EndsBefore (n - p.headerBuf.length) e) → piece.length < blockSize - p.headerBuf.length →
      (q.sawZeros = true → blockSize ≤ n - p.headerBuf.length ∧
        Tar.isZeroBlock (blockBefore plain (n - p.headerBuf.length)) = true) →
      StandsAt plain (n + piece.length) es q := by
    intro q hqpos hqbuf hqleft hqin hq hqpast hqshort hqzeros
    exact
      { position := hqpos
        within := hwithin
        short := by rw [hqbuf, List.length_append]; omega
        back := by rw [hqbuf, List.length_append]; omega
        buffered := by rw [hqbuf, hsame, List.length_append]; exact hbuffered
        empty := fun hh => by rw [hqin] at hh; cases hh
        aligned := by rw [hqbuf, hsame, hqleft]; exact hq
        past := by rw [hqbuf, hsame, hqleft]; exact hqpast
        zeros := by rw [hqbuf, hsame]; exact hqzeros
        entries := h.entries
        ordered := h.ordered }
  have hdata : ∀ (q : TarParser) (left : Nat), q.streamPos = n + piece.length → q.headerBuf = [] →
      q.dataLeft = left - piece.length → q.sawZeros = false → piece.length < left → (n + left) % blockSize = 0 →
      (∀ e ∈ es, EndsBefore (n + left) e) → StandsAt plain (n + piece.length) es q := by
    intro q left hqpos hqbuf hqleft hqsaw hlt hq hqpast
    have hsum : n + piece.length - ([] : List Byte).length + (left - piece.length) = n + left := by
      rw [List.length_nil]
      omega
    exact
      { position := hqpos
        within := hwithin
        short := by rw [hqbuf]; decide
        back := by rw [hqbuf]; exact Nat.zero_le _
        buffered := by rw [hqbuf, List.length_nil, List.take_zero]
        empty := fun _ => hqbuf
        aligned := by rw [hqbuf, hqleft, hsum]; exact hq
        past := by rw [hqbuf, hqleft, hsum]; exact hqpast
        zeros := fun hh => by rw [hqsaw] at hh; cases hh
        entries := h.entries
        ordered := h.ordered }
  unfold TarParser.absorb
  cases hstate : p.state with
  | readingHeader =>
    simp only [hstate] at hshort haligned hpast hzeros ⊢
    exact hheader _ (by simp only [hpos]) rfl rfl rfl haligned hpast hshort (fun hh => by cases hh)
  | oneZeroBlock =>
    simp only [hstate] at hshort haligned hpast hzeros ⊢
    exact hheader _ (by simp only [hpos]) rfl rfl rfl haligned hpast hshort (fun _ => hzeros (by simp))
  | skippingData remaining =>
    simp only [hstate] at hshort haligned hpast hempty ⊢
    have hbuf := hempty (by simp)
    rw [hbuf, List.length_nil, Nat.sub_zero] at haligned hpast
    exact hdata _ remaining (by simp only [hpos]) hbuf rfl rfl hshort haligned hpast
  | readingPaxData remaining size buf =>
    simp only [hstate] at hshort haligned hpast hempty ⊢
    have hbuf := hempty (by simp)
    rw [hbuf, List.length_nil, Nat.sub_zero] at haligned hpast
    exact hdata _ remaining (by simp only [hpos]) hbuf rfl rfl hshort haligned hpast
  | readingGnuLong remaining size buf isLink =>
    simp only [hstate] at hshort haligned hpast hempty ⊢
    have hbuf := hempty (by simp)
    rw [hbuf, List.length_nil, Nat.sub_zero] at haligned hpast
    exact hdata _ remaining (by simp only [hpos]) hbuf rfl rfl hshort haligned hpast
  | ended => simp only [hstate, Nat.not_lt_zero] at hshort

/-- With the rest of a block taken, the stream is at a boundary, after that block. -/
theorem StandsAt.block (h : StandsAt plain n es p) (hin : p.inHeader = true) (hbegins : piece <+: plain.drop n)
    (hfull : piece.length = blockSize - p.headerBuf.length) :
    Boundary plain (n + piece.length) es ∧ blockSize ≤ n + piece.length ∧
      (∀ e ∈ es, EndsBefore (n + piece.length - blockSize) e) ∧
      blockBefore plain (n + piece.length) = p.headerBuf ++ piece := by
  have hback := h.back
  have hshort := h.short
  have haligned := h.aligned
  have hpast := h.past
  have hleft : p.dataLeft = 0 := by
    unfold inHeader at hin
    unfold dataLeft
    cases hstate : p.state <;> simp_all
  have hsum : n + piece.length = n - p.headerBuf.length + blockSize := by omega
  rw [hleft, Nat.add_zero] at haligned hpast
  refine ⟨⟨?_, ?_, fun e he => (hpast e he).mono (by omega), h.entries, h.ordered⟩, by omega,
    fun e he => (hpast e he).mono (by omega), ?_⟩
  · have hle := hbegins.length_le
    have := h.within
    rw [List.length_drop] at hle
    omega
  · rw [hsum, Nat.add_mod_right]
    exact haligned
  · unfold blockBefore
    rw [hsum, Nat.add_sub_cancel, show blockSize = p.headerBuf.length + piece.length by omega, List.take_add,
      ← h.buffered, List.drop_drop, Nat.sub_add_cancel hback, ← List.prefix_iff_eq_take.mp hbegins]

/-- A header that was read: of an extension, or one that reports an entry. -/
theorem Boundary.header (h : Boundary plain n es) (hsize : blockSize ≤ n)
    (hbefore : ∀ e ∈ es, EndsBefore (n - blockSize) e) (hpos : p.streamPos = n) (hbuf : p.headerBuf = [])
    (hdone : p.processHeader (blockBefore plain n) = (.ok event, p')) :
    StandsAt plain n (es ++ event.entries) p' := by
  obtain ⟨entry, hparse, hcases⟩ := processHeader_cases hdone
  rcases hcases with ⟨rfl, hskips⟩ | ⟨rfl, hskips⟩
  · rw [ArchiveEvent.entries_needData, List.append_nil]
    refine h.stands (hskips.streamPos.trans hpos) (hskips.headerBuf.trans hbuf) ?_ ?_
    · rw [hskips.dataLeft]
      exact paddedSize_mod _
    · rw [hskips.sawZeros]
      exact fun hh => by cases hh
  · have haligned := h.aligned
    have hoffset : (toArchiveEntry (p.applyPending entry).1).dataOffset = n :=
      (parseHeader_dataOffset hparse).trans hpos
    have hentry : EntryAt plain (toArchiveEntry (p.applyPending entry).1) := by
      refine ⟨by rw [hoffset]; exact hsize, by rw [hoffset]; exact haligned, by rw [hoffset]; exact h.within,
        entry, _, _, _, ?_, rfl⟩
      rw [hoffset, ← hparse, hpos]
    have hpadded := paddedSize_mod (p.applyPending entry).1.size
    have hreported : ∀ e ∈ es ++ (ArchiveEvent.entry (toArchiveEntry (p.applyPending entry).1)).entries,
        e ∈ es ∨ e = toArchiveEntry (p.applyPending entry).1 := by
      intro e he
      rcases List.mem_append.mp he with hold | hnew
      · exact .inl hold
      · exact .inr (List.mem_singleton.mp hnew)
    have hpbuf := hskips.headerBuf.trans hbuf
    exact
      { position := hskips.streamPos.trans hpos
        within := h.within
        short := by rw [hpbuf]; decide
        back := by rw [hpbuf]; exact Nat.zero_le _
        buffered := by rw [hpbuf, List.length_nil, List.take_zero]
        empty := fun _ => hpbuf
        aligned := by
          rw [hpbuf, List.length_nil, Nat.sub_zero, hskips.dataLeft]
          unfold blockSize at haligned hpadded ⊢
          omega
        past := by
          rw [hpbuf, List.length_nil, Nat.sub_zero, hskips.dataLeft]
          intro e he
          rcases hreported e he with hold | rfl
          · exact (h.past e hold).mono (Nat.le_add_right _ _)
          · intro hfits
            rw [hoffset]
            exact Nat.add_le_add_left (size_le_paddedSize hfits) n
        zeros := fun hh => by rw [hskips.sawZeros] at hh; cases hh
        entries := by
          intro e he
          rcases hreported e he with hold | rfl
          · exact h.entries e hold
          · exact hentry
        ordered := by
          refine List.pairwise_append.mpr ⟨h.ordered, List.pairwise_singleton _ _, fun e he e' he' => ?_⟩
          obtain rfl := List.mem_singleton.mp he'
          rw [hoffset]
          exact hbefore e he }

/-- Data skipped to its end. -/
theorem StandsAt.skipped (h : StandsAt plain n es p) (hin : p.inHeader = false) (hbegins : piece <+: plain.drop n)
    (hfull : piece.length = p.dataLeft) : p.headerBuf = [] ∧ Boundary plain (n + piece.length) es := by
  have hbuf := h.empty hin
  have haligned := h.aligned
  have hpast := h.past
  rw [hbuf, List.length_nil, Nat.sub_zero, ← hfull] at haligned hpast
  refine ⟨hbuf, ?_, haligned, hpast, h.entries, h.ordered⟩
  have hle := hbegins.length_le
  have := h.within
  rw [List.length_drop] at hle
  omega

theorem lift_ok {a : Except Error ArchiveEvent × TarParser} (h : lift a = (.ok event, p')) : a = (.ok event, p') := by
  obtain ⟨answer, q⟩ := a
  obtain ⟨hanswer, rfl⟩ := Prod.mk.inj h
  cases answer with
  | error e => cases hanswer
  | ok event' =>
    obtain rfl := Except.ok.inj hanswer
    rfl

theorem StandsAt.complete (h : StandsAt plain n es p) (hbegins : piece <+: plain.drop n)
    (hfull : piece.length = p.wants) (hdone : p.complete piece = (.ok event, p')) :
    StandsAt plain (n + piece.length) (es ++ event.entries) p' := by
  have hpos := h.position
  unfold wants at hfull
  unfold TarParser.complete at hdone
  cases hstate : p.state with
  | readingHeader =>
    simp only [hstate] at hfull hdone
    obtain ⟨hboundary, hsize, hbefore, hblock⟩ := h.block (by simp [inHeader, hstate]) hbegins hfull
    have hdone := lift_ok hdone
    unfold headerComplete at hdone
    rw [← hblock] at hdone
    split at hdone
    · next hzero =>
      obtain ⟨hevent, rfl⟩ := Prod.mk.inj hdone
      obtain rfl := Except.ok.inj hevent
      rw [ArchiveEvent.entries_needData, List.append_nil]
      exact hboundary.stands (by simp only [hpos]) rfl rfl fun _ => ⟨hsize, hzero⟩
    · exact hboundary.header hsize hbefore (by simp only [hpos]) rfl hdone
  | oneZeroBlock =>
    simp only [hstate] at hfull hdone
    obtain ⟨hboundary, hsize, hbefore, hblock⟩ := h.block (by simp [inHeader, hstate]) hbegins hfull
    have hdone := lift_ok hdone
    unfold secondComplete at hdone
    rw [← hblock] at hdone
    split at hdone
    · next hzero =>
      obtain ⟨hevent, rfl⟩ := Prod.mk.inj hdone
      obtain rfl := Except.ok.inj hevent
      rw [ArchiveEvent.entries_endOfArchive, List.append_nil]
      exact hboundary.stands (by simp only [hpos]) rfl rfl fun _ => ⟨hsize, hzero⟩
    · exact hboundary.header hsize hbefore (by simp only [hpos]) rfl hdone
  | skippingData remaining =>
    simp only [hstate] at hfull hdone
    obtain ⟨hbuf, hboundary⟩ := h.skipped (by simp [inHeader, hstate]) hbegins (by simp [dataLeft, hstate, hfull])
    obtain ⟨hevent, rfl⟩ := Prod.mk.inj hdone
    obtain rfl := Except.ok.inj hevent
    rw [ArchiveEvent.entries_needData, List.append_nil]
    exact hboundary.stands (by simp only [hpos]) hbuf rfl fun hh => by cases hh
  | readingPaxData remaining size buf =>
    simp only [hstate] at hfull hdone
    obtain ⟨hbuf, hboundary⟩ := h.skipped (by simp [inHeader, hstate]) hbegins (by simp [dataLeft, hstate, hfull])
    split at hdone
    · next q hparsed =>
      obtain ⟨_, hqbuf, hqpos⟩ := parsePaxData_frame _ hparsed
      obtain ⟨hevent, rfl⟩ := Prod.mk.inj hdone
      obtain rfl := Except.ok.inj hevent
      rw [ArchiveEvent.entries_needData, List.append_nil]
      exact hboundary.stands (by simp only [hqpos, hpos]) (hqbuf.trans hbuf) rfl fun hh => by cases hh
    · cases hdone
  | readingGnuLong remaining size buf isLink =>
    simp only [hstate] at hfull hdone
    obtain ⟨hbuf, hboundary⟩ := h.skipped (by simp [inHeader, hstate]) hbegins (by simp [dataLeft, hstate, hfull])
    obtain ⟨hevent, rfl⟩ := Prod.mk.inj hdone
    obtain rfl := Except.ok.inj hevent
    rw [ArchiveEvent.entries_needData, List.append_nil]
    refine hboundary.stands ?_ ((keepLong_frame _ _ _).1.trans hbuf) rfl fun hh => by cases hh
    exact (keepLong_frame _ _ _).2.trans (by simp only [hpos])
  | ended =>
    simp only [hstate] at hfull hdone
    obtain ⟨hevent, rfl⟩ := Prod.mk.inj hdone
    obtain rfl := Except.ok.inj hevent
    rw [ArchiveEvent.entries_endOfArchive, List.append_nil, hfull]
    exact h

/-- One call keeps track of the stream. -/
theorem StandsAt.call {k : Nat} (h : StandsAt plain n es p) (hne : piece ≠ []) (hbegins : piece <+: plain.drop n)
    (hfeed : p.feed piece = (.ok (k, event), p')) : StandsAt plain (n + k) (es ++ event.entries) p' := by
  by_cases hshort : piece.length < p.wants
  · rw [pieces.short p piece trivial hne hshort] at hfeed
    obtain ⟨hanswer, rfl⟩ := Prod.mk.inj hfeed
    obtain ⟨rfl, rfl⟩ := Prod.mk.inj (Except.ok.inj hanswer)
    rw [ArchiveEvent.entries_needData, List.append_nil]
    exact h.absorb hbegins hshort
  · rw [pieces.full p piece trivial hne (Nat.le_of_not_lt hshort)] at hfeed
    have hlength : (piece.take p.wants).length = p.wants := by
      rw [List.length_take]
      omega
    have hcount : k = p.wants := answering_ok hfeed
    have hpart : piece.take p.wants <+: plain.drop n := (List.take_prefix _ _).trans hbegins
    have hdone : p.complete (piece.take p.wants) = (.ok event, p') := answering_done hfeed
    have hstands := h.complete hpart hlength hdone
    rwa [hlength, ← hcount] at hstands

/-- In every feeding the parser stands where the bytes taken put it. -/
theorem fed_stands {may : TarParser → List Byte → Prop} (h : Fed feed may plain new n es p) :
    StandsAt plain n es p :=
  h.invariant (new_stands plain) fun _ _ _ _ _ _ _ hstands hne hbegins _ hfeed => hstands.call hne hbegins hfeed

/-! ## Every driver -/

/-- The end of the stream, as the driver tells it. -/
def finish (p : TarParser) : Except Fault Unit := p.endOfStream.mapError .error

/-- An extension or a global header without data is skipped by a call that takes nothing. -/
def idle (p : TarParser) : Nat := if p.wants = 0 then 1 else 0

theorem StandsAt.idle_less (h : StandsAt plain n es p) (hne : piece ≠ [])
    (hfeed : p.feed piece = (.ok (0, event), p')) (hevent : event ≠ .endOfArchive) : p'.idle < p.idle := by
  have hshort := h.short
  have hempty := h.empty
  have hpos := List.length_pos_iff.mpr hne
  have hzero : p.wants = 0 := by
    by_cases hpart : piece.length < p.wants
    · rw [pieces.short p piece trivial hne hpart] at hfeed
      obtain ⟨hlen, _⟩ := Prod.mk.inj (Except.ok.inj (Prod.mk.inj hfeed).1)
      omega
    · rw [pieces.full p piece trivial hne (Nat.le_of_not_lt hpart)] at hfeed
      exact (answering_ok hfeed).symm
  have hdone : p.complete [] = (.ok event, p') := by
    rw [pieces.full p piece trivial hne (by show p.wants ≤ _; omega)] at hfeed
    have hfeed : answering p.wants (p.complete (piece.take p.wants)) = _ := hfeed
    rw [hzero, List.take_zero] at hfeed
    exact answering_done hfeed
  unfold inHeader at hempty
  unfold wants at hzero
  unfold TarParser.complete at hdone
  -- such a call leaves the parser at a header, of which nothing is read
  have hheader : p'.state = .readingHeader → p'.headerBuf = [] → p'.idle < p.idle := by
    intro hstate' hbuf'
    have hwants : p'.wants = blockSize := by
      unfold wants
      rw [hstate', hbuf']
      rfl
    have hnone : p'.idle = 0 := by
      unfold idle
      rw [hwants]
      rfl
    have hone : p.idle = 1 := if_pos (by unfold wants; exact hzero)
    omega
  cases hstate : p.state with
  | readingHeader | oneZeroBlock =>
    simp only [hstate] at hzero
    omega
  | skippingData remaining =>
    simp only [hstate] at hdone hempty
    obtain ⟨_, rfl⟩ := Prod.mk.inj hdone
    exact hheader rfl (hempty (by simp))
  | readingPaxData remaining size buf =>
    simp only [hstate] at hdone hempty
    split at hdone
    · next q hparsed =>
      obtain ⟨_, hqbuf, _⟩ := parsePaxData_frame _ hparsed
      obtain ⟨_, rfl⟩ := Prod.mk.inj hdone
      exact hheader rfl (hqbuf.trans (hempty (by simp)))
    · cases hdone
  | readingGnuLong remaining size buf isLink =>
    simp only [hstate] at hdone hempty
    obtain ⟨_, rfl⟩ := Prod.mk.inj hdone
    exact hheader rfl ((keepLong_frame _ _ _).1.trans (hempty (by simp)))
  | ended =>
    simp only [hstate] at hdone
    exact absurd (Except.ok.inj (Prod.mk.inj hdone).1).symm hevent

theorem settles (plain : List Byte) : Settles feed plain new idle 1 where
  incremental := fun _ => pieces.incremental trivial
  most_le := fun p => by
    unfold idle
    split <;> omega
  less := fun hleads hleft hfeed hevent => (fed_stands hleads.fed).idle_less hleft hfeed hevent

/-- However a stream is cut, the entries and the end are the same, and every position is the true one. -/
theorem feeding_independent (plain : List Byte) :
    (∀ cuts cuts', ∃ a b, Sansio.EndsAs (offered feed finish) plain cuts new a ∧
      Sansio.EndsAs (offered feed finish) plain cuts' new b ∧ EndsLike a b) ∧
    ∀ n es p, Fed feed (fun _ _ => True) plain new n es p →
      p.streamPos = n ∧ (∀ e ∈ es, EntryAt plain e) ∧
        ((∀ e ∈ es, e.size < 2 ^ 63) →
          es.Pairwise fun e e' => e.dataOffset + e.size + blockSize ≤ e'.dataOffset) := by
  constructor
  · intro cuts cuts'
    obtain ⟨s, _, _, hends⟩ := (settles plain).ends finish
    obtain ⟨a, ha, hlikea⟩ := hends cuts
    obtain ⟨b, hb, hlikeb⟩ := hends cuts'
    exact ⟨a, b, ha, hb, hlikea.same hlikeb⟩
  · intro n es p hfed
    have hstands := fed_stands hfed
    refine ⟨hstands.position, hstands.entries, fun hsizes => ?_⟩
    refine List.Pairwise.imp_of_mem ?_ hstands.ordered
    intro e e' he he' hends
    have hsize := hsizes e he
    have hafter := (hstands.entries e' he').after
    have hends := hends (by unfold blockSize; omega)
    omega

end TarParser
end Iluvatar
