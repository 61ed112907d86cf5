/-
The end of a tar stream, and the size of an entry rounded up.

The parser takes a stream for complete after a block of zeros, whatever came after that block or
waits for a member, and after an extended header of which it keeps nothing.  And a header's size
leaves room for rounding it up, while the size of an extended header's record that takes its place
need not.
-/
import Iluvatar.Archive.TarLayout

namespace Iluvatar
namespace TarParser

open Tar (blockSize)

variable {plain piece : List Byte} {n k : Nat} {es : List ArchiveEntry} {p p' : TarParser} {event : ArchiveEvent}
  {e : ArchiveEntry}

/-! ## Truncated streams -/

/-- A stream may end before a header, which includes after a block of zeros, where no extended header waits for
its member and no member's data is missing. -/
def EndsWell (plain : List Byte) (n : Nat) : Prop :=
  ∃ y, Laid plain y ∧ y.start = n ∧ y.waits = false ∧ y.stop ≤ n

/-- What is left over without being looked at, unless the parser is in the middle of data: part of a block that
follows zeros; and an extended header that waits or data that is missing, where zeros follow or no attribute
was kept. -/
def LeftOver (plain : List Byte) (n : Nat) (p : TarParser) : Prop :=
  (p.inHeader = true ∨ p.state = .ended) ∧ ∃ y, Laid plain y ∧
    (y.zeros = true ∧ y.start < n ∧ n < y.start + blockSize ∨
      y.start = n ∧ (y.zeros = true ∨ y.kept.pendingMetadata = false) ∧ (y.waits = true ∨ n < y.stop))

/-- Before a header, the end of the stream is taken for its end after zeros, and where nothing is held. -/
theorem endOfStream_ok_iff (hin : p.inHeader = true ∨ p.state = .ended) :
    p.endOfStream = .ok () ↔ p.sawZeros = true ∨ p.headerBuf = [] ∧ p.pendingMetadata = false := by
  unfold inHeader at hin
  unfold endOfStream sawZeros
  cases hstate : p.state with
  | readingHeader => cases hbuf : p.headerBuf <;> cases hpending : p.pendingMetadata <;> simp
  | oneZeroBlock => simp
  | ended => simp
  | skippingData remaining | readingPaxData remaining size buf | readingGnuLong remaining size buf isLink =>
    simp [hstate] at hin

theorem Follows.accepts_iff (h : Follows plain n p) (hstands : StandsAt plain n es p) :
    (p.endOfStream = .ok () → EndsWell plain n) ↔ ¬ LeftOver plain n p := by
  have hshort := hstands.short
  cases h with
  | @block y laid kept zeros state place =>
    rw [endOfStream_ok_iff state, ← attributes_pending, kept, zeros]
    -- no other place is as near to the bytes taken
    have hone : ∀ {y'}, Laid plain y' → y'.start ≤ n → n < y'.start + blockSize → y' = y := by
      intro y' laid' hle hlt
      rcases Nat.le_total y.start y'.start with hbefore | hafter
      · exact laid.same laid' hbefore (by omega)
      · exact (laid'.same laid hafter (by omega)).symm
    have hpos : 0 < blockSize := by decide
    constructor
    · rintro hwell ⟨-, y', laid', ⟨hzeros, hlt, hnear⟩ | ⟨hhere, haccepted, hmissing⟩⟩
      · obtain rfl := hone laid' (Nat.le_of_lt hlt) hnear
        obtain ⟨z, hz, hzn, -, -⟩ := hwell (.inl hzeros)
        obtain rfl := hone hz (Nat.le_of_eq hzn) (by omega)
        omega
      · obtain rfl := hone laid' (Nat.le_of_eq hhere) (by omega)
        have hbuf : p.headerBuf = [] := List.eq_nil_of_length_eq_zero (by omega)
        obtain ⟨z, hz, hzn, hwaits, hstop⟩ := hwell (haccepted.imp_right fun hnone => ⟨hbuf, hnone⟩)
        obtain rfl := hone hz (Nat.le_of_eq hzn) (by omega)
        rcases hmissing with hwaits' | hmore
        · rw [hwaits] at hwaits'
          cases hwaits'
        · omega
    · intro hnone hok
      have hbuf : p.headerBuf = [] := by
        rcases hok with hzeros | ⟨hbuf, -⟩
        · by_contra hheld
          have hlength := List.length_pos_iff.mpr hheld
          exact hnone ⟨state, y, laid, .inl ⟨hzeros, by omega, by omega⟩⟩
        · exact hbuf
      rw [hbuf, List.length_nil, Nat.add_zero] at place
      have haccepted := hok.imp_right And.right
      refine ⟨y, laid, place, ?_, ?_⟩
      · by_contra hwaits
        exact hnone ⟨state, y, laid, .inr ⟨place, haccepted, .inl (by simpa using hwaits)⟩⟩
      · by_contra hmore
        exact hnone ⟨state, y, laid, .inr ⟨place, haccepted, .inr (Nat.lt_of_not_le hmore)⟩⟩
  | @skipping y laid kept zeros state place =>
    refine iff_of_true (fun hok => ?_) ?_
    · rw [endOfStream, state] at hok
      cases hok
    · rintro ⟨hin | hended, -⟩
      · simp [inHeader, state] at hin
      · rw [state] at hended
        cases hended
  | @extended y entry remaining buf laid kept within short nonzero header state place gathered =>
    obtain ⟨hrefused, hgoes⟩ := state.refuses
    refine iff_of_true (fun hok => absurd hok hrefused) ?_
    rintro ⟨hin | hended, -⟩
    · rw [state.inHeader] at hin
      cases hin
    · exact hgoes hended

theorem endOfStream_error {error : Error} (h : p.endOfStream = .error error) :
    ∃ text, error = .truncatedArchive text := by
  unfold endOfStream at h
  split at h
  · split at h
    · split at h
      · exact ⟨_, (Except.error.inj h).symm⟩
      · cases h
    · exact ⟨_, (Except.error.inj h).symm⟩
  · cases h
  · cases h
  · exact ⟨_, (Except.error.inj h).symm⟩
  · exact ⟨_, (Except.error.inj h).symm⟩
  · exact ⟨_, (Except.error.inj h).symm⟩

/-- A stream accepted as complete is so, unless something is left over that is not looked at. -/
theorem endOfStream_accepts_iff (h : Fed feed (fun _ _ => True) plain new n es p) :
    ((p.endOfStream = .ok () → EndsWell plain n) ↔ ¬ LeftOver plain n p) ∧
      ∀ error, p.endOfStream = .error error → ∃ text, error = .truncatedArchive text :=
  ⟨(fed_follows h).accepts_iff (fed_stands h), fun _ => endOfStream_error⟩

/-- A header block of a type, with a size of one byte and the checksum in two. -/
def plainHeader (typeflag size high low : Byte) : List Byte :=
  List.replicate 124 0 ++ [0x80] ++ List.replicate 10 0 ++ [size] ++ List.replicate 12 0 ++
    [0x80, 0, 0, 0, 0, 0, high, low, typeflag] ++ List.replicate 355 0

/-- A block of zeros. -/
def zeroBlock : List Byte := List.replicate blockSize 0

/-- An extended header with no attribute that is kept, its member, and a block of zeros. -/
def memberArchive : List Byte :=
  plainHeader 120 11 2 3 ++ (ascii "11 mtime=1\n" ++ List.replicate 501 0) ++ plainHeader 48 0 1 0xB0 ++ zeroBlock

/-- The whole of it is well accepted, and what there is before the member is not. -/
theorem endOfStream_accepts_iff_member :
    (∃ es p, Fed feed (fun _ _ => True) memberArchive new 2048 es p ∧ p.endOfStream = .ok () ∧
      EndsWell memberArchive 2048 ∧ ¬ LeftOver memberArchive 2048 p) ∧
    ∃ es p, Fed feed (fun _ _ => True) memberArchive new 1024 es p ∧ p.endOfStream = .ok () ∧
      ¬ (p.endOfStream = .ok () → EndsWell memberArchive 1024) ∧ LeftOver memberArchive 1024 p := by
  have hheader : new.feed (memberArchive.take 512) =
      (.ok (512, .needData), { new with state := .readingPaxData 512 11 [], streamPos := 512 }) := by
    decide +kernel
  have hrecord : ({ new with state := .readingPaxData 512 11 [], streamPos := 512 } : TarParser).feed
      ((memberArchive.drop (0 + 512)).take 512) = (.ok (512, .needData), { new with streamPos := 1024 }) := by
    decide +kernel
  have hmember : ({ new with streamPos := 1024 } : TarParser).feed ((memberArchive.drop (0 + 512 + 512)).take 512) =
      (.ok (512, .entry
        { path := "", size := 0, entryType := .regular, mode := 0, uid := 0, gid := 0, mtime := 0
          linkTarget := none, dataOffset := 1536 }), { new with streamPos := 1536 }) := by
    decide +kernel
  have hzeros : ({ new with streamPos := 1536 } : TarParser).feed ((memberArchive.drop (0 + 512 + 512 + 512)).take 512) =
      (.ok (512, .needData), { new with state := .oneZeroBlock, streamPos := 2048 }) := by
    decide +kernel
  have hextended : Fed feed (fun _ _ => True) memberArchive new 1024 [] { new with streamPos := 1024 } :=
    (Fed.start.call (by decide +kernel) (List.take_prefix _ _) trivial hheader).call
      (by decide +kernel) (List.take_prefix _ _) trivial hrecord
  obtain ⟨es, hwhole⟩ : ∃ es, Fed feed (fun _ _ => True) memberArchive new 2048 es
      { new with state := .oneZeroBlock, streamPos := 2048 } :=
    ⟨_, (hextended.call (by decide +kernel) (List.take_prefix _ _) trivial hmember).call
      (by decide +kernel) (List.take_prefix _ _) trivial hzeros⟩
  constructor
  · have hwell : EndsWell memberArchive 2048 := by
      have hlayout : (layout memberArchive 3).map (fun y => (y.start, y.waits, y.stop)) = some (2048, false, 1536) := by
        decide +kernel
      obtain ⟨y, hy, hparts⟩ := Option.map_eq_some_iff.mp hlayout
      simp only [Prod.mk.injEq] at hparts
      exact ⟨y, ⟨3, hy⟩, hparts.1, hparts.2.1, by omega⟩
    exact ⟨_, _, hwhole, rfl, hwell, (endOfStream_accepts_iff hwhole).1.mp fun _ => hwell⟩
  · have hleft : LeftOver memberArchive 1024 { new with streamPos := 1024 } := by
      have hlayout : (layout memberArchive 1).map (fun y => (y.start, y.waits, y.kept.pendingMetadata)) =
          some (1024, true, false) := by
        decide +kernel
      obtain ⟨y, hy, hparts⟩ := Option.map_eq_some_iff.mp hlayout
      simp only [Prod.mk.injEq] at hparts
      exact ⟨.inl rfl, y, ⟨1, hy⟩, .inr ⟨hparts.1, .inr hparts.2.2, .inl hparts.2.1⟩⟩
    exact ⟨_, _, hextended, rfl, fun hwell => (endOfStream_accepts_iff hextended).1.mp hwell hleft, hleft⟩

/-- A block of zeros, and one byte of a header. -/
def zeroBlockCut : List Byte := zeroBlock ++ [0x61]

theorem endOfStream_takes_cut : ∃ es p, Fed feed (fun _ _ => True) zeroBlockCut new zeroBlockCut.length es p ∧
    p.endOfStream = .ok () ∧ ¬ EndsWell zeroBlockCut zeroBlockCut.length := by
  have hfirst : new.feed zeroBlock = (.ok (512, .needData), { new with state := .oneZeroBlock, streamPos := 512 }) := by
    decide +kernel
  have hsecond : ({ new with state := .oneZeroBlock, streamPos := 512 } : TarParser).feed [0x61] =
      (.ok (1, .needData), { new with state := .oneZeroBlock, headerBuf := [0x61], streamPos := 513 }) := by
    decide +kernel
  have hlength : zeroBlockCut.length = 0 + 512 + 1 := by decide +kernel
  have hrest : zeroBlockCut.drop (0 + 512) = [0x61] := by decide +kernel
  rw [hlength]
  refine ⟨_, _, (Fed.start.call (by decide +kernel) ?_ trivial hfirst).call (List.cons_ne_nil _ _) ?_ trivial hsecond,
    rfl, ?_⟩
  · exact List.prefix_append _ _
  · rw [hrest]
  · rintro ⟨y, hlaid, hplace, -, -⟩
    have haligned := hlaid.aligned
    rw [hplace] at haligned
    cases haligned

/-! ## Sizes rounded up -/

/-- A size from an extended header that can be rounded up. -/
def SizeFits (p : TarParser) : Prop := ∀ size, p.paxSize = some size → size ≤ 2 ^ 64 - blockSize

/-- A call reports no entry, or the size pending can be rounded up. -/
def MayReport (p : TarParser) (piece : List Byte) : Prop :=
  ∀ k e p', p.feed piece = (.ok (k, .entry e), p') → SizeFits p

/-- Every size is rounded up as it should be, and the parser goes on with the header that follows the
last entry's data. -/
structure Rounds (n : Nat) (es : List ArchiveEntry) (p : TarParser) : Prop where
  exact : ∀ e ∈ es, Tar.paddedSize e.size = roundUp e.size
  next : ∀ e, es.getLast? = some e → n ≤ e.dataOffset + roundUp e.size →
    n + p.dataLeft = e.dataOffset + roundUp e.size ∧ p.headerBuf = []

theorem paddedSize_exact_iff (size : Nat) : Tar.paddedSize size = roundUp size ↔ size ≤ 2 ^ 64 - blockSize := by
  unfold Tar.paddedSize roundUp blockSize
  omega

/-- A call that reports an entry is the end of its header. -/
theorem StandsAt.reports (h : StandsAt plain n es p) (hne : piece ≠ [])
    (hfeed : p.feed piece = (.ok (k, .entry e), p')) :
    n + k = e.dataOffset ∧ p'.headerBuf = [] ∧ p'.dataLeft = Tar.paddedSize e.size ∧
      (e.size ≤ 2 ^ 64 - blockSize ↔ SizeFits p) := by
  by_cases hshort : piece.length < p.wants
  · rw [pieces.short p piece trivial hne hshort] at hfeed
    cases (Prod.mk.inj (Except.ok.inj (Prod.mk.inj hfeed).1)).2
  · rw [pieces.full p piece trivial hne (Nat.le_of_not_lt hshort)] at hfeed
    have hcount : k = p.wants := answering_ok hfeed
    have hlength : (piece.take p.wants).length = p.wants := by
      rw [List.length_take]
      omega
    have hdone : p.complete (piece.take p.wants) = (.ok (.entry e), p') := answering_done hfeed
    have hheader : ∀ {q : TarParser} {block : List Byte}, q.processHeader block = (.ok (.entry e), p') →
        q.streamPos = n + k → q.headerBuf = [] → q.paxSize = p.paxSize →
        n + k = e.dataOffset ∧ p'.headerBuf = [] ∧ p'.dataLeft = Tar.paddedSize e.size ∧
          (e.size ≤ 2 ^ 64 - blockSize ↔ SizeFits p) := by
      intro q block hprocess hpos hbuf hpax
      obtain ⟨header, hparse, ⟨hevent, _⟩ | ⟨hevent, hskips⟩⟩ := processHeader_cases hprocess
      · cases hevent
      · obtain rfl := ArchiveEvent.entry.inj hevent
        refine ⟨?_, hskips.headerBuf.trans hbuf, hskips.dataLeft, ?_⟩
        · exact hpos.symm.trans (parseHeader_dataOffset hparse).symm
        · have hsize : (toArchiveEntry (q.applyPending header).1).size = p.paxSize.getD header.size := by
            rw [← hpax]
            rfl
          rw [hsize]
          unfold SizeFits
          cases hpending : p.paxSize with
          | none => exact iff_of_true (parseHeader_size hparse) fun size hsize => by cases hsize
          | some size =>
            refine ⟨fun hle size' hsize' => ?_, fun hall => hall size rfl⟩
            obtain rfl := Option.some.inj hsize'
            exact hle
    have hstream : p.streamPos + (piece.take p.wants).length = n + k := by rw [h.position, hlength, hcount]
    unfold TarParser.complete at hdone
    cases hstate : p.state with
    | readingHeader =>
      simp only [hstate] at hdone
      have hdone := lift_ok hdone
      unfold headerComplete at hdone
      split at hdone
      · cases Except.ok.inj (Prod.mk.inj hdone).1
      · exact hheader hdone hstream rfl rfl
    | oneZeroBlock =>
      simp only [hstate] at hdone
      have hdone := lift_ok hdone
      unfold secondComplete at hdone
      split at hdone
      · cases Except.ok.inj (Prod.mk.inj hdone).1
      · exact hheader hdone hstream rfl rfl
    | readingPaxData remaining size buf =>
      simp only [hstate] at hdone
      split at hdone <;> cases (Prod.mk.inj hdone).1
    | skippingData remaining | readingGnuLong remaining size buf isLink | ended =>
      simp only [hstate] at hdone
      cases (Prod.mk.inj hdone).1

/-- A call takes bytes of a header, or data that is skipped. -/
theorem StandsAt.moves (h : StandsAt plain n es p) (hne : piece ≠ [])
    (hfeed : p.feed piece = (.ok (k, event), p')) :
    (p.inHeader = true ∧ 0 < k) ∨ (k ≤ p.dataLeft ∧ p'.dataLeft = p.dataLeft - k ∧ p'.headerBuf = p.headerBuf) := by
  have hshortBuf := h.short
  have hpositive := List.length_pos_iff.mpr hne
  by_cases hshort : piece.length < p.wants
  · rw [pieces.short p piece trivial hne hshort] at hfeed
    obtain ⟨hanswer, rfl⟩ := Prod.mk.inj hfeed
    obtain ⟨rfl, _⟩ := Prod.mk.inj (Except.ok.inj hanswer)
    show _ ∨ (_ ∧ (p.absorb piece).dataLeft = _ ∧ (p.absorb piece).headerBuf = _)
    unfold wants at hshort
    unfold inHeader dataLeft TarParser.absorb
    cases hstate : p.state with
    | readingHeader | oneZeroBlock => exact .inl ⟨by simp, hpositive⟩
    | skippingData remaining =>
      simp only [hstate] at hshort ⊢
      exact .inr ⟨Nat.le_of_lt hshort, trivial, trivial⟩
    | readingPaxData remaining size buf =>
      simp only [hstate] at hshort ⊢
      exact .inr ⟨Nat.le_of_lt hshort, trivial, trivial⟩
    | readingGnuLong remaining size buf isLink =>
      simp only [hstate] at hshort ⊢
      exact .inr ⟨Nat.le_of_lt hshort, trivial, trivial⟩
    | ended =>
      simp only [hstate] at hshort
      exact absurd hshort (Nat.not_lt_zero _)
  · rw [pieces.full p piece trivial hne (Nat.le_of_not_lt hshort)] at hfeed
    have hcount : k = p.wants := answering_ok hfeed
    have hdone : p.complete (piece.take p.wants) = (.ok event, p') := answering_done hfeed
    subst hcount
    unfold TarParser.complete at hdone
    unfold wants
    cases hstate : p.state with
    | readingHeader | oneZeroBlock =>
      left
      refine ⟨by simp [inHeader, hstate], ?_⟩
      simp only
      omega
    | skippingData remaining =>
      simp only [hstate] at hdone ⊢
      obtain ⟨_, rfl⟩ := Prod.mk.inj hdone
      exact .inr ⟨by simp [dataLeft, hstate], by simp [dataLeft, hstate], rfl⟩
    | readingPaxData remaining size buf =>
      simp only [hstate] at hdone ⊢
      split at hdone
      · next q hparsed =>
        obtain ⟨_, hbuf, _⟩ := parsePaxData_frame _ hparsed
        obtain ⟨_, rfl⟩ := Prod.mk.inj hdone
        exact .inr ⟨by simp [dataLeft, hstate], by simp [dataLeft, hstate], hbuf⟩
      · cases (Prod.mk.inj hdone).1
    | readingGnuLong remaining size buf isLink =>
      simp only [hstate] at hdone ⊢
      obtain ⟨_, rfl⟩ := Prod.mk.inj hdone
      exact .inr ⟨by simp [dataLeft, hstate], by simp [dataLeft, hstate], (keepLong_frame _ _ _).1⟩
    | ended =>
      simp only [hstate] at hdone ⊢
      obtain ⟨_, rfl⟩ := Prod.mk.inj hdone
      exact .inr ⟨Nat.zero_le _, by simp, rfl⟩

/-- The sizes stay rounded over a call that reports nothing. -/
theorem Rounds.quiet (hrounds : Rounds n es p) (h : StandsAt plain n es p) (hne : piece ≠ [])
    (hfeed : p.feed piece = (.ok (k, event), p')) : Rounds (n + k) es p' where
  exact := hrounds.exact
  next := by
    intro e hlast hle
    obtain ⟨hnext, hbuf⟩ := hrounds.next e hlast (by omega)
    rcases h.moves hne hfeed with ⟨hin, hpositive⟩ | ⟨hpart, hleft, hsame⟩
    · have hnone : p.dataLeft = 0 := by
        unfold inHeader at hin
        unfold dataLeft
        cases hstate : p.state <;> simp_all
      omega
    · exact ⟨by omega, hsame.trans hbuf⟩

/-- They stay so over a call that reports an entry exactly when its size can be rounded up. -/
theorem Rounds.reports_iff (hrounds : Rounds n es p) (h : StandsAt plain n es p) (hne : piece ≠ [])
    (hfeed : p.feed piece = (.ok (k, .entry e), p')) : Rounds (n + k) (es ++ [e]) p' ↔ SizeFits p := by
  obtain ⟨hoffset, hbuf, hleft, hfits⟩ := h.reports hne hfeed
  rw [← hfits]
  constructor
  · intro hafter
    exact (paddedSize_exact_iff e.size).mp (hafter.exact e (by simp))
  · intro hsize
    have hexact := (paddedSize_exact_iff e.size).mpr hsize
    constructor
    · intro e' he'
      rcases List.mem_append.mp he' with hold | hnew
      · exact hrounds.exact e' hold
      · rw [List.mem_singleton.mp hnew]
        exact hexact
    · intro e' hlast _
      rw [List.getLast?_concat] at hlast
      obtain rfl := Option.some.inj hlast
      exact ⟨by rw [hleft, hexact, hoffset], hbuf⟩

theorem fed_rounds (h : Fed feed MayReport plain new n es p) : Rounds n es p := by
  refine (h.invariant (I := fun n es p => StandsAt plain n es p ∧ Rounds n es p)
    ⟨new_stands plain, by simp, by simp⟩ ?_).2
  rintro taken k entries p p' piece event ⟨hstands, hrounds⟩ hne hbegins hmay hfeed
  refine ⟨hstands.call hne hbegins hfeed, ?_⟩
  cases event with
  | entry e => exact (hrounds.reports_iff hstands hne hfeed).mpr (hmay k e p' hfeed)
  | needData =>
    rw [ArchiveEvent.entries_needData, List.append_nil]
    exact hrounds.quiet hstands hne hfeed
  | endOfArchive =>
    rw [ArchiveEvent.entries_endOfArchive, List.append_nil]
    exact hrounds.quiet hstands hne hfeed

/-- In a feeding without a pending size too large to be rounded up, every size is rounded up exactly
and the next header is the true one; and the first entry with such a size is not. -/
theorem sizes_rounded_iff (plain : List Byte) :
    (∀ n es p, Fed feed MayReport plain new n es p → Rounds n es p) ∧
    ∀ n es p piece k e p', Fed feed MayReport plain new n es p → piece ≠ [] → piece <+: plain.drop n →
      p.feed piece = (.ok (k, .entry e), p') → (Rounds (n + k) (es ++ [e]) p' ↔ SizeFits p) :=
  ⟨fun _ _ _ h => fed_rounds h, fun _ _ _ _ _ _ _ h hne _ hfeed =>
    (fed_rounds h).reports_iff (fed_stands h) hne hfeed⟩

/-- An extended header with the largest size there is, and its member. -/
def hugeSizeRecord : List Byte := ascii "29 size=18446744073709551615\n" ++ List.replicate 483 0

def hugeSizeArchive : List Byte := plainHeader 120 29 2 0x15 ++ hugeSizeRecord ++ plainHeader 48 0 1 0xB0

theorem hugeSize_not_rounded : ∃ es p, Fed feed (fun _ _ => True) hugeSizeArchive new 1536 es p ∧
    p.state = .readingHeader ∧ ¬ Rounds 1536 es p := by
  have hheader : new.feed (plainHeader 120 29 2 0x15) =
      (.ok (512, .needData), { new with state := .readingPaxData 512 29 [], streamPos := 512 }) := by
    decide +kernel
  have hrecord : ({ new with state := .readingPaxData 512 29 [], streamPos := 512 } : TarParser).feed hugeSizeRecord =
      (.ok (512, .needData), { new with streamPos := 1024, paxSize := some (2 ^ 64 - 1) }) := by
    decide +kernel
  have hmember :
      ({ new with streamPos := 1024, paxSize := some (2 ^ 64 - 1) } : TarParser).feed (plainHeader 48 0 1 0xB0) =
      (.ok (512, .entry
        { path := "", size := 2 ^ 64 - 1, entryType := .regular, mode := 0, uid := 0, gid := 0, mtime := 0
          linkTarget := none, dataOffset := 1536 }), { new with streamPos := 1536 }) := by
    decide +kernel
  have hafter : hugeSizeArchive.drop (0 + 512) = hugeSizeRecord ++ plainHeader 48 0 1 0xB0 := by decide +kernel
  have hlast : hugeSizeArchive.drop (0 + 512 + 512) = plainHeader 48 0 1 0xB0 := by decide +kernel
  refine ⟨_, _, ((Fed.start.call (by decide +kernel) ?_ trivial hheader).call (by decide +kernel) ?_ trivial
    hrecord).call (by decide +kernel) ?_ trivial hmember, rfl, ?_⟩
  · exact ⟨hugeSizeRecord ++ plainHeader 48 0 1 0xB0, by decide +kernel⟩
  · rw [hafter]
    exact List.prefix_append _ _
  · rw [hlast]
  · intro hrounds
    have hexact := hrounds.exact _ (List.mem_append_right _ List.mem_cons_self)
    revert hexact
    decide

end TarParser
end Iluvatar
