/-
The headers of a tar stream, read off its bytes.

From the place of one header the next follows, and with it what extended headers have left for a
member.  However a stream is cut, the parser is at such a place, in the block that begins there or in
data that ends there.
-/
import Iluvatar.Archive.TarRuns

namespace Iluvatar
namespace TarParser

open Tar (blockSize)

/-- The attributes pending, without the rest of the parser. -/
def attributes (p : TarParser) : TarParser := { p with state := .readingHeader, headerBuf := [], streamPos := 0 }

/-- Before a header block: where it begins, whether a block of zeros is what ends there, whether an extended
header was read since the last member, the attributes it left, and where the data of the members ends. -/
structure Layout where
  start : Nat
  zeros : Bool
  waits : Bool
  kept : TarParser
  stop : Nat

/-- The block of the stream that begins at `start`. -/
def blockAt (plain : List Byte) (start : Nat) : List Byte := (plain.drop start).take blockSize

/-- The place after the block there and its data. -/
def layOut (plain : List Byte) (y : Layout) : Option Layout :=
  let after := y.start + blockSize
  if plain.length < after then none
  else if Tar.isZeroBlock (blockAt plain y.start) = true then some { y with start := after, zeros := true }
  else
    match Tar.parseHeader (blockAt plain y.start) after with
    | .error _ => none
    | .ok entry =>
      let y := { y with start := after + Tar.paddedSize entry.size, zeros := false }
      match entry.entryType with
      | .paxExtended =>
        let records := (plain.drop after).take entry.size
        (parsePaxData records.length y.kept 0 records).map fun kept => { y with waits := true, kept }
      | .paxGlobal => some y
      | .gnuLongName => some { y with waits := true, kept := y.kept.keepLong false ((plain.drop after).take entry.size) }
      | .gnuLongLink => some { y with waits := true, kept := y.kept.keepLong true ((plain.drop after).take entry.size) }
      | _ =>
        let size := y.kept.paxSize.getD entry.size
        some
          { y with
            start := after + Tar.paddedSize size
            waits := false
            kept := (y.kept.applyPending entry).2
            stop := max y.stop (after + size) }

/-- The places of a stream, one after another. -/
def layout (plain : List Byte) : Nat → Option Layout
  | 0 => some { start := 0, zeros := false, waits := false, kept := new, stop := 0 }
  | k + 1 => (layout plain k).bind (layOut plain)

/-- A place of the stream. -/
def Laid (plain : List Byte) (y : Layout) : Prop := ∃ k, layout plain k = some y

variable {plain piece : List Byte} {n : Nat} {es : List ArchiveEntry} {p p' : TarParser} {event : ArchiveEvent}
  {y y' : Layout}

theorem Laid.next (h : Laid plain y) (hnext : layOut plain y = some y') : Laid plain y' := by
  obtain ⟨k, hk⟩ := h
  exact ⟨k + 1, by rw [layout, hk, Option.bind_some, hnext]⟩

/-- The next header is a whole number of blocks further on. -/
theorem layOut_start (h : layOut plain y = some y') :
    y.start + blockSize ≤ y'.start ∧ (y'.start - (y.start + blockSize)) % blockSize = 0 := by
  have hpadded : ∀ size, y.start + blockSize ≤ y.start + blockSize + Tar.paddedSize size ∧
      (y.start + blockSize + Tar.paddedSize size - (y.start + blockSize)) % blockSize = 0 := by
    intro size
    rw [Nat.add_sub_cancel_left]
    exact ⟨Nat.le_add_right _ _, paddedSize_mod size⟩
  unfold layOut at h
  simp only at h
  split at h
  · cases h
  · split at h
    · obtain rfl := Option.some.inj h
      exact ⟨Nat.le_refl _, by rw [Nat.sub_self]; rfl⟩
    · split at h
      · cases h
      · split at h
        · obtain ⟨kept, _, rfl⟩ := Option.map_eq_some_iff.mp h
          exact hpadded _
        all_goals
          obtain rfl := Option.some.inj h
          exact hpadded _

theorem layout_le {j : Nat} (hj : layout plain j = some y) :
    ∀ (k : Nat) {y' : Layout}, layout plain (j + k) = some y' → y.start + k * blockSize ≤ y'.start := by
  intro k
  induction k with
  | zero =>
    intro y' hk
    obtain rfl := Option.some.inj (hj.symm.trans hk)
    rw [Nat.zero_mul]
    exact Nat.le_refl _
  | succ k ih =>
    intro y' hk
    obtain ⟨mid, hmid, hnext⟩ := Option.bind_eq_some_iff.mp hk
    have hbefore := ih hmid
    have hstep := (layOut_start hnext).1
    rw [Nat.succ_mul]
    omega

/-- There is no other place inside the block that begins at one. -/
theorem Laid.same (h : Laid plain y) (h' : Laid plain y') (hle : y.start ≤ y'.start)
    (hlt : y'.start < y.start + blockSize) : y' = y := by
  obtain ⟨j, hj⟩ := h
  obtain ⟨k, hk⟩ := h'
  rcases Nat.lt_trichotomy j k with hbefore | rfl | hafter
  · obtain ⟨m, rfl⟩ : ∃ m, k = j + (m + 1) := ⟨k - j - 1, by omega⟩
    have hfar := layout_le hj (m + 1) hk
    rw [Nat.succ_mul] at hfar
    omega
  · exact Option.some.inj (hk.symm.trans hj)
  · obtain ⟨m, rfl⟩ : ∃ m, j = k + (m + 1) := ⟨j - k - 1, by omega⟩
    have hfar := layout_le hk (m + 1) hj
    have hpos : 0 < blockSize := by decide
    rw [Nat.succ_mul] at hfar
    omega

theorem Laid.aligned (h : Laid plain y) : y.start % blockSize = 0 := by
  obtain ⟨k, hk⟩ := h
  induction k generalizing y with
  | zero =>
    obtain rfl := Option.some.inj hk
    rfl
  | succ k ih =>
    obtain ⟨before, hbefore, hnext⟩ := Option.bind_eq_some_iff.mp hk
    have haligned := ih hbefore
    obtain ⟨hle, hmod⟩ := layOut_start hnext
    unfold blockSize at *
    omega

/-! ## Attributes -/

@[simp] theorem attributes_pending (p : TarParser) : p.attributes.pendingMetadata = p.pendingMetadata := rfl

theorem attributes_paxRecord (p : TarParser) (record : List Byte) :
    (p.paxRecord record).attributes = p.attributes.paxRecord record := by
  unfold paxRecord
  simp only
  repeat' split
  all_goals rfl

/-- An extended header's records make of the attributes what they make of the parser's. -/
theorem attributes_parsePaxData : ∀ (fuel : Nat) (p : TarParser) (pos : Nat) (data : List Byte),
    (parsePaxData fuel p pos data).map attributes = parsePaxData fuel p.attributes pos data := by
  intro fuel
  induction fuel with
  | zero => intro p pos data; rfl
  | succ fuel ih =>
    intro p pos data
    unfold parsePaxData
    simp only
    split
    · split
      · rfl
      · split
        · rfl
        · split
          · rfl
          · split
            · rfl
            · rw [ih, attributes_paxRecord]
    · rfl

/-! ## Where the parser is -/

/-- The kind of header that has a long name, or a long link. -/
def longKind (isLink : Bool) : TarEntryType := if isLink then .gnuLongLink else .gnuLongName

/-- The data of an extended header is being gathered, `remaining` bytes of it and of what it is padded with
still to come. -/
def Gathers (p : TarParser) (entry : TarEntry) (remaining : Nat) (buf : List Byte) : Prop :=
  entry.entryType = .paxExtended ∧ p.state = .readingPaxData remaining entry.size buf ∨
    ∃ isLink, entry.entryType = longKind isLink ∧ p.state = .readingGnuLong remaining entry.size buf isLink

/-- What an extended header's data makes of the attributes. -/
def Makes (entry : TarEntry) (kept : TarParser) (data : List Byte) (after : TarParser) : Prop :=
  entry.entryType = .paxExtended ∧ parsePaxData data.length kept 0 data = some after ∨
    ∃ isLink, entry.entryType = longKind isLink ∧ after = kept.keepLong isLink data

/-- The parser, with `n` bytes of the stream taken: in the block that begins at a place, in data that ends at
one, or in the records of an extended header. -/
inductive Follows (plain : List Byte) (n : Nat) (p : TarParser) : Prop
  | block {y : Layout} (laid : Laid plain y) (kept : p.attributes = y.kept) (zeros : p.sawZeros = y.zeros)
      (state : p.inHeader = true ∨ p.state = .ended) (place : y.start + p.headerBuf.length = n)
  | skipping {y : Layout} (laid : Laid plain y) (kept : p.attributes = y.kept) (zeros : y.zeros = false)
      (state : p.state = .skippingData (y.start - n)) (place : n ≤ y.start)
  | extended {y : Layout} {entry : TarEntry} {remaining : Nat} {buf : List Byte} (laid : Laid plain y)
      (kept : p.attributes = y.kept) (within : y.start + blockSize ≤ n) (short : n ≤ plain.length)
      (nonzero : Tar.isZeroBlock (blockAt plain y.start) = false)
      (header : Tar.parseHeader (blockAt plain y.start) (y.start + blockSize) = .ok entry)
      (state : p.Gathers entry remaining buf)
      (place : n + remaining = y.start + blockSize + Tar.paddedSize entry.size)
      (gathered : buf = ((plain.drop (y.start + blockSize)).take (n - (y.start + blockSize))).take entry.size)

namespace Gathers

variable {entry : TarEntry} {remaining : Nat} {buf : List Byte}

theorem inHeader (h : p.Gathers entry remaining buf) : p.inHeader = false := by
  rcases h with ⟨-, hstate⟩ | ⟨isLink, -, hstate⟩ <;> simp [TarParser.inHeader, hstate]

theorem wants (h : p.Gathers entry remaining buf) : p.wants = remaining := by
  rcases h with ⟨-, hstate⟩ | ⟨isLink, -, hstate⟩ <;> rw [TarParser.wants, hstate]

/-- The end of the stream is not accepted in the middle of the data. -/
theorem refuses (h : p.Gathers entry remaining buf) : p.endOfStream ≠ .ok () ∧ p.state ≠ .ended := by
  rcases h with ⟨-, hstate⟩ | ⟨isLink, -, hstate⟩ <;> simp [endOfStream, hstate]

theorem absorb (h : p.Gathers entry remaining buf) (piece : List Byte) :
    (p.absorb piece).Gathers entry (remaining - piece.length) (gather entry.size buf piece) ∧
      (p.absorb piece).attributes = p.attributes := by
  unfold TarParser.absorb
  rcases h with ⟨htype, hstate⟩ | ⟨isLink, htype, hstate⟩
  · rw [hstate]
    exact ⟨.inl ⟨htype, rfl⟩, rfl⟩
  · rw [hstate]
    exact ⟨.inr ⟨isLink, htype, rfl⟩, rfl⟩

/-- Once it is there, its attributes are kept and a header is awaited. -/
theorem complete (h : p.Gathers entry remaining buf) (hdone : p.complete piece = (.ok event, p')) :
    p'.state = .readingHeader ∧ p'.headerBuf = p.headerBuf ∧
      Makes entry p.attributes (gather entry.size buf piece) p'.attributes := by
  unfold TarParser.complete at hdone
  rcases h with ⟨htype, hstate⟩ | ⟨isLink, htype, hstate⟩
  · simp only [hstate] at hdone
    have hsame := attributes_parsePaxData (gather entry.size buf piece).length
      { p with
        state := .readingPaxData 0 entry.size (gather entry.size buf piece)
        streamPos := p.streamPos + piece.length } 0 (gather entry.size buf piece)
    split at hdone
    · next q hparsed =>
      obtain ⟨-, hqbuf, -⟩ := parsePaxData_frame _ hparsed
      obtain ⟨-, rfl⟩ := Prod.mk.inj hdone
      rw [hparsed] at hsame
      exact ⟨rfl, hqbuf, .inl ⟨htype, hsame.symm⟩⟩
    · cases (Prod.mk.inj hdone).1
  · simp only [hstate] at hdone
    obtain ⟨-, rfl⟩ := Prod.mk.inj hdone
    cases isLink with
    | false => exact ⟨rfl, rfl, .inr ⟨false, htype, rfl⟩⟩
    | true => exact ⟨rfl, rfl, .inr ⟨true, htype, rfl⟩⟩

end Gathers

/-- A member's header was read: what was pending is applied, and its data is passed over. -/
theorem Laid.member {entry : TarEntry} {size : Nat} (hsize : size = y.kept.paxSize.getD entry.size)
    (hlaid : Laid plain { y with
      start := n + Tar.paddedSize size, zeros := false, waits := false, kept := (y.kept.applyPending entry).2
      stop := max y.stop (n + size) })
    (hkept : p.attributes = y.kept) (hbuf : p.headerBuf = [])
    (hp : p' = { (p.applyPending entry).2 with
      state := if 0 < Tar.paddedSize (p.applyPending entry).1.size then
        .skippingData (Tar.paddedSize (p.applyPending entry).1.size) else .readingHeader }) :
    Follows plain n p' := by
  have hentry : (p.applyPending entry).1.size = size := by
    rw [hsize, ← hkept]
    rfl
  have happlied : (p.applyPending entry).2.attributes = (y.kept.applyPending entry).2 := by
    rw [← hkept]
    rfl
  rw [hentry] at hp
  subst hp
  by_cases hpad : 0 < Tar.paddedSize size
  · refine .skipping hlaid happlied rfl ?_ (Nat.le_add_right _ _)
    show ite _ _ _ = _
    rw [if_pos hpad]
    simp only
    rw [Nat.add_sub_cancel_left]
  · refine .block hlaid happlied ?_ ?_ ?_
    · simp only [sawZeros, if_neg hpad]
      rfl
    · left
      simp only [inHeader, if_neg hpad]
      rfl
    · show n + Tar.paddedSize size + p.headerBuf.length = _
      rw [hbuf, List.length_nil]
      omega

/-- A header that was read, which no zeros stand for. -/
theorem Laid.header (h : Laid plain y) (hkept : p.attributes = y.kept) (hpos : p.streamPos = y.start + blockSize)
    (hbuf : p.headerBuf = []) (hwithin : y.start + blockSize ≤ plain.length)
    (hnonzero : Tar.isZeroBlock (blockAt plain y.start) = false)
    (hdone : p.processHeader (blockAt plain y.start) = (.ok event, p')) :
    Follows plain (y.start + blockSize) p' := by
  unfold processHeader at hdone
  rw [hpos] at hdone
  cases hparse : Tar.parseHeader (blockAt plain y.start) (y.start + blockSize) with
  | error e =>
    rw [hparse] at hdone
    cases (Prod.mk.inj hdone).1
  | ok entry =>
    rw [hparse] at hdone
    simp only at hdone
    have hnext : ∀ {y'}, layOut plain y = some y' → Laid plain y' := h.next
    unfold layOut at hnext
    simp only at hnext
    rw [if_neg (by omega), if_neg (by rw [hnonzero]; exact Bool.false_ne_true), hparse] at hnext
    simp only at hnext
    -- of an extended header's data nothing is read yet
    have hextended : ∀ {q : TarParser}, q.attributes = p.attributes →
        q.Gathers entry (Tar.paddedSize entry.size) [] → Follows plain (y.start + blockSize) q := by
      intro q hq hstate
      refine .extended h (hq.trans hkept) (Nat.le_refl _) hwithin hnonzero hparse hstate rfl ?_
      rw [Nat.sub_self, List.take_zero, List.take_nil]
    split at hdone
    · cases (Prod.mk.inj hdone).1
    · cases htype : entry.entryType with
      | paxExtended =>
        rw [htype] at hdone
        obtain ⟨-, rfl⟩ := Prod.mk.inj hdone
        exact hextended rfl (.inl ⟨htype, rfl⟩)
      | gnuLongName =>
        rw [htype] at hdone
        obtain ⟨-, rfl⟩ := Prod.mk.inj hdone
        exact hextended rfl (.inr ⟨false, htype, rfl⟩)
      | gnuLongLink =>
        rw [htype] at hdone
        obtain ⟨-, rfl⟩ := Prod.mk.inj hdone
        exact hextended rfl (.inr ⟨true, htype, rfl⟩)
      | paxGlobal =>
        rw [htype] at hdone hnext
        obtain ⟨-, rfl⟩ := Prod.mk.inj hdone
        refine .skipping (hnext rfl) hkept rfl ?_ (Nat.le_add_right _ _)
        simp only
        rw [Nat.add_sub_cancel_left]
      | regular | hardLink | symLink | charDevice | blockDevice | directory | fifo =>
        rw [htype] at hdone hnext
        exact Laid.member rfl (hnext rfl) hkept hbuf (Prod.mk.inj hdone).2.symm
      | other code =>
        rw [htype] at hdone hnext
        exact Laid.member rfl (hnext rfl) hkept hbuf (Prod.mk.inj hdone).2.symm

/-- What is gathered of the data is the front of it. -/
theorem gather_front {start taken size : Nat} (htaken : start + taken ≤ plain.length)
    (hbegins : piece <+: plain.drop (start + taken)) :
    gather size (((plain.drop start).take taken).take size) piece =
      ((plain.drop start).take (taken + piece.length)).take size := by
  have hmore : (plain.drop start).take (taken + piece.length) = (plain.drop start).take taken ++ piece := by
    rw [List.take_add, List.drop_drop, ← List.prefix_iff_eq_take.mp hbegins]
  have hlength : ((plain.drop start).take taken).length = taken := by
    rw [List.length_take, List.length_drop]
    omega
  rw [hmore, List.take_append, hlength, gather, List.length_take, hlength,
    show size - min size taken = size - taken by omega]

theorem StandsAt.fits (h : StandsAt plain n es p) (hbegins : piece <+: plain.drop n) : n + piece.length ≤ plain.length := by
  have hle := hbegins.length_le
  have hwithin := h.within
  rw [List.length_drop] at hle
  omega

theorem Follows.absorb (h : Follows plain n p) (hstands : StandsAt plain n es p) (hbegins : piece <+: plain.drop n)
    (hshort : piece.length < p.wants) : Follows plain (n + piece.length) (p.absorb piece) := by
  have hfits := hstands.fits hbegins
  cases h with
  | @block y laid kept zeros state place =>
    unfold sawZeros at zeros
    unfold wants at hshort
    unfold TarParser.absorb
    cases hstate : p.state with
    | readingHeader | oneZeroBlock =>
      refine .block laid kept ?_ (.inl (by simp [inHeader])) ?_
      · rw [← zeros, hstate]
        rfl
      · show y.start + (p.headerBuf ++ piece).length = _
        rw [List.length_append]
        omega
    | ended => simp only [hstate, Nat.not_lt_zero] at hshort
    | skippingData remaining | readingPaxData remaining size buf | readingGnuLong remaining size buf isLink =>
      simp [inHeader, hstate] at state
  | @skipping y laid kept zeros state place =>
    unfold wants at hshort
    unfold TarParser.absorb
    simp only [state] at hshort ⊢
    refine .skipping laid kept zeros ?_ (by omega)
    show TarState.skippingData _ = .skippingData _
    congr 1
    omega
  | @extended y entry remaining buf laid kept within short nonzero header state place gathered =>
    have hmore : gather entry.size buf piece =
        ((plain.drop (y.start + blockSize)).take (n + piece.length - (y.start + blockSize))).take entry.size := by
      rw [gathered, gather_front (by omega) (by rwa [Nat.add_sub_cancel' within]),
        show n - (y.start + blockSize) + piece.length = n + piece.length - (y.start + blockSize) by omega]
    obtain ⟨hgathers, hattributes⟩ := state.absorb piece
    rw [state.wants] at hshort
    exact .extended laid (hattributes.trans kept) (by omega) hfits nonzero header hgathers (by omega) hmore

/-- With the rest of a block taken. -/
theorem Laid.block (event : ArchiveEvent) (h : Laid plain y) (hkept : p.attributes = y.kept) (hin : p.inHeader = true)
    (hplace : y.start + p.headerBuf.length = n) (hstands : StandsAt plain n es p) (hbegins : piece <+: plain.drop n)
    (hfull : piece.length = blockSize - p.headerBuf.length) {q : TarParser}
    (hq : q = { p with headerBuf := [], streamPos := p.streamPos + piece.length })
    (hzero : Tar.isZeroBlock (p.headerBuf ++ piece) = true →
      p' = { q with state := .oneZeroBlock } ∨ p' = { q with state := .ended })
    (hheader : Tar.isZeroBlock (p.headerBuf ++ piece) = false →
      q.processHeader (p.headerBuf ++ piece) = (.ok event, p')) :
    Follows plain (n + piece.length) p' := by
  have hfits := hstands.fits hbegins
  have hshort := hstands.short
  have hblock := (hstands.block hin hbegins hfull).2.2.2
  have hafter : n + piece.length = y.start + blockSize := by omega
  have hthis : blockAt plain y.start = p.headerBuf ++ piece := by
    rw [← hblock, blockBefore, hafter, Nat.add_sub_cancel]
    rfl
  rw [hafter]
  cases hkind : Tar.isZeroBlock (p.headerBuf ++ piece) with
  | true =>
    have hnext : layOut plain y = some { y with start := y.start + blockSize, zeros := true } := by
      unfold layOut
      simp only
      rw [if_neg (by omega), if_pos (by rw [hthis]; exact hkind)]
    subst hq
    rcases hzero hkind with rfl | rfl
    · exact .block (h.next hnext) hkept rfl (.inl rfl) (Nat.add_zero _)
    · exact .block (h.next hnext) hkept rfl (.inr rfl) (Nat.add_zero _)
  | false =>
    have hdone := hheader hkind
    rw [← hthis] at hdone hkind
    have hkept' : q.attributes = y.kept := by rw [hq, ← hkept]; rfl
    refine h.header hkept' ?_ (by rw [hq]) (by omega) hkind hdone
    rw [hq, ← hafter, ← hstands.position]

/-- With the rest of an extended header's data taken. -/
theorem Laid.extended {entry : TarEntry} (h : Laid plain y) (hwithin : y.start + blockSize ≤ plain.length)
    (hnonzero : Tar.isZeroBlock (blockAt plain y.start) = false)
    (hheader : Tar.parseHeader (blockAt plain y.start) (y.start + blockSize) = .ok entry)
    (hplace : n = y.start + blockSize + Tar.paddedSize entry.size) {kept : TarParser}
    (hkept : Makes entry y.kept ((plain.drop (y.start + blockSize)).take entry.size) kept) :
    Laid plain { y with start := n, zeros := false, waits := true, kept } := by
  refine h.next ?_
  unfold layOut
  simp only
  rw [if_neg (by omega), if_neg (by rw [hnonzero]; exact Bool.false_ne_true), hheader, hplace]
  simp only
  rcases hkept with ⟨htype, hparsed⟩ | ⟨isLink, htype, rfl⟩
  · simp only [htype, hparsed, Option.map_some]
  · cases isLink <;> simp only [htype, longKind, if_true, Bool.false_eq_true, if_false]

theorem Follows.complete (h : Follows plain n p) (hstands : StandsAt plain n es p) (hbegins : piece <+: plain.drop n)
    (hfull : piece.length = p.wants) (hdone : p.complete piece = (.ok event, p')) :
    Follows plain (n + piece.length) p' := by
  have hfits := hstands.fits hbegins
  have hempty := hstands.empty
  cases h with
  | @block y laid kept zeros state place =>
    unfold wants at hfull
    unfold TarParser.complete at hdone
    cases hstate : p.state with
    | readingHeader =>
      simp only [hstate] at hfull hdone
      have hdone := lift_ok hdone
      refine laid.block event kept (by simp [inHeader, hstate]) place hstands hbegins hfull
        rfl (fun hkind => ?_) fun hkind => ?_
      · rw [headerComplete, if_pos hkind] at hdone
        exact .inl (Prod.mk.inj hdone).2.symm
      · rw [headerComplete, if_neg (by rw [hkind]; exact Bool.false_ne_true)] at hdone
        rw [hstate]
        exact hdone
    | oneZeroBlock =>
      simp only [hstate] at hfull hdone
      have hdone := lift_ok hdone
      refine laid.block event kept (by simp [inHeader, hstate]) place hstands hbegins hfull
        rfl (fun hkind => ?_) fun hkind => ?_
      · rw [secondComplete, if_pos hkind] at hdone
        exact .inr (Prod.mk.inj hdone).2.symm
      · rw [secondComplete, if_neg (by rw [hkind]; exact Bool.false_ne_true)] at hdone
        rw [hstate]
        exact hdone
    | ended =>
      simp only [hstate] at hfull hdone
      obtain ⟨-, rfl⟩ := Prod.mk.inj hdone
      rw [hfull]
      exact .block laid kept zeros state place
    | skippingData remaining | readingPaxData remaining size buf | readingGnuLong remaining size buf isLink =>
      simp [inHeader, hstate] at state
  | @skipping y laid kept zeros state place =>
    unfold wants at hfull
    unfold TarParser.complete at hdone
    simp only [state] at hfull hdone
    have hbuf := hempty (by simp [inHeader, state])
    obtain ⟨-, rfl⟩ := Prod.mk.inj hdone
    refine .block laid kept zeros.symm (.inl rfl) ?_
    show y.start + p.headerBuf.length = _
    rw [hbuf, List.length_nil]
    omega
  | @extended y entry remaining buf laid kept within short nonzero header state place gathered =>
    have hpadded := size_le_paddedSize (parseHeader_size header)
    obtain rfl : piece.length = remaining := hfull.trans state.wants
    obtain ⟨hstate, hsame, hmakes⟩ := state.complete hdone
    -- what is gathered is the data of the header
    have hall : gather entry.size buf piece = (plain.drop (y.start + blockSize)).take entry.size := by
      rw [gathered, gather_front (by omega) (by rwa [Nat.add_sub_cancel' within]), List.take_take]
      congr 1
      omega
    rw [hall, kept] at hmakes
    refine .block (laid.extended (by omega) nonzero header (by omega) hmakes) rfl ?_ (.inl ?_) ?_
    · simp [sawZeros, hstate]
    · simp [inHeader, hstate]
    · rw [hsame, hempty state.inHeader]
      rfl

/-- One call keeps to the layout. -/
theorem Follows.call {k : Nat} (h : Follows plain n p) (hstands : StandsAt plain n es p) (hne : piece ≠ [])
    (hbegins : piece <+: plain.drop n) (hfeed : p.feed piece = (.ok (k, event), p')) : Follows plain (n + k) p' := by
  by_cases hshort : piece.length < p.wants
  · rw [pieces.short p piece trivial hne hshort] at hfeed
    obtain ⟨hanswer, rfl⟩ := Prod.mk.inj hfeed
    obtain ⟨rfl, rfl⟩ := Prod.mk.inj (Except.ok.inj hanswer)
    exact h.absorb hstands hbegins hshort
  · rw [pieces.full p piece trivial hne (Nat.le_of_not_lt hshort)] at hfeed
    have hlength : (piece.take p.wants).length = p.wants := by
      rw [List.length_take]
      omega
    have hcount : k = p.wants := answering_ok hfeed
    have hpart : piece.take p.wants <+: plain.drop n := (List.take_prefix _ _).trans hbegins
    have hdone : p.complete (piece.take p.wants) = (.ok event, p') := answering_done hfeed
    have hafter := h.complete hstands hpart hlength hdone
    rwa [hlength, ← hcount] at hafter

/-- In every feeding the parser keeps to the layout. -/
theorem fed_follows {may : TarParser → List Byte → Prop} (h : Fed feed may plain new n es p) : Follows plain n p := by
  refine (h.invariant (I := fun n es p => StandsAt plain n es p ∧ Follows plain n p)
    ⟨new_stands plain, .block ⟨0, rfl⟩ rfl rfl (.inl rfl) rfl⟩ ?_).2
  rintro taken k entries p p' piece event ⟨hstands, hfollows⟩ hne hbegins _ hfeed
  exact ⟨hstands.call hne hbegins hfeed, hfollows.call hstands hne hbegins hfeed⟩

end TarParser
end Iluvatar
