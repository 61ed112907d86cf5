/-
The stream header in bzip2's checkpoints.

The level is captured from the first slice that looks like a stream header, which the
stream's own header does only where one slice holds all four bytes of it.  Whatever the
library does, the header in a checkpoint is the stream's own exactly when the first such
slice carries its level.
-/
import Iluvatar.Compress.Bzip2
import Iluvatar.Compress.Stage

namespace Iluvatar
namespace Bzip2Decompressor

variable {ι : Type}

/-- A decoder being fed a stream: what was taken of it and made, and the slices given since
the decoder was created. -/
structure Feeding (ι : Type) where
  decoder : Bzip2Decompressor ι
  consumed : Nat
  produced : Nat
  slices : List (List Byte)

def Feeding.start (lib : BzLibrary ι) : Feeding ι :=
  { decoder := new lib, consumed := 0, produced := 0, slices := [] }

def Feeding.step (lib : BzLibrary ι) (packed : List Byte) (x : Feeding ι) : Move → Option (Feeding ι)
  | .feed size room =>
    let slice := (packed.drop x.consumed).take (size + 1)
    match x.decoder.decompress lib slice (room + 1) with
    | .error _ => none
    | .ok (r, decoder) =>
      some
        { decoder, consumed := x.consumed + r.bytesConsumed, produced := x.produced + r.bytesProduced
          slices := x.slices ++ [slice] }
  | .resume =>
    match x.decoder.checkpoint x.consumed x.produced with
    | .ok (some cp) =>
      match (new lib).restore lib cp with
      | .ok decoder =>
        some { decoder, consumed := cp.compressedOffset, produced := cp.uncompressedOffset, slices := [] }
      | .error _ => none
    | _ => none

def Feeding.run (lib : BzLibrary ι) (packed : List Byte) (moves : List Move) : Option (Feeding ι) :=
  moves.foldlM (Feeding.step lib packed) (Feeding.start lib)

/-- The level a slice that looks like the stream header carries. -/
def headerLevel (slice : List Byte) : Option Byte :=
  if looksLikeHeader slice then slice[3]? else none

/-- The level of the first slice that looks like the stream header. -/
def captured (slices : List (List Byte)) : Option Byte := slices.findSome? headerLevel

/-- The fields the level is kept in, and the mode. -/
structure SameHeader (a b : Bzip2Decompressor ι) : Prop where
  streamLevel : b.streamLevel = a.streamLevel
  headerParsed : b.headerParsed = a.headerParsed
  restoreActive : b.restoreActive = a.restoreActive

theorem SameHeader.rfl {a : Bzip2Decompressor ι} : SameHeader a a := ⟨Eq.refl _, Eq.refl _, Eq.refl _⟩

theorem SameHeader.trans {a b c : Bzip2Decompressor ι} (h : SameHeader a b) (h' : SameHeader b c) :
    SameHeader a c where
  streamLevel := h'.streamLevel.trans h.streamLevel
  headerParsed := h'.headerParsed.trans h.headerParsed
  restoreActive := h'.restoreActive.trans h.restoreActive

section Frames

variable {lib : BzLibrary ι} {d d' : Bzip2Decompressor ι} {input : List Byte} {room : Nat}
  {r : DecompressResult}

theorem scanned_same (taken : List Byte) : SameHeader d (d.scanned taken) := by
  rw [scanned]
  split
  · exact .rfl
  · dsimp only
    split
    · exact ⟨rfl, rfl, rfl⟩
    · exact ⟨rfl, rfl, rfl⟩

theorem decompressAndScan_same (h : d.decompressAndScan lib input room = .ok (r, d')) :
    SameHeader d d' := by
  simp only [decompressAndScan] at h
  cases hresult : (lib.decompress d.inner input room).1.result with
  | error e => simp [hresult] at h
  | ok status =>
    simp only [hresult] at h
    obtain ⟨_, rfl⟩ := Prod.mk.inj (Except.ok.inj h)
    have hcounted : SameHeader d (d.counted (lib.decompress d.inner input room).1
        (lib.decompress d.inner input room).2) := ⟨rfl, rfl, rfl⟩
    exact hcounted.trans (scanned_same _)

theorem segment_same {seg : List Byte} :
    ∀ {fuel : Nat} {x y : Segmented ι} {n m : Nat}, segment lib seg room fuel x n = .ok (y, m) →
      SameHeader x.decoder y.decoder := by
  intro fuel
  induction fuel with
  | zero =>
    intro x y n m h
    cases h
  | succ fuel ih =>
    intro x y n m h
    rw [segment] at h
    by_cases hleft : n < seg.length
    · rw [if_pos hleft] at h
      by_cases hfull : room ≤ x.produced.length
      · rw [if_pos hfull] at h
        obtain ⟨rfl, _⟩ := Prod.mk.inj (Except.ok.inj h)
        exact .rfl
      · rw [if_neg hfull] at h
        cases hcall : x.decoder.decompressAndScan lib (seg.drop n) (room - x.produced.length) with
        | error f => simp [hcall] at h
        | ok v =>
          obtain ⟨r, d⟩ := v
          have hsame := decompressAndScan_same hcall
          simp only [hcall] at h
          by_cases hend : r.status = .streamEnd
          · rw [if_pos hend] at h
            obtain ⟨rfl, _⟩ := Prod.mk.inj (Except.ok.inj h)
            exact hsame
          · rw [if_neg hend] at h
            by_cases hidle : r.bytesConsumed = 0 ∧ r.bytesProduced = 0
            · rw [if_pos hidle] at h
              obtain ⟨rfl, _⟩ := Prod.mk.inj (Except.ok.inj h)
              exact hsame
            · rw [if_neg hidle] at h
              exact hsame.trans (ih h)
    · rw [if_neg hleft] at h
      obtain ⟨rfl, _⟩ := Prod.mk.inj (Except.ok.inj h)
      exact .rfl

theorem segments_same {bounds : List (Nat × Nat)} :
    ∀ {x y : Segmented ι}, segments lib input room bounds x = .ok y →
      SameHeader x.decoder y.decoder := by
  induction bounds with
  | nil =>
    intro x y h
    obtain rfl := Except.ok.inj h
    exact .rfl
  | cons b rest ih =>
    obtain ⟨start, stop⟩ := b
    intro x y h
    rw [segments] at h
    by_cases hempty : input.length ≤ start ∨ stop ≤ start
    · rw [if_pos hempty] at h
      obtain rfl := Except.ok.inj h
      exact .rfl
    · rw [if_neg hempty] at h
      cases hseg : segment lib ((input.take stop).drop start) room (stop - start + room + 1) x 0 with
      | error f => simp [hseg] at h
      | ok v =>
        obtain ⟨x', n⟩ := v
        have hsame := segment_same hseg
        simp only [hseg] at h
        split at h
        · obtain rfl := Except.ok.inj h
          exact hsame
        · have hrest := ih h
          exact hsame.trans hrest

/-- A call in normal mode changes the header's fields as `captureLevel` does. -/
theorem decompressNormal_same (h : d.decompressNormal lib input room = .ok (r, d')) :
    SameHeader (d.captureLevel input) d' := by
  simp only [decompressNormal] at h
  split at h
  · exact decompressAndScan_same h
  · split at h
    · cases h
    · next x hx =>
      obtain ⟨_, rfl⟩ := Prod.mk.inj (Except.ok.inj h)
      exact segments_same hx

/-- What restore mode keeps: the mode, and that no boundary is recorded. -/
def Resuming (d : Bzip2Decompressor ι) : Prop := d.restoreActive = true ∧ d.lastBlockBoundary = none

theorem feedRestore_resuming {feed : List Byte} {consumed : Nat} (hd : Resuming d)
    (h : d.feedRestore lib feed consumed room = .ok (r, d')) : Resuming d' := by
  simp only [feedRestore] at h
  split at h
  · obtain ⟨_, rfl⟩ := Prod.mk.inj (Except.ok.inj h)
    exact hd
  · split at h
    · obtain ⟨_, rfl⟩ := Prod.mk.inj (Except.ok.inj h)
      exact hd
    · cases h

theorem shifted_resuming (hd : Resuming d) (input : List Byte) : Resuming (d.shifted input).2 := by
  simp only [shifted]
  split
  · exact hd
  · split
    · exact hd
    · exact hd

theorem restoreInput_resuming (hd : Resuming d)
    (h : d.restoreInput lib input room = .ok (r, d')) : Resuming d' := by
  simp only [restoreInput] at h
  split at h
  · obtain ⟨_, rfl⟩ := Prod.mk.inj (Except.ok.inj h)
    exact shifted_resuming hd input
  · exact feedRestore_resuming (shifted_resuming hd input) h

theorem restoreHeld_resuming (hd : Resuming d)
    (h : d.restoreHeld lib input room = .ok (r, d')) : Resuming d' := by
  rw [restoreHeld] at h
  split at h
  · exact restoreInput_resuming hd h
  · split at h
    · cases h
    · next r₁ d₁ hfeed =>
      have hd₁ : Resuming d₁ := feedRestore_resuming (d := { d with shiftBuffer := [] }) hd hfeed
      split at h
      · obtain ⟨_, rfl⟩ := Prod.mk.inj (Except.ok.inj h)
        exact hd₁
      · exact restoreInput_resuming hd₁ h

theorem decompressRestore_resuming (hd : Resuming d)
    (h : d.decompressRestore lib input room = .ok (r, d')) : Resuming d' := by
  simp only [decompressRestore] at h
  split at h
  · exact restoreHeld_resuming hd h
  · split at h
    · cases h
    · split at h
      · obtain ⟨_, rfl⟩ := Prod.mk.inj (Except.ok.inj h)
        exact hd
      · split at h
        · obtain ⟨_, rfl⟩ := Prod.mk.inj (Except.ok.inj h)
          exact hd
        · refine restoreHeld_resuming ?_ h
          exact hd

theorem decompress_eq_ok (h : d.decompress lib input room = .ok (r, d')) :
    d.decompressAny lib input room = .ok (r, d') := by
  rw [decompress] at h
  split at h
  · cases h
  · next r₁ d₁ hany =>
    split at h
    · cases h
    · rw [hany]
      exact h

end Frames

theorem captured_append (slices : List (List Byte)) (slice : List Byte) :
    captured (slices ++ [slice]) = (captured slices).or (headerLevel slice) := by
  rw [captured, captured, List.findSome?_append]
  cases hlevel : headerLevel slice with
  | none => simp [List.findSome?, hlevel]
  | some level => simp [List.findSome?, hlevel]

/-- The level kept is the one captured. -/
structure Captures (d : Bzip2Decompressor ι) (slices : List (List Byte)) : Prop where
  headerParsed : d.headerParsed = (captured slices).isSome
  streamLevel : d.streamLevel = (captured slices).getD 0

theorem Captures.same {d d' : Bzip2Decompressor ι} {slices : List (List Byte)}
    (h : Captures d slices) (hsame : SameHeader d d') : Captures d' slices where
  headerParsed := hsame.headerParsed.trans h.headerParsed
  streamLevel := hsame.streamLevel.trans h.streamLevel

theorem Captures.captureLevel {d : Bzip2Decompressor ι} {slices : List (List Byte)}
    (h : Captures d slices) (slice : List Byte) :
    Captures (d.captureLevel slice) (slices ++ [slice]) := by
  have hparsed := h.headerParsed
  have hlevel := h.streamLevel
  cases hbefore : captured slices with
  | some level =>
    rw [hbefore] at hparsed hlevel
    have hkept : d.captureLevel slice = d := by
      rw [Bzip2Decompressor.captureLevel, if_neg (by simp [hparsed])]
    rw [hkept]
    constructor
    · rw [captured_append, hbefore, hparsed]
      rfl
    · rw [captured_append, hbefore, hlevel]
      rfl
  | none =>
    rw [hbefore] at hparsed hlevel
    have hnow : captured (slices ++ [slice]) = headerLevel slice := by
      rw [captured_append, hbefore]
      rfl
    by_cases hlooks : looksLikeHeader slice = true
    · have hlong : 3 < slice.length := by
        simp only [looksLikeHeader, Bool.and_eq_true, decide_eq_true_iff] at hlooks
        omega
      have hget : slice[3]? = some slice[3] := List.getElem?_eq_getElem hlong
      have hset : d.captureLevel slice =
          { d with streamLevel := (slice[3]?).getD 0, headerParsed := true } := by
        rw [Bzip2Decompressor.captureLevel, if_pos (by simp [hparsed, hlooks])]
      rw [hset]
      constructor
      · rw [hnow, headerLevel, if_pos hlooks, hget]
        rfl
      · rw [hnow, headerLevel, if_pos hlooks]
    · have hkept : d.captureLevel slice = d := by
        rw [Bzip2Decompressor.captureLevel, if_neg (by simp [hlooks])]
      rw [hkept]
      constructor
      · rw [hnow, headerLevel, if_neg hlooks, hparsed]
      · rw [hnow, headerLevel, if_neg hlooks, hlevel]

/-- The level is the one captured, or a boundary was resumed from and none is recorded. -/
def Feeding.Sound (x : Feeding ι) : Prop :=
  x.decoder.restoreActive = false ∧ Captures x.decoder x.slices ∨ Resuming x.decoder

theorem Feeding.start_sound (lib : BzLibrary ι) : (Feeding.start lib).Sound :=
  .inl ⟨rfl, rfl, rfl⟩

theorem Feeding.step_sound {lib : BzLibrary ι} {packed : List Byte} {x x' : Feeding ι} {m : Move}
    (hx : x.Sound) (h : x.step lib packed m = some x') : x'.Sound := by
  cases m with
  | feed size room =>
    simp only [Feeding.step] at h
    split at h
    · cases h
    · next r d hcall =>
      obtain rfl := Option.some.inj h
      have hany := decompress_eq_ok hcall
      rcases hx with ⟨hnormal, hcaptures⟩ | hresuming
      · rw [decompressAny, if_neg (by simp [hnormal])] at hany
        have hsame := decompressNormal_same hany
        refine .inl ⟨?_, (hcaptures.captureLevel _).same hsame⟩
        rw [hsame.restoreActive, Bzip2Decompressor.captureLevel]
        split
        · exact hnormal
        · exact hnormal
      · rw [decompressAny, if_pos hresuming.1] at hany
        exact .inr (decompressRestore_resuming hresuming hany)
  | resume =>
    simp only [Feeding.step] at h
    split at h
    · next cp _ =>
      cases hstate : cp.state with
      | some state =>
        simp only [restore, hstate] at h
        obtain rfl := Option.some.inj h
        exact .inr ⟨rfl, rfl⟩
      | none =>
        simp only [restore, hstate] at h
        obtain rfl := Option.some.inj h
        exact .inl ⟨rfl, rfl, rfl⟩
    · cases h

theorem Feeding.run_sound {lib : BzLibrary ι} {packed : List Byte} {moves : List Move}
    {x : Feeding ι} (h : Feeding.run lib packed moves = some x) : x.Sound :=
  Sansio.foldlM_invariant (fun _ _ _ hx hstep => Feeding.step_sound hx hstep) moves _ _
    (Feeding.start_sound lib) h

/-- The stream header in the checkpoint given here, if one at a block boundary is. -/
def Feeding.headerGiven (x : Feeding ι) : Option (List Byte) :=
  match x.decoder.checkpoint x.consumed x.produced with
  | .ok (some cp) => cp.state.map Bzip2CheckpointState.streamHeader
  | _ => none

theorem Feeding.headerGiven_eq {x : Feeding ι} {header : List Byte}
    (h : x.headerGiven = some header) :
    (∃ b, x.decoder.lastBlockBoundary = some b) ∧ header = [66, 90, 104, x.decoder.streamLevel] := by
  rw [Feeding.headerGiven, checkpoint] at h
  cases hb : x.decoder.lastBlockBoundary with
  | some b =>
    by_cases hmoved : b.uncompressedOffset ≠ x.produced ∨ x.consumed < b.byteOffset ∨
        8 < x.consumed - b.byteOffset
    · simp only [hb, if_pos hmoved] at h
      cases h
    · simp only [hb, if_neg hmoved, Option.map_some, Option.some.injEq] at h
      exact ⟨⟨b, rfl⟩, h.symm⟩
  | none =>
    by_cases hzero : x.consumed = 0 ∧ x.produced = 0
    · simp only [hb, if_pos hzero] at h
      cases h
    · simp only [hb, if_neg hzero] at h
      cases h

/-- In every run a checkpoint at a block boundary carries the stream's own header exactly
when the first slice given so far that looks like a header carries the stream's level. -/
theorem checkpoint_header_iff (lib : BzLibrary ι) {level : Byte} {rest : List Byte}
    (hlevel : 49 ≤ level ∧ level ≤ 57) {moves : List Move} {x : Feeding ι}
    (hrun : Feeding.run lib (66 :: 90 :: 104 :: level :: rest) moves = some x)
    {header : List Byte} (hgiven : x.headerGiven = some header) :
    header = (66 :: 90 :: 104 :: level :: rest).take 4 ↔ captured x.slices = some level := by
  obtain ⟨⟨b, hb⟩, hheader⟩ := Feeding.headerGiven_eq hgiven
  rcases Feeding.run_sound hrun with ⟨_, hcaptures⟩ | ⟨_, hnone⟩
  · rw [hheader, hcaptures.streamLevel]
    show [66, 90, 104, (captured x.slices).getD 0] = [66, 90, 104, level] ↔ _
    cases hcap : captured x.slices with
    | some found => simp
    | none =>
      have hzero : (0 : Byte) ≠ level := by
        rintro rfl
        exact absurd hlevel.1 (by decide)
      simp [hzero]
  · rw [hnone] at hb
    cases hb

/-- Two blocks, of one byte each, as the bzip2 format has them. -/
def twoBlocks : List Byte :=
  66 :: 90 :: 104 :: 57 :: [49, 65, 89, 38, 83, 89, 25, 147, 155, 107, 0, 0, 0, 1, 0, 32, 0, 32, 0, 33, 24,
    70, 134, 40, 43, 36, 202, 107, 34, 154, 23, 182, 64, 0, 0, 0, 32, 2, 0, 4, 0, 4, 35, 8, 208, 93,
    201, 20, 225, 66, 64, 159, 222, 45, 144]

/-- The library on that stream: a block's byte comes out when the block's last byte goes in. -/
def twoBlocksLibrary : BzLibrary Nat where
  new := 0
  decompress n input room :=
    let made := (input.zipIdx n).flatMap fun x => if x.2 = 26 then [97] else if x.2 = 48 then [98] else []
    ({ consumed := input.length, produced := made.take room
       result := .ok (if n + input.length = 59 then .streamEnd else .ok) }, n + input.length)

/-- Given the header in one slice, the checkpoint at the second block carries it. -/
theorem checkpoint_header_whole :
    ∃ x header, Feeding.run twoBlocksLibrary twoBlocks [.feed 3 9, .feed 22 9, .feed 22 9] = some x ∧
      x.headerGiven = some header ∧ header = twoBlocks.take 4 := by
  have hall : (Feeding.run twoBlocksLibrary twoBlocks [.feed 3 9, .feed 22 9, .feed 22 9]).map
      (fun x => (x.headerGiven.isSome, captured x.slices)) = some (true, some 57) := by
    decide +kernel
  obtain ⟨x, hrun, hx⟩ := Option.map_eq_some_iff.mp hall
  obtain ⟨hsome, hcap⟩ := Prod.mk.inj hx
  obtain ⟨header, hgiven⟩ := Option.isSome_iff_exists.mp hsome
  exact ⟨x, header, hrun, hgiven,
    (checkpoint_header_iff twoBlocksLibrary (by decide) hrun hgiven).mpr hcap⟩

/-- Given one byte at a time, it carries a level that no stream has. -/
theorem checkpoint_header_sliced :
    ∃ x, Feeding.run twoBlocksLibrary twoBlocks (List.replicate 33 (.feed 0 9)) = some x ∧
      x.headerGiven = some [66, 90, 104, 0] ∧ twoBlocks.take 4 = [66, 90, 104, 57] := by
  have hall : (Feeding.run twoBlocksLibrary twoBlocks (List.replicate 33 (.feed 0 9))).map
      Feeding.headerGiven = some (some [66, 90, 104, 0]) := by
    decide +kernel
  obtain ⟨x, hrun, hgiven⟩ := Option.map_eq_some_iff.mp hall
  exact ⟨x, hrun, hgiven, rfl⟩

end Bzip2Decompressor
end Iluvatar
