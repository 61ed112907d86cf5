/-
Checkpoints of a gzip decoder that was resumed.

The compressed offset saved at a block boundary is the header's size and the deflate bytes
counted since the decoder was created or restored.  After a restore it is the true offset
only where no deflate byte lies before the place restored from.
-/
import Iluvatar.Compress.GzipRuns
import Iluvatar.Library.Loop

namespace Iluvatar
namespace GzipDecompressor

open Sansio

variable {ο β : Type} {lib : Inflater ο β} {g : GzipMember} {Stands : ο → Nat → Nat → Nat → Prop}

/-- A decoder being fed a stream; `resumedAt` is the offset of the block boundary it was
last restored from, if it was. -/
structure Feeding (ο β : Type) where
  decoder : GzipDecompressor ο β
  consumed : Nat
  produced : Nat
  resumedAt : Option Nat

def Feeding.start (lib : Inflater ο β) : Feeding ο β :=
  { decoder := new lib, consumed := 0, produced := 0, resumedAt := none }

def Feeding.step (lib : Inflater ο β) (packed : List Byte) (x : Feeding ο β) :
    Move → Option (Feeding ο β)
  | .feed size room =>
    match x.decoder.decompress lib ((packed.drop x.consumed).take (size + 1)) (room + 1) with
    | .error _ => none
    | .ok (r, decoder) =>
      some
        { x with
          decoder
          consumed := x.consumed + r.bytesConsumed
          produced := x.produced + r.bytesProduced }
  | .resume =>
    match x.decoder.checkpoint x.consumed x.produced with
    | .ok (some cp) =>
      match (new lib).restore lib cp with
      | .ok decoder =>
        some
          { decoder, consumed := cp.compressedOffset, produced := cp.uncompressedOffset
            resumedAt := cp.state.map fun _ => cp.compressedOffset }
      | .error _ => none
    | _ => none

def Feeding.run (lib : Inflater ο β) (packed : List Byte) (moves : List Move) :
    Option (Feeding ο β) :=
  moves.foldlM (Feeding.step lib packed) (Feeding.start lib)

/-- The library stopped at a block boundary, and nothing was taken or made since. -/
structure AtBoundary (d : GzipDecompressor ο β) : Prop where
  state : d.headerState = .decompressing
  boundary : ∃ sb, d.lastBoundary = some sb ∧ sb.compressedOffset = d.headerSize + d.deflateIn ∧
    sb.uncompressedOffset = d.totalOut

/-- The checkpoint restores a fresh decoder that ends with exactly what follows `u`,
however what follows `c` is cut. -/
def RestoresExactly (lib : Inflater ο β) (g : GzipMember) (cp : Checkpoint (GzipCheckpointState β))
    (c u : Nat) : Prop :=
  cp.compressedOffset = c ∧ cp.uncompressedOffset = u ∧
    ∃ d, (new lib).restore lib cp = .ok d ∧
      ∀ cuts, ∃ e, EndsAs (asCall (decompress lib)) (g.packed.drop c) cuts d e ∧ e.outcome = none ∧
        e.output = g.plain.drop u

/-- The deflate bytes before the place a decoder was restored from. -/
def Feeding.skipped (g : GzipMember) (x : Feeding ο β) : Nat :=
  match x.resumedAt with
  | none => 0
  | some r => r - g.headerSize

/-- The decoder stands where the feeding is. -/
structure Feeding.Sound (lib : Inflater ο β) (g : GzipMember)
    (Stands : ο → Nat → Nat → Nat → Prop) (x : Feeding ο β) : Prop where
  at_place : ∃ k, At lib g Stands (x.skipped g) x.decoder x.consumed x.produced k
  resumed : ∀ r, x.resumedAt = some r → g.headerSize ≤ r

theorem heading_at_start (lib : Inflater ο β) (g : GzipMember)
    (Stands : ο → Nat → Nat → Nat → Prop) :
    ∃ k, At lib g Stands 0 (new lib) 0 0 k :=
  ⟨_, .heading ⟨rfl, g.gzip, rfl⟩ rfl⟩

section Given

variable {skipped c u k : Nat} {d : GzipDecompressor ο β}

/-- What holds from the header on, wherever that is. -/
theorem At.kept (h : At lib g Stands skipped d c u k) (hsb : d.lastBoundary ≠ none) :
    Kept lib g Stands skipped c u d := by
  cases h with
  | heading hd _ =>
    rw [hd.fresh] at hsb
    exact absurd rfl hsb
  | inflating _ hkept => exact hkept
  | trailing _ hkept => exact hkept
  | finished _ hkept => exact hkept

/-- A boundary that lies at the true offset is resumed at. -/
theorem restore_at (hlib : Inflates lib g Stands) {sb : SavedBoundary β}
    (hsaved : Saved lib g Stands 0 c sb) (hc : sb.compressedOffset = c) (hu : sb.uncompressedOffset = u) :
    g.headerSize ≤ c ∧ ∃ d', (new lib).restore lib
        { compressedOffset := c, uncompressedOffset := u, bitOffset := 0
          state := some { window := sb.window, blockState := some sb.blockState
                          headerSize := g.headerSize } } = .ok d' ∧
      ∃ k, At lib g Stands (c - g.headerSize) d' c u k := by
  obtain ⟨⟨b, n, hstands, hcount⟩, _, hwindow⟩ := hsaved
  rw [hu] at hstands hwindow
  have hplace : c = g.headerSize + n := by omega
  have hlen : (g.plain.take u).length = u := by
    have := (hlib.within hstands).2.2
    rw [List.length_take]
    omega
  have hshort : sb.window.length = min u windowSize := by
    rw [hwindow, List.length_drop, hlen]
    omega
  have hwhole : sb.window.take windowSize = sb.window := List.take_of_length_le (by omega)
  have hfull : (sb.window ++ List.replicate (windowSize - sb.window.length) 0).length = windowSize := by
    rw [List.length_append, List.length_replicate]
    omega
  refine ⟨by omega, _, rfl, _, .inflating (b := b) ⟨rfl, ?_, ?_, ?_, ?_, rfl⟩
    ⟨rfl, rfl, rfl, ?_, (fun sb hsb => by cases hsb), List.nil_prefix, rfl⟩⟩
  · show Stands (lib.fromBlockBoundaryState sb.blockState) b (0 + (c - g.headerSize)) u
    have hn : 0 + (c - g.headerSize) = n := by omega
    rw [hn]
    exact hstands
  · show c = g.headerSize + (0 + (c - g.headerSize))
    omega
  · show Buffer.Holds (sb.window.take windowSize ++
      List.replicate (windowSize - (sb.window.take windowSize).length) 0)
      (sb.window.take windowSize).length (g.plain.take u)
    rw [hwhole]
    rw [hwindow, hlen] at hfull ⊢
    have hholds := Buffer.holds_of_window (g.plain.take u)
      (List.replicate (windowSize - ((g.plain.take u).drop (u - windowSize)).length) 0)
      (show 0 < windowSize by decide) (by rw [hlen]; exact hfull)
    rw [hlen] at hholds
    have hmin : ((g.plain.take u).drop (u - windowSize)).length = min u windowSize := by
      rw [List.length_drop, hlen]
      omega
    rw [hmin] at hholds ⊢
    exact hholds
  · show min (sb.window.take windowSize).length windowSize = min u windowSize
    rw [hwhole, hshort]
    omega
  · show (sb.window.take windowSize ++
      List.replicate (windowSize - (sb.window.take windowSize).length) 0).length = windowSize
    rw [hwhole]
    exact hfull

/-- What a checkpoint that is given says: the start, or a boundary at the true offset, which
no decoder restored past the header has. -/
theorem checkpoint_given (hlib : Inflates lib g Stands) (hat : At lib g Stands skipped d c u k)
    {cp : Checkpoint (GzipCheckpointState β)} (hcp : d.checkpoint c u = .ok (some cp)) :
    (cp = Checkpoint.start ∧ c = 0 ∧ u = 0) ∨
    (skipped = 0 ∧ cp.compressedOffset = c ∧ cp.uncompressedOffset = u ∧ cp.state ≠ none ∧
      g.headerSize ≤ c ∧ ∃ d', (new lib).restore lib cp = .ok d' ∧
        ∃ k, At lib g Stands (c - g.headerSize) d' c u k) := by
  rw [checkpoint] at hcp
  by_cases hheld : d.stagePos < d.stage.length ∨ ¬ d.replay.isEmpty
  · rw [if_pos hheld] at hcp
    cases hcp
  · rw [if_neg hheld] at hcp
    cases hsb : d.lastBoundary with
    | none =>
      simp only [hsb] at hcp
      by_cases hzero : c = 0 ∧ u = 0
      · rw [if_pos hzero] at hcp
        obtain rfl := Option.some.inj (Except.ok.inj hcp)
        exact .inl ⟨rfl, hzero⟩
      · rw [if_neg hzero] at hcp
        cases hcp
    | some sb =>
      simp only [hsb] at hcp
      by_cases hmoved : sb.uncompressedOffset ≠ u ∨ sb.compressedOffset ≠ c
      · rw [if_pos hmoved] at hcp
        cases hcp
      · rw [if_neg hmoved] at hcp
        rw [not_or, not_not, not_not] at hmoved
        obtain ⟨hu, hc⟩ := hmoved
        have hkept := hat.kept (by rw [hsb]; simp)
        have hsaved := hkept.boundary sb hsb
        have hskipped : skipped = 0 := by
          have := hsaved.passed
          omega
        subst hskipped
        obtain rfl := Option.some.inj (Except.ok.inj hcp)
        obtain ⟨hle, d', hrestore, hat'⟩ := restore_at hlib hsaved hc hu
        refine .inr ⟨rfl, rfl, rfl, by simp, hle, d', ?_, hat'⟩
        rw [hkept.headerSize]
        exact hrestore

end Given

theorem Feeding.start_sound (lib : Inflater ο β) (g : GzipMember)
    (Stands : ο → Nat → Nat → Nat → Prop) : (Feeding.start lib).Sound lib g Stands :=
  ⟨heading_at_start lib g Stands, fun r hr => by cases hr⟩

theorem Feeding.step_sound (hlib : Inflates lib g Stands) {x x' : Feeding ο β} {m : Move}
    (hx : x.Sound lib g Stands) (h : x.step lib g.packed m = some x') : x'.Sound lib g Stands := by
  obtain ⟨⟨k, hat⟩, hresumed⟩ := hx
  cases m with
  | feed size room =>
    have hend : (g.packed.drop x.consumed).take (size + 1) = [] → g.packed.length ≤ x.consumed := by
      intro hnil
      have hlen := congrArg List.length hnil
      rw [List.length_take, List.length_drop, List.length_nil] at hlen
      omega
    obtain ⟨r, d', k', hcall, _, _, _, hat', _⟩ :=
      decompress_serves hlib hat (List.take_prefix _ _) hend (Nat.succ_pos room)
    simp only [Feeding.step, hcall, Option.some.injEq] at h
    subst h
    exact ⟨⟨k', hat'⟩, hresumed⟩
  | resume =>
    simp only [Feeding.step] at h
    split at h
    · next cp hcp =>
      rcases checkpoint_given hlib hat hcp with ⟨rfl, hc, hu⟩ | ⟨_, hc, hu, hstate, hle, d', hrestore, hat'⟩
      · have hback : (new lib).restore lib Checkpoint.start = .ok (new lib) := rfl
        simp only [hback, Option.some.injEq] at h
        subst h
        exact ⟨heading_at_start lib g Stands, fun r hr => by cases hr⟩
      · obtain ⟨state, hsome⟩ := Option.ne_none_iff_exists'.mp hstate
        simp only [hrestore, hsome, Option.map_some, Option.some.injEq] at h
        subst h
        rw [← hc, ← hu] at hat'
        refine ⟨hat', ?_⟩
        intro r hr
        obtain rfl := Option.some.inj hr
        rw [hc]
        exact hle
    · cases h

theorem Feeding.run_sound (hlib : Inflates lib g Stands) {moves : List Move} {x : Feeding ο β}
    (h : Feeding.run lib g.packed moves = some x) : x.Sound lib g Stands := by
  exact foldlM_invariant (fun _ _ _ hx hstep => Feeding.step_sound hlib hx hstep) moves _ _
    (Feeding.start_sound lib g Stands) h

/-- In every run, at a block boundary with nothing staged, the decoder gives a checkpoint
that restores to exactly the remaining output if and only if it was not restored from a
block boundary past the header. -/
theorem checkpoint_iff (hlib : Inflates lib g Stands) {moves : List Move} {x : Feeding ο β}
    (hrun : Feeding.run lib g.packed moves = some x) (hboundary : AtBoundary x.decoder)
    (hstaged : x.decoder.stage.length ≤ x.decoder.stagePos) :
    (∃ cp, x.decoder.checkpoint x.consumed x.produced = .ok (some cp) ∧
      RestoresExactly lib g cp x.consumed x.produced) ↔
    ∀ r, x.resumedAt = some r → r = g.headerSize := by
  obtain ⟨⟨k, hat⟩, hresumed⟩ := Feeding.run_sound hlib hrun
  obtain ⟨hstate, sb, hsb, hcount, hout⟩ := hboundary
  have hkept := hat.kept (by rw [hsb]; simp)
  constructor
  · rintro ⟨cp, hcp, _⟩ r hr
    have hle := hresumed r hr
    have hskip : x.skipped g = r - g.headerSize := by rw [Feeding.skipped, hr]
    rcases checkpoint_given hlib hat hcp with ⟨_, hc, _⟩ | ⟨hzero, _⟩
    · have hpassed := (hkept.boundary sb hsb).passed
      have hsize := hkept.headerSize
      have := g.gzip
      omega
    · omega
  · intro hall
    have hskip : x.skipped g = 0 := by
      rw [Feeding.skipped]
      cases hr : x.resumedAt with
      | none => rfl
      | some r =>
        have := hall r hr
        show r - g.headerSize = 0
        omega
    have hplace : x.consumed = g.headerSize + x.decoder.deflateIn := by
      cases hat with
      | heading hd _ =>
        rw [hd.fresh] at hstate
        cases hstate
      | inflating hd _ =>
        have := hd.place
        omega
      | trailing hd _ =>
        obtain ⟨r, _, hr, _⟩ := hd.state
        rw [hr] at hstate
        cases hstate
      | finished hd _ =>
        rw [hd.state] at hstate
        cases hstate
    have hmade : x.decoder.totalOut = x.produced := by
      have := hkept.totalOut
      rw [pending_eq_nil (by omega), List.length_nil] at this
      omega
    have hcp : x.decoder.checkpoint x.consumed x.produced =
        .ok (some
          { compressedOffset := x.consumed, uncompressedOffset := x.produced, bitOffset := 0
            state := some
              { window := sb.window, blockState := some sb.blockState
                headerSize := x.decoder.headerSize } }) := by
      rw [checkpoint, if_neg (by rw [hkept.replay]; simp; omega)]
      simp only [hsb]
      rw [if_neg]
      rw [hout, hmade, hcount, hkept.headerSize, hplace]
      simp
    refine ⟨_, hcp, rfl, rfl, ?_⟩
    rcases checkpoint_given hlib hat hcp with ⟨hstart, _⟩ | ⟨_, _, _, _, _, d', hrestore, k', hat'⟩
    · exact absurd (congrArg Checkpoint.state hstart) (by simp [Checkpoint.start])
    · exact ⟨d', hrestore, ends_at hlib hat'⟩

/-- Three stored blocks of one byte each. -/
def stored : GzipMember where
  packed := [31, 139, 8, 0, 0, 0, 0, 0, 0, 255, 0, 1, 0, 254, 255, 97, 0, 1, 0, 254, 255, 98, 1, 1, 0, 254,
    255, 99, 194, 65, 36, 53, 3, 0, 0, 0]
  plain := [97, 98, 99]
  headerSize := 10
  deflateSize := 18
  blocks := 3
  header := by decide
  gzip := by decide
  trailer := by decide

/-- The library on such blocks: each takes six bytes, the last of them its content. -/
def storedInflater : Inflater Nat Nat where
  new := 0
  decompress n input _ _ _ :=
    let k := min input.length (6 - n % 6)
    let n' := n + k
    ({ status := if n' = 18 then .done else if n' % 6 = 0 then .blockBoundary else .needsMoreInput
       consumed := k
       produced := if n' % 6 = 0 then (input[k - 1]?).toList else [] }, n')
  blockBoundaryState := some
  fromBlockBoundaryState := id

def StoredStands (o b n m : Nat) : Prop := o = n ∧ b = n / 6 ∧ m = n / 6 ∧ n < 18

theorem stored_made {n : Nat} {input : List Byte} (hn : n < 18) (hne : input ≠ [])
    (hinput : input <+: stored.packed.drop (10 + n))
    (hwhole : (n + min input.length (6 - n % 6)) % 6 = 0) :
    ∃ x, input[min input.length (6 - n % 6) - 1]? = some x ∧ stored.plain[n / 6]? = some x := by
  have hpos := List.length_pos_of_ne_nil hne
  have hk : min input.length (6 - n % 6) = 6 - n % 6 := by omega
  have hlen : 6 - n % 6 - 1 < input.length := by omega
  have hread : input[6 - n % 6 - 1]? = stored.packed[10 + n + (6 - n % 6 - 1)]? := by
    obtain ⟨more, hmore⟩ := hinput
    rw [← List.getElem?_drop, ← hmore, List.getElem?_append_left hlen]
  have hall : ∀ b < 3, stored.packed[10 + 6 * b + 5]? = stored.plain[b]? := by decide
  have hplace : 10 + n + (6 - n % 6 - 1) = 10 + 6 * (n / 6) + 5 := by omega
  rw [hk, hread, hplace, hall _ (by omega)]
  have hin : n / 6 < stored.plain.length := by
    show n / 6 < 3
    omega
  exact ⟨_, List.getElem?_eq_getElem hin, List.getElem?_eq_getElem hin⟩

theorem stored_inflates : Inflates storedInflater stored StoredStands where
  fresh := ⟨rfl, rfl, rfl, by decide⟩
  within := by
    rintro o b n m ⟨_, rfl, rfl, hn⟩
    show n / 6 ≤ 3 ∧ n ≤ 18 ∧ n / 6 ≤ 3
    omega
  takes := by
    rintro o b n m input dict pos ⟨rfl, rfl, rfl, hn⟩ hne hinput hdict hpos hholds
    refine ⟨Nat.min_le_left _ _, ?_, ?_⟩
    · by_cases hwhole : (o + min input.length (6 - o % 6)) % 6 = 0
      · obtain ⟨x, hx, _⟩ := stored_made hn hne hinput hwhole
        simp only [storedInflater, if_pos hwhole, hx]
        exact hpos
      · simp only [storedInflater, if_neg hwhole]
        exact Nat.le_of_lt hpos
    · by_cases hwhole : (o + min input.length (6 - o % 6)) % 6 = 0
      · obtain ⟨x, hx, hplain⟩ := stored_made hn hne hinput hwhole
        simp only [storedInflater, if_pos hwhole, hx]
        obtain ⟨hlt, hget⟩ := List.getElem?_eq_some_iff.mp hplain
        rw [← hget, List.drop_eq_getElem_cons hlt]
        exact ⟨_, rfl⟩
      · simp only [storedInflater, if_neg hwhole]
        exact List.nil_prefix
  stops := by
    rintro o b n m input dict pos ⟨rfl, rfl, rfl, hn⟩ hne hinput hdict hpos hholds reply o' hcall
    obtain ⟨rfl, rfl⟩ := Prod.mk.inj hcall
    have hlen := List.length_pos_of_ne_nil hne
    by_cases hwhole : (o + min input.length (6 - o % 6)) % 6 = 0
    · obtain ⟨x, hx, _⟩ := stored_made hn hne hinput hwhole
      have hplain : stored.plain.length = 3 := rfl
      have hsize : stored.deflateSize = 18 := rfl
      by_cases hlast : o + min input.length (6 - o % 6) = 18
      · refine .inr (.inl ⟨if_pos hlast, hlast, ?_⟩)
        simp only [if_pos hwhole, hx, Option.toList_some, List.length_singleton, hplain]
        omega
      · have hstands : StoredStands (o + min input.length (6 - o % 6)) (o / 6 + 1)
            (o + min input.length (6 - o % 6)) (o / 6 + 1) := by
          refine ⟨rfl, ?_, ?_, ?_⟩
          · omega
          · omega
          · omega
        refine .inl ⟨by simp only [if_neg hlast, if_pos hwhole], ?_, _, rfl, ?_⟩
        · simp only [if_pos hwhole, hx]
          exact hstands
        · simp only [if_pos hwhole, hx]
          exact hstands
    · refine .inr (.inr ⟨.inl ?_, ?_, .inl ?_⟩)
      · have hlast : ¬ o + min input.length (6 - o % 6) = 18 := by omega
        simp only [if_neg hlast, if_neg hwhole]
      · simp only [if_neg hwhole]
        refine ⟨rfl, ?_, ?_, ?_⟩
        · omega
        · show o / 6 + 0 = _
          omega
        · omega
      · show 0 < min input.length (6 - o % 6)
        omega

/-- Whether the decoder stands at a boundary with nothing staged, and gives a checkpoint. -/
structure Facts where
  state : GzipHeaderState
  boundary : Option Nat
  made : Option Nat
  place : Nat
  totalOut : Nat
  staged : Nat
  resumedAt : Option Nat
  given : Option Bool
  deriving DecidableEq

def Feeding.facts (x : Feeding ο β) : Facts :=
  { state := x.decoder.headerState
    boundary := x.decoder.lastBoundary.map SavedBoundary.compressedOffset
    made := x.decoder.lastBoundary.map SavedBoundary.uncompressedOffset
    place := x.decoder.headerSize + x.decoder.deflateIn
    totalOut := x.decoder.totalOut
    staged := x.decoder.stage.length
    resumedAt := x.resumedAt
    given := (x.decoder.checkpoint x.consumed x.produced).toOption.map Option.isSome }

theorem Feeding.facts_boundary {x : Feeding ο β} {c u : Nat} {resumed : Option Nat} {given : Option Bool}
    (h : x.facts = { state := .decompressing, boundary := some c, made := some u, place := c, totalOut := u
                     staged := 0, resumedAt := resumed, given }) :
    AtBoundary x.decoder ∧ x.decoder.stage.length ≤ x.decoder.stagePos ∧ x.resumedAt = resumed ∧
      (x.decoder.checkpoint x.consumed x.produced).toOption.map Option.isSome = given := by
  simp only [Feeding.facts, Facts.mk.injEq] at h
  obtain ⟨hstate, hin, hout, hc, hu, hstage, hresumed, hgiven⟩ := h
  obtain ⟨sb, hsb, rfl⟩ := Option.map_eq_some_iff.mp hin
  rw [hsb] at hout
  obtain rfl := Option.some.inj hout
  exact ⟨⟨hstate, sb, hsb, hc.symm, hu.symm⟩, by omega, hresumed, hgiven⟩

/-- At the first boundary the decoder gives an exact checkpoint. -/
theorem checkpoint_iff_stored :
    ∃ x, Feeding.run storedInflater stored.packed [.feed 15 9] = some x ∧
      ∃ cp, x.decoder.checkpoint x.consumed x.produced = .ok (some cp) ∧
        RestoresExactly storedInflater stored cp x.consumed x.produced := by
  have hall : (Feeding.run storedInflater stored.packed [.feed 15 9]).map Feeding.facts =
      some { state := .decompressing, boundary := some 16, made := some 1, place := 16, totalOut := 1
             staged := 0, resumedAt := none, given := some true } := by
    decide +kernel
  obtain ⟨x, hrun, hx⟩ := Option.map_eq_some_iff.mp hall
  obtain ⟨hboundary, hstaged, hresumed, _⟩ := Feeding.facts_boundary hx
  exact ⟨x, hrun, (checkpoint_iff stored_inflates hrun hboundary hstaged).mpr
    fun r hr => by rw [hresumed] at hr; cases hr⟩

/-- Restored there, at the second boundary it gives none. -/
theorem resumed_gives_none :
    ∃ x, Feeding.run storedInflater stored.packed [.feed 15 9, .resume, .feed 5 9] = some x ∧
      AtBoundary x.decoder ∧ x.decoder.stage.length ≤ x.decoder.stagePos ∧
      x.decoder.checkpoint x.consumed x.produced = .ok none := by
  have hall : (Feeding.run storedInflater stored.packed [.feed 15 9, .resume, .feed 5 9]).map
      Feeding.facts =
      some { state := .decompressing, boundary := some 16, made := some 2, place := 16, totalOut := 2
             staged := 0, resumedAt := some 16, given := some false } := by
    decide +kernel
  obtain ⟨x, hrun, hx⟩ := Option.map_eq_some_iff.mp hall
  obtain ⟨hboundary, hstaged, _, hgiven⟩ := Feeding.facts_boundary hx
  refine ⟨x, hrun, hboundary, hstaged, ?_⟩
  cases hcp : x.decoder.checkpoint x.consumed x.produced with
  | error e => simp [hcp, Except.toOption] at hgiven
  | ok o =>
    cases o with
    | none => rfl
    | some cp => simp [hcp, Except.toOption] at hgiven

end GzipDecompressor
end Iluvatar
