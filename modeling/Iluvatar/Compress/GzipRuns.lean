/-
Runs of a gzip decoder: calls, and resumptions from its own checkpoints.

From wherever it stands, a decoder ends with exactly the remaining output.  It gives a
checkpoint at a block boundary exactly where its count of compressed bytes, which a restore
from a boundary sets back to the header's size, still is the true offset.
-/
import Iluvatar.Compress.GzipStanding

namespace Iluvatar
namespace GzipDecompressor

open Sansio

variable {ο β : Type} {lib : Inflater ο β} {g : GzipMember} {Stands : ο → Nat → Nat → Nat → Prop}

/-- A call at `c`, `u` with progress `k` left did what it should. -/
def Serves (lib : Inflater ο β) (g : GzipMember) (Stands : ο → Nat → Nat → Nat → Prop)
    (skipped c u k : Nat) (input : List Byte) (room : Nat)
    (o : Except Fault (DecompressResult × GzipDecompressor ο β)) : Prop :=
  ∃ r d' k', o = .ok (r, d') ∧ r.bytesConsumed ≤ input.length ∧ r.produced.length ≤ room ∧
    r.produced <+: g.plain.drop u ∧
    At lib g Stands skipped d' (c + r.bytesConsumed) (u + r.produced.length) k' ∧
    (r.status = .streamEnd → u + r.produced.length = g.plain.length) ∧
    (r.status = .continue → k' < k)

section Call

variable {skipped b c u k room : Nat} {d : GzipDecompressor ο β} {input : List Byte}

theorem pending_eq_nil (h : ¬ d.stagePos < d.stage.length) : d.pending = [] :=
  List.drop_eq_nil_of_le (by omega)

/-- Staged output given out. -/
theorem flushStage_kept (hkept : Kept lib g Stands skipped c u d) (hfinished : d.finished = false)
    (hstaged : d.stagePos < d.stage.length) (hroom : 0 < room) :
    ∃ stage stagePos out, d.flushStage room =
        ({ bytesConsumed := 0, produced := out, status := .continue }, { d with stage, stagePos }) ∧
      0 < out.length ∧ out.length ≤ room ∧ out <+: g.plain.drop u ∧
      Kept lib g Stands skipped c (u + out.length) { d with stage, stagePos } := by
  have hout : d.pending.take room = (d.stage.drop d.stagePos).take room := rfl
  have hlen : d.pending.length = d.stage.length - d.stagePos := by rw [pending, List.length_drop]
  have hmade : (d.pending.take room).length = min room d.pending.length := List.length_take ..
  have hpending : d.pending.drop room <+: g.plain.drop (u + (d.pending.take room).length) :=
    drop_prefix_drop hkept.pending room
  have htotal := hkept.totalOut
  by_cases hall : d.stage.length ≤ d.stagePos + (d.pending.take room).length
  · refine ⟨[], 0, d.pending.take room, ?_, by omega, by omega,
      (List.take_prefix _ _).trans hkept.pending, hkept.replay, hkept.raw, hkept.headerSize, hkept.dictBuf, hkept.boundary,
      List.nil_prefix, ?_⟩
    · rw [flushStage, ← hout]
      simp only [if_pos hall, hfinished, Bool.false_and]
      rfl
    · show d.totalOut = u + (d.pending.take room).length + 0
      omega
  · have hfit : (d.pending.take room).length = room := by omega
    have hrest : d.stage.drop (d.stagePos + (d.pending.take room).length) = d.pending.drop room := by
      rw [hfit, pending, List.drop_drop]
    refine ⟨d.stage, d.stagePos + (d.pending.take room).length, d.pending.take room, ?_, by omega,
      by omega, (List.take_prefix _ _).trans hkept.pending, hkept.replay, hkept.raw, hkept.headerSize, hkept.dictBuf,
      hkept.boundary, ?_, ?_⟩
    · rw [flushStage, ← hout]
      simp only [if_neg hall, hfinished, Bool.false_and]
      rfl
    · show d.stage.drop (d.stagePos + (d.pending.take room).length) <+: _
      rw [hrest]
      exact hpending
    · show d.totalOut = u + (d.pending.take room).length +
        (d.stage.drop (d.stagePos + (d.pending.take room).length)).length
      rw [hrest, List.length_drop]
      omega

theorem afterHeader_heading (held : List Byte) (h : Nat) :
    (heading lib held).afterHeader lib h input room =
      if (input.drop (h - held.length)).isEmpty then
        .ok ({ bytesConsumed := h - held.length, produced := [], status := .continue }, headed lib h)
      else
        match (headed lib h).inflateToOutput lib (input.drop (h - held.length)) true room with
        | .error f => .error f
        | .ok (r, d) => .ok ({ r with bytesConsumed := h - held.length + r.bytesConsumed }, d) :=
  rfl

theorem readHeader_found {held : List Byte} {h : Nat} (hnil : ¬ input.isEmpty = true)
    (hfound : tryParseHeader (held ++ input) = some h) (hpos : 0 < h) :
    (heading lib held).readHeader lib input room = (heading lib held).afterHeader lib h input room := by
  obtain ⟨n, rfl⟩ : ∃ n, h = n + 1 := ⟨h - 1, by omega⟩
  have hheld : (heading lib held).headerBuf = held := rfl
  rw [readHeader, if_neg hnil]
  simp only [hheld, hfound]

theorem readHeader_none {held : List Byte} (hnil : ¬ input.isEmpty = true)
    (hfound : tryParseHeader (held ++ input) = none) :
    (heading lib held).readHeader lib input room =
      .ok ({ bytesConsumed := input.length, produced := [], status := .continue },
        heading lib (held ++ input)) := by
  have hheld : (heading lib held).headerBuf = held := rfl
  rw [readHeader, if_neg hnil]
  simp only [hheld, hfound]
  rfl

theorem decompress_heading (hlib : Inflates lib g Stands) (hd : Heading lib g c u d)
    (hinput : input <+: g.packed.drop c) (hend : input = [] → g.packed.length ≤ c) (hroom : 0 < room) :
    Serves lib g Stands 0 c u (g.packed.length + 2 + g.plain.length + g.blocks - c) input room
      (d.decompress lib input room) := by
  obtain ⟨hle, hparse⟩ := tryParseHeader_take g.header g.gzip
  have hshort := hd.short
  have hu := hd.none_made
  subst hu
  have hne : input ≠ [] := by
    intro hnil
    have := hend hnil
    omega
  have hpos := List.length_pos_of_ne_nil hne
  have hinlen := hinput.length_le
  rw [List.length_drop] at hinlen
  have hheld : (g.packed.take c).length = c := by
    rw [List.length_take]
    omega
  have hjoined := take_append_of_prefix hinput
  have hread : d.decompress lib input room = readHeader lib
      (heading lib (g.packed.take c)) input room := by
    rw [hd.fresh]
    rfl
  have hnil : ¬ input.isEmpty = true := by
    rw [List.isEmpty_iff]
    exact hne
  rw [hread]
  by_cases hwhole : g.headerSize ≤ c + input.length
  · have hfound : tryParseHeader (g.packed.take c ++ input) = some g.headerSize := by
      rw [hjoined, hparse, if_pos hwhole]
    rw [readHeader_found hnil hfound g.gzip, afterHeader_heading, hheld]
    -- the decoder after the header
    have hinflating : Inflating g Stands 0 0 g.headerSize
        (headed lib g.headerSize) :=
      ⟨rfl, hlib.fresh, rfl, by
        show Buffer.Holds _ 0 (g.plain.take 0)
        rw [List.take_zero]
        exact Buffer.holds_nil _, rfl, rfl⟩
    have hkept : Kept lib g Stands 0 g.headerSize 0
        (headed lib g.headerSize) :=
      ⟨rfl, rfl, rfl, by show (List.replicate windowSize 0).length = _; exact List.length_replicate,
        (fun sb hsb => by cases hsb), List.nil_prefix, rfl⟩
    by_cases hrest : (input.drop (g.headerSize - c)).isEmpty = true
    · refine ⟨{ bytesConsumed := g.headerSize - c, produced := [], status := .continue },
        (headed lib g.headerSize), _,
        ?_, by show g.headerSize - c ≤ _; omega, Nat.zero_le _, List.nil_prefix,
        .inflating (b := 0) ?_ ?_, (fun h => by cases h), fun _ => ?_⟩
      · rw [if_pos hrest]
      · have hplace : c + (g.headerSize - c) = g.headerSize := by omega
        show Inflating g Stands 0 0 (c + (g.headerSize - c)) _
        rw [hplace]
        exact hinflating
      · have hplace : c + (g.headerSize - c) = g.headerSize := by omega
        show Kept lib g Stands 0 (c + (g.headerSize - c)) _ _
        rw [hplace]
        exact hkept
      · show g.packed.length - (c + (g.headerSize - c)) + 1 + (g.plain.length - (0 + 0)) + (g.blocks - 0) < _
        omega
    · have hmore : input.drop (g.headerSize - c) <+: g.packed.drop g.headerSize := by
        obtain ⟨tail, htail⟩ := hinput
        refine ⟨tail, ?_⟩
        have hplace : g.headerSize = c + (g.headerSize - c) := by omega
        rw [hplace, ← List.drop_drop, ← htail, ← hplace,
          List.drop_append_of_le_length (by omega)]
      have hmorene : input.drop (g.headerSize - c) ≠ [] := by
        intro hnil
        rw [hnil] at hrest
        exact hrest rfl
      obtain ⟨r, d', k, hcall, hstatus, hconsumed, hfit, hmade, hat, hless⟩ :=
        inflateToOutput_at hlib hinflating hkept rfl true hmorene hmore hroom
      rw [List.length_drop] at hconsumed
      have hplace : c + (g.headerSize - c + r.bytesConsumed) = g.headerSize + r.bytesConsumed := by omega
      refine ⟨{ r with bytesConsumed := g.headerSize - c + r.bytesConsumed }, d', k, ?_, ?_, hfit, hmade,
        ?_, (fun h => by rw [show _ = DecompressStatus.continue from hstatus] at h; cases h), fun _ => ?_⟩
      · rw [if_neg hrest, hcall]
      · show g.headerSize - c + r.bytesConsumed ≤ _
        omega
      · show At lib g Stands 0 d' (c + (g.headerSize - c + r.bytesConsumed)) _ _
        rw [hplace]
        exact hat
      · omega
  · have hfound : tryParseHeader (g.packed.take c ++ input) = none := by
      rw [hjoined, hparse, if_neg hwhole]
    refine ⟨{ bytesConsumed := input.length, produced := [], status := .continue },
      heading lib (g.packed.take (c + input.length)), _, ?_,
      Nat.le_refl _, Nat.zero_le _, List.nil_prefix, .heading ⟨rfl, ?_, rfl⟩ rfl,
      (fun h => by cases h), fun _ => ?_⟩
    · rw [readHeader_none hnil hfound, hjoined]
    · show c + input.length < _
      omega
    · show _ - (c + input.length) < _
      omega

/-- One call, wherever the decoder stands. -/
theorem decompress_serves (hlib : Inflates lib g Stands) (hat : At lib g Stands skipped d c u k)
    (hinput : input <+: g.packed.drop c) (hend : input = [] → g.packed.length ≤ c) (hroom : 0 < room) :
    Serves lib g Stands skipped c u k input room (d.decompress lib input room) := by
  have htrailer := g.trailer
  cases hat with
  | heading hd hskip =>
    subst hskip
    exact decompress_heading hlib hd hinput hend hroom
  | @inflating b hd hkept =>
    by_cases hstaged : d.stagePos < d.stage.length
    · obtain ⟨stage, stagePos, out, hflush, hpos, hfit, hmade, hkept'⟩ :=
        flushStage_kept hkept hd.unfinished hstaged hroom
      have hlen := hmade.length_le
      rw [List.length_drop] at hlen
      have hcall : d.decompress lib input room = .ok (d.flushStage room) := by
        rw [decompress, if_pos hstaged]
      rw [hflush] at hcall
      refine ⟨_, _, _, hcall, Nat.zero_le _, hfit, hmade,
        .inflating (b := b) ⟨hd.state, hd.stands, hd.place, hd.window, hd.wrapped,
          hd.unfinished⟩ hkept', (fun h => by cases h), fun _ => ?_⟩
      show g.packed.length - (c + 0) + 1 + (g.plain.length - (u + out.length)) + (g.blocks - b) < _
      omega
    · have hbefore := hlib.within hd.stands
      have hplace := hd.place
      have htsize : 0 < trailerSize := by decide
      have hne : input ≠ [] := by
        intro hnil
        have := hend hnil
        omega
      have hcall : d.decompress lib input room = d.inflateToOutput lib input (!input.isEmpty) room := by
        rw [decompress, if_neg hstaged, hd.state]
        simp only [hkept.replay, List.isEmpty_nil, if_true]
      obtain ⟨r, d', k, hok, hstatus, hconsumed, hfit, hmade, hat, hless⟩ :=
        inflateToOutput_at hlib hd hkept (pending_eq_nil hstaged) (!input.isEmpty) hne hinput hroom
      exact ⟨r, d', k, hcall.trans hok, hconsumed, hfit, hmade, hat,
        (fun h => by rw [hstatus] at h; cases h), fun _ => hless⟩
  | trailing hd hkept =>
    by_cases hstaged : d.stagePos < d.stage.length
    · obtain ⟨stage, stagePos, out, hflush, hpos, hfit, hmade, hkept'⟩ :=
        flushStage_kept hkept hd.unfinished hstaged hroom
      have hlen := hmade.length_le
      rw [List.length_drop] at hlen
      have hcall : d.decompress lib input room = .ok (d.flushStage room) := by
        rw [decompress, if_pos hstaged]
      rw [hflush] at hcall
      refine ⟨_, _, _, hcall, Nat.zero_le _, hfit, hmade,
        .trailing ⟨hd.state, hd.all, hd.unfinished⟩ hkept', (fun h => by cases h), fun _ => ?_⟩
      show g.packed.length - (c + 0) + (g.plain.length - (u + out.length)) < _
      omega
    · obtain ⟨r, hr, hstate, hplace⟩ := hd.state
      have hnone := pending_eq_nil hstaged
      have hu : u = g.plain.length := by
        have := hkept.totalOut
        rw [hnone, List.length_nil, hd.all] at this
        omega
      have hne : input ≠ [] := by
        intro hnil
        have := hend hnil
        omega
      have hpos := List.length_pos_of_ne_nil hne
      have hinlen := hinput.length_le
      rw [List.length_drop] at hinlen
      have hnil : ¬ input.isEmpty = true := by
        rw [List.isEmpty_iff]
        exact hne
      have hcall : d.decompress lib input room = d.readTrailer r input := by
        rw [decompress, if_neg hstaged, hstate]
      have hkept' : ∀ state finished, Kept lib g Stands skipped (c + min r input.length) (u + 0)
          { d with headerState := state, finished } := by
        intro state finished
        refine ⟨hkept.replay, hkept.raw, hkept.headerSize, hkept.dictBuf, ?_, hkept.pending, hkept.totalOut⟩
        intro sb hsb
        have hsaved := hkept.boundary sb hsb
        exact ⟨hsaved.resumes, Nat.le_trans hsaved.passed (Nat.le_add_right _ _), hsaved.window⟩
      by_cases hlast : r - min r input.length = 0
      · refine ⟨{ bytesConsumed := min r input.length, produced := [], status := .streamEnd },
          { d with finished := true, headerState := .finished }, 0, ?_, Nat.min_le_right _ _,
          Nat.zero_le _, List.nil_prefix, .finished ⟨rfl, ?_, hu, hnone⟩ (hkept' _ _), fun _ => hu,
          fun h => by cases h⟩
        · rw [hcall, readTrailer, if_neg hnil]
          exact if_pos hlast
        · show c + min r input.length ≤ _
          omega
      · refine ⟨{ bytesConsumed := min r input.length, produced := [], status := .continue },
          { d with headerState := .trailer (r - min r input.length) }, _, ?_, Nat.min_le_right _ _,
          Nat.zero_le _, List.nil_prefix,
          .trailing ⟨⟨r - min r input.length, Nat.pos_of_ne_zero hlast, rfl, ?_⟩, hd.all, hd.unfinished⟩
            (hkept' _ d.finished), (fun h => by cases h), fun _ => ?_⟩
        · rw [hcall, readTrailer, if_neg hnil]
          exact if_neg hlast
        · show c + min r input.length + (r - min r input.length) = _
          omega
        · show g.packed.length - (c + min r input.length) + (g.plain.length - (u + 0)) < _
          omega
  | finished hd hkept =>
    have hstaged : ¬ d.stagePos < d.stage.length := by
      have hlen := congrArg List.length hd.none_pending
      rw [pending, List.length_drop, List.length_nil] at hlen
      omega
    refine ⟨{ bytesConsumed := 0, produced := [], status := .streamEnd }, d, 0, ?_, Nat.zero_le _,
      Nat.zero_le _, List.nil_prefix, .finished hd hkept, fun _ => hd.all, fun h => by cases h⟩
    rw [decompress, if_neg hstaged, hd.state]

end Call

/-- From wherever the decoder stands, every feeding ends with exactly the remaining output. -/
theorem ends_at (hlib : Inflates lib g Stands) {skipped c u k : Nat} {d : GzipDecompressor ο β}
    (hat : At lib g Stands skipped d c u k) (cuts : Nat → Nat × Nat) :
    ∃ e, EndsAs (asCall (decompress lib)) (g.packed.drop c) cuts d e ∧ e.outcome = none ∧
      e.output = g.plain.drop u := by
  have hturns : ∀ k (x : Going (GzipDecompressor ο β) Byte) cut,
      At lib g Stands skipped x.state (c + x.consumed) (u + x.output.length) k ∧
        x.output <+: g.plain.drop u →
      (∃ e : Ending Fault Byte, turn (asCall (decompress lib)) (g.packed.drop c) cut x = .ended e ∧
        e.outcome = none ∧ e.output = g.plain.drop u) ∨
      ∃ x' k', turn (asCall (decompress lib)) (g.packed.drop c) cut x = .going x' ∧
        (At lib g Stands skipped x'.state (c + x'.consumed) (u + x'.output.length) k' ∧
          x'.output <+: g.plain.drop u) ∧ k' < k := by
    rintro k x cut ⟨hat, hout⟩
    have hslice : (((g.packed.drop c).drop x.consumed).take (cut.1 + 1)) <+:
        g.packed.drop (c + x.consumed) := by
      rw [List.drop_drop]
      exact List.take_prefix _ _
    have hend : ((g.packed.drop c).drop x.consumed).take (cut.1 + 1) = [] →
        g.packed.length ≤ c + x.consumed := by
      intro hnil
      have hlen := congrArg List.length hnil
      rw [List.length_take, List.length_drop, List.length_drop, List.length_nil] at hlen
      omega
    obtain ⟨r, d', k', hcall, _, _, hmade, hat', hended, hless⟩ :=
      decompress_serves hlib hat hslice hend (Nat.succ_pos cut.2)
    have hall := Plan.append_prefix_drop hout hmade
    cases hstatus : r.status with
    | streamEnd =>
      refine .inl ⟨{ outcome := none, consumed := x.consumed + r.bytesConsumed
                     output := x.output ++ r.produced }, ?_, rfl, ?_⟩
      · simp only [Sansio.turn, asCall, hcall, hstatus, beq_self_eq_true, if_true]
      · refine hall.eq_of_length ?_
        have := hended hstatus
        rw [List.length_append, List.length_drop]
        omega
    | «continue» =>
      refine .inr ⟨{ state := d', consumed := x.consumed + r.bytesConsumed
                     output := x.output ++ r.produced }, k', ?_, ⟨?_, hall⟩, hless hstatus⟩
      · simp only [Sansio.turn, asCall, hcall, hstatus]
        rfl
      · rwa [Nat.add_assoc, Nat.add_assoc, ← List.length_append] at hat'
  obtain ⟨n, e, hfeed, he⟩ := ends_of_turns hturns k { state := d, consumed := 0, output := [] } cuts
    ⟨hat, List.nil_prefix⟩
  exact ⟨e, ⟨n, hfeed⟩, he⟩

end GzipDecompressor
end Iluvatar
