/-
What the gzip decoder hands to the inflating library.

A watched library lists the slices it was given, each with how much of it was taken.  The decoder
runs alike with a library and with the same library watched.
-/
import Mathlib.Data.List.Infix
import Iluvatar.Compress.GzipCheckpoint
import Iluvatar.Compress.GzipFormat

namespace Iluvatar

/-- The slices a library was given, each with how many bytes it took. -/
abbrev InflateLog := List (List Byte × Nat)

namespace Inflater

variable {ο β : Type}

/-- The library, with a log. -/
def watched (lib : Inflater ο β) : Inflater (ο × InflateLog) β where
  new := (lib.new, [])
  decompress o input dict pos more :=
    let (reply, inner) := lib.decompress o.1 input dict pos more
    (reply, inner, o.2 ++ [(input, reply.consumed)])
  blockBoundaryState o := lib.blockBoundaryState o.1
  fromBlockBoundaryState b := (lib.fromBlockBoundaryState b, [])

/-- It takes no more than it is given. -/
def Sound (lib : Inflater ο β) : Prop :=
  ∀ o input dict pos more, (lib.decompress o input dict pos more).1.consumed ≤ input.length

end Inflater

/-- The slices follow a stream: each begins where the bytes taken so far end.  `n` bytes are taken. -/
inductive InOrder (stream : List Byte) : InflateLog → Nat → Prop where
  | nil : InOrder stream [] 0
  | call {log : InflateLog} {n k : Nat} {given : List Byte} : InOrder stream log n → given <+: stream.drop n →
      k ≤ given.length → InOrder stream (log ++ [(given, k)]) (n + k)

theorem InOrder.within {stream : List Byte} {log : InflateLog} {n : Nat} (h : InOrder stream log n) :
    n ≤ stream.length := by
  induction h with
  | nil => exact Nat.zero_le _
  | call _ hgiven hk ih =>
    have hlength := hgiven.length_le
    rw [List.length_drop] at hlength
    omega

namespace GzipDecompressor

variable {ο β : Type} {lib : Inflater ο β}

/-! ## Watching changes nothing -/

/-- The decoder without the log. -/
def forget (d : GzipDecompressor (ο × InflateLog) β) : GzipDecompressor ο β :=
  { d with inner := d.inner.1 }

variable (d : GzipDecompressor (ο × InflateLog) β)

/-- An answer without the log. -/
def forgetAnswer (a : Except Fault (DecompressResult × GzipDecompressor (ο × InflateLog) β)) :
    Except Fault (DecompressResult × GzipDecompressor ο β) :=
  a.map fun x => (x.1, x.2.forget)

theorem forget_saveBoundary (status : TinflStatus) :
    d.forget.saveBoundary lib status = (d.saveBoundary lib.watched status).forget := by
  unfold saveBoundary
  by_cases hstatus : status = .blockBoundary
  · rw [if_pos hstatus, if_pos hstatus]
    cases hboundary : lib.blockBoundaryState d.inner.1 with
    | none =>
      have hwatched : lib.watched.blockBoundaryState d.inner = none := hboundary
      simp only [forget, hboundary, hwatched]
    | some boundary =>
      have hwatched : lib.watched.blockBoundaryState d.inner = some boundary := hboundary
      simp only [forget, hboundary, hwatched]
      rfl
  · rw [if_neg hstatus, if_neg hstatus]

theorem forget_doInflate (input : List Byte) (more : Bool) :
    d.forget.doInflate lib input more =
      ((d.doInflate lib.watched input more).1, (d.doInflate lib.watched input more).2.forget) := by
  unfold doInflate
  simp only [← forget_saveBoundary]
  rfl

theorem forget_settle (reply : InflateReply) (given : List Byte) :
    d.forget.settle reply given = forgetAnswer (d.settle reply given) := by
  unfold settle forgetAnswer
  cases reply.status with
  | done =>
    have hsame : (!d.forget.raw && decide (0 < d.forget.headerSize)) = (!d.raw && decide (0 < d.headerSize)) := rfl
    simp only [hsame]
    cases !d.raw && decide (0 < d.headerSize) <;> rfl
  | _ => rfl

theorem forget_staged (extracted : List Byte) (room : Nat) :
    d.forget.staged extracted room = (d.staged extracted room).forget := by
  unfold staged
  by_cases hroom : room < extracted.length
  · rw [if_pos hroom, if_pos hroom]
    rfl
  · rw [if_neg hroom, if_neg hroom]

theorem forget_inflateToOutput (lib : Inflater ο β) (input : List Byte) (more : Bool) (room : Nat) :
    d.forget.inflateToOutput lib input more room = forgetAnswer (d.inflateToOutput lib.watched input more room) := by
  unfold inflateToOutput
  rw [forget_doInflate]
  simp only
  rw [← forget_settle, ← forget_staged]
  rfl

theorem forget_inflateReplay (consumed : Nat) (more : Bool) (room : Nat) :
    d.forget.inflateReplay lib consumed more room = forgetAnswer (d.inflateReplay lib.watched consumed more room) := by
  unfold inflateReplay
  have hinflate := forget_inflateToOutput { d with replay := [] } lib d.replay more room
  have hheld : ({ d.forget with replay := [] } : GzipDecompressor ο β) = forget { d with replay := [] } := rfl
  rw [hheld, show d.forget.replay = d.replay from rfl, hinflate]
  cases inflateToOutput lib.watched { d with replay := [] } d.replay more room <;> rfl

theorem forget_afterHeader (size : Nat) (input : List Byte) (room : Nat) :
    d.forget.afterHeader lib size input room = forgetAnswer (d.afterHeader lib.watched size input room) := by
  unfold afterHeader
  simp only [show d.forget.headerBuf = d.headerBuf from rfl]
  split
  · rfl
  · have hinflate := forget_inflateToOutput
      { d with headerState := .decompressing, headerSize := size, headerBuf := [] }
      lib (input.drop (size - d.headerBuf.length)) true room
    have hheld : ({ d.forget with headerState := .decompressing, headerSize := size, headerBuf := [] } :
        GzipDecompressor ο β) =
        forget { d with headerState := .decompressing, headerSize := size, headerBuf := [] } := rfl
    rw [hheld, hinflate]
    cases inflateToOutput lib.watched { d with headerState := .decompressing, headerSize := size, headerBuf := [] }
      (input.drop (size - d.headerBuf.length)) true room <;> rfl

theorem forget_readHeader (input : List Byte) (room : Nat) :
    d.forget.readHeader lib input room = forgetAnswer (d.readHeader lib.watched input room) := by
  unfold readHeader
  simp only [show d.forget.headerBuf = d.headerBuf from rfl]
  by_cases hinput : input.isEmpty = true
  · rw [if_pos hinput, if_pos hinput]
    split <;> rfl
  · rw [if_neg hinput, if_neg hinput]
    split
    · exact forget_inflateReplay { d with
        headerState := .decompressing, headerSize := 0, replay := d.headerBuf ++ input, headerBuf := [] } _ _ _
    · exact forget_afterHeader d _ _ _
    · rfl

theorem forget_replayHeld (input : List Byte) (room : Nat) :
    d.forget.replayHeld lib input room = forgetAnswer (d.replayHeld lib.watched input room) := by
  unfold replayHeld
  rw [forget_inflateReplay]
  cases inflateReplay lib.watched d 0 true room with
  | error f => rfl
  | ok x =>
    obtain ⟨held, d'⟩ := x
    show (if 0 < held.bytesProduced ∨ d'.headerState ≠ .decompressing then _ else
      if d'.replay.isEmpty then _ else _) = _
    simp only
    split
    · rfl
    · split
      · exact forget_inflateToOutput d' _ _ _ _
      · exact forget_inflateReplay { d' with replay := d'.replay ++ input } _ _ _

theorem forget_decompress (input : List Byte) (room : Nat) :
    d.forget.decompress lib input room = forgetAnswer (d.decompress lib.watched input room) := by
  unfold decompress
  simp only [show d.forget.stagePos = d.stagePos from rfl, show d.forget.stage = d.stage from rfl,
    show d.forget.headerState = d.headerState from rfl, show d.forget.replay = d.replay from rfl]
  split
  · unfold flushStage
    simp only [show d.forget.stagePos = d.stagePos from rfl, show d.forget.stage = d.stage from rfl]
    split <;> rfl
  · split
    · exact forget_readHeader d _ _
    · split
      · exact forget_inflateToOutput d _ _ _ _
      · exact forget_replayHeld d _ _
    · unfold readTrailer
      split
      · rfl
      · dsimp only
        split <;> rfl
    · rfl

/-! ## The calls of the library -/

/-- What can be reached on a stream: calls on what follows in it, with the empty slice only at its end. -/
inductive Reached (lib : Inflater ο β) (packed : List Byte) : GzipDecompressor ο β → Nat → Prop where
  | new : Reached lib packed (new lib) 0
  | call {d d' : GzipDecompressor ο β} {c room : Nat} {input : List Byte} {r : DecompressResult} :
      Reached lib packed d c → input <+: packed.drop c → (input = [] → packed.drop c = []) →
      d.decompress lib input room = .ok (r, d') → Reached lib packed d' (c + r.bytesConsumed)

/-- Every run is one of the watched library. -/
theorem Reached.watched {packed : List Byte} {d : GzipDecompressor ο β} {c : Nat} (h : Reached lib packed d c) :
    ∃ d', Reached lib.watched packed d' c ∧ d'.forget = d := by
  induction h with
  | new => exact ⟨_, .new, rfl⟩
  | @call _ d₁ _ room input r _ hinput hend hok ih =>
    obtain ⟨d', hreached, rfl⟩ := ih
    rw [forget_decompress] at hok
    cases hcall : d'.decompress lib.watched input room with
    | error f =>
      rw [hcall] at hok
      cases hok
    | ok x =>
      obtain ⟨r', d''⟩ := x
      rw [hcall] at hok
      obtain ⟨rfl, rfl⟩ := Prod.mk.inj (Except.ok.inj hok)
      exact ⟨d'', hreached.call hinput hend hcall, rfl⟩

variable {d : GzipDecompressor (ο × InflateLog) β} {d' : GzipDecompressor (ο × InflateLog) β}
  {stream packed given input : List Byte} {size c room : Nat} {start : InflateLog} {r : DecompressResult}

/-- One call of the library, and what is left as it was. -/
structure Inflated (stream given : List Byte) (d : GzipDecompressor (ο × InflateLog) β) (r : DecompressResult)
    (d' : GzipDecompressor (ο × InflateLog) β) : Prop where
  log : d'.inner.2 = d.inner.2 ++ [(given, r.bytesConsumed)]
  ordered : InOrder stream d'.inner.2 d'.deflateIn
  deflateIn : d'.deflateIn = d.deflateIn + r.bytesConsumed
  consumed : r.bytesConsumed ≤ given.length
  headerSize : d'.headerSize = d.headerSize
  raw : d'.raw = d.raw
  replay : d'.replay = d.replay
  headerState : d'.headerState = d.headerState ∨
    (0 < d.headerSize ∧ d'.headerState = .trailer trailerSize) ∨
    (¬ (d.raw = false ∧ 0 < d.headerSize) ∧ d'.headerState = .finished)

theorem saveBoundary_eq (lib : Inflater ο β) (d : GzipDecompressor ο β) (status : TinflStatus) :
    ∃ b, d.saveBoundary lib status = { d with lastBoundary := b } := by
  unfold saveBoundary
  split
  · split
    · exact ⟨_, rfl⟩
    · exact ⟨_, rfl⟩
  · exact ⟨_, rfl⟩

/-- A call of the library moves its counts, its buffer and the boundary. -/
theorem doInflate_eq (lib : Inflater ο β) (d : GzipDecompressor ο β) (given : List Byte) (more : Bool) :
    ∃ o dict pos flag dictBuf dictPos totalOut lastBoundary,
      (d.doInflate lib given more).1 = (lib.decompress o given dict pos flag).1 ∧ o = d.inner ∧
        (d.doInflate lib given more).2 =
          { d with
            inner := (lib.decompress o given dict pos flag).2
            deflateIn := d.deflateIn + (lib.decompress o given dict pos flag).1.consumed
            dictBuf, dictPos, totalOut, lastBoundary } := by
  unfold doInflate
  simp only
  obtain ⟨b, hsaved⟩ := saveBoundary_eq lib
    { d with
      inner := (lib.decompress d.inner given d.dictBuf (d.dictPos % windowSize) (!given.isEmpty || more)).2
      dictBuf := Buffer.splice d.dictBuf (d.dictPos % windowSize)
        (lib.decompress d.inner given d.dictBuf (d.dictPos % windowSize) (!given.isEmpty || more)).1.produced
      dictPos := d.dictPos +
        (lib.decompress d.inner given d.dictBuf (d.dictPos % windowSize) (!given.isEmpty || more)).1.produced.length
      totalOut := d.totalOut +
        (lib.decompress d.inner given d.dictBuf (d.dictPos % windowSize) (!given.isEmpty || more)).1.produced.length
      deflateIn := d.deflateIn +
        (lib.decompress d.inner given d.dictBuf (d.dictPos % windowSize) (!given.isEmpty || more)).1.consumed }
    (lib.decompress d.inner given d.dictBuf (d.dictPos % windowSize) (!given.isEmpty || more)).1.status
  exact ⟨d.inner, d.dictBuf, d.dictPos % windowSize, !given.isEmpty || more, _, _, _, b, rfl, rfl, hsaved⟩

theorem staged_eq (d : GzipDecompressor ο β) (extracted : List Byte) (room : Nat) :
    ∃ stage stagePos, d.staged extracted room = { d with stage, stagePos } := by
  unfold staged
  split
  · exact ⟨_, _, rfl⟩
  · exact ⟨_, _, rfl⟩

/-- What the library's status does to the decoder. -/
theorem settle_cases {d d' : GzipDecompressor ο β} {reply : InflateReply} (h : d.settle reply given = .ok (r, d')) :
    r.bytesConsumed = reply.consumed ∧
      (d' = d ∨ (0 < d.headerSize ∧ d' = { d with headerState := .trailer trailerSize }) ∨
        (¬ (d.raw = false ∧ 0 < d.headerSize) ∧ d' = { d with finished := true, headerState := .finished })) := by
  unfold settle at h
  cases hstatus : reply.status with
  | done =>
    rw [hstatus] at h
    simp only at h
    split at h
    · rename_i htrailer
      obtain ⟨rfl, rfl⟩ := Prod.mk.inj (Except.ok.inj h)
      rw [Bool.and_eq_true, decide_eq_true_iff] at htrailer
      exact ⟨rfl, .inr (.inl ⟨htrailer.2, rfl⟩)⟩
    · rename_i htrailer
      obtain ⟨rfl, rfl⟩ := Prod.mk.inj (Except.ok.inj h)
      refine ⟨rfl, .inr (.inr ⟨fun hheader => htrailer ?_, rfl⟩)⟩
      rw [Bool.and_eq_true, decide_eq_true_iff, Bool.not_eq_true']
      exact hheader
  | needsMoreInput | hasMoreOutput | blockBoundary =>
    rw [hstatus] at h
    obtain ⟨rfl, rfl⟩ := Prod.mk.inj (Except.ok.inj h)
    exact ⟨rfl, .inl rfl⟩
  | failedCannotMakeProgress | failed =>
    rw [hstatus] at h
    cases h

theorem inflateToOutput_spec (hlib : lib.Sound) (h : InOrder stream d.inner.2 d.deflateIn)
    (hgiven : given <+: stream.drop d.deflateIn) {more : Bool}
    (hok : d.inflateToOutput lib.watched given more room = .ok (r, d')) : Inflated stream given d r d' := by
  unfold inflateToOutput at hok
  obtain ⟨o, dict, pos, flag, dictBuf, dictPos, totalOut, b, hreply, rfl, hafter⟩ :=
    doInflate_eq lib.watched d given more
  simp only [hreply, hafter] at hok
  obtain ⟨stage, stagePos, hstaged⟩ := staged_eq
    { d with
      inner := (lib.watched.decompress d.inner given dict pos flag).2
      deflateIn := d.deflateIn + (lib.watched.decompress d.inner given dict pos flag).1.consumed
      dictBuf, dictPos, totalOut, lastBoundary := b }
    (extractOutput { d with
      inner := (lib.watched.decompress d.inner given dict pos flag).2
      deflateIn := d.deflateIn + (lib.watched.decompress d.inner given dict pos flag).1.consumed
      dictBuf, dictPos, totalOut, lastBoundary := b } d.dictPos
      (lib.watched.decompress d.inner given dict pos flag).1.produced.length) room
  rw [hstaged] at hok
  obtain ⟨hconsumed, hcases⟩ := settle_cases hok
  have hlog : (lib.watched.decompress d.inner given dict pos flag).2.2 = d.inner.2 ++ [(given, r.bytesConsumed)] := by
    rw [hconsumed]
    rfl
  have hbound : r.bytesConsumed ≤ given.length := by
    rw [hconsumed]
    exact hlib d.inner.1 given dict pos flag
  have hordered := h.call hgiven hbound
  rw [← hlog] at hordered
  rw [← hconsumed] at hcases
  rcases hcases with rfl | ⟨hheader, rfl⟩ | ⟨hheader, rfl⟩
  · exact ⟨hlog, hordered, rfl, hbound, rfl, rfl, rfl, .inl rfl⟩
  · exact ⟨hlog, hordered, rfl, hbound, rfl, rfl, rfl, .inr (.inl ⟨hheader, rfl⟩)⟩
  · exact ⟨hlog, hordered, rfl, hbound, rfl, rfl, rfl, .inr (.inr ⟨hheader, rfl⟩)⟩

/-- What the library is given and took is logged last. -/
theorem inflateToOutput_log {more : Bool} (hok : d.inflateToOutput lib.watched given more room = .ok (r, d')) :
    d'.inner.2 = d.inner.2 ++ [(given, r.bytesConsumed)] := by
  unfold inflateToOutput at hok
  obtain ⟨o, dict, pos, flag, dictBuf, dictPos, totalOut, b, hreply, rfl, hafter⟩ :=
    doInflate_eq lib.watched d given more
  simp only [hreply, hafter] at hok
  obtain ⟨stage, stagePos, hstaged⟩ := staged_eq _ _ room
  rw [hstaged] at hok
  obtain ⟨hconsumed, hcases⟩ := settle_cases hok
  have hinner : d'.inner = (lib.watched.decompress d.inner given dict pos flag).2 := by
    rcases hcases with rfl | ⟨-, rfl⟩ | ⟨-, rfl⟩ <;> rfl
  rw [hinner, hconsumed]
  rfl

theorem inflateReplay_log {consumed : Nat} {more : Bool}
    (hok : d.inflateReplay lib.watched consumed more room = .ok (r, d')) :
    ∃ k, d'.inner.2 = d.inner.2 ++ [(d.replay, k)] := by
  unfold inflateReplay at hok
  cases hcall : inflateToOutput lib.watched { d with replay := [] } d.replay more room with
  | error f =>
    rw [hcall] at hok
    cases hok
  | ok x =>
    obtain ⟨r₁, d₁⟩ := x
    have hlog := inflateToOutput_log hcall
    rw [hcall] at hok
    obtain ⟨rfl, rfl⟩ := Prod.mk.inj (Except.ok.inj hok)
    exact ⟨r₁.bytesConsumed, hlog⟩

/-- How much of the trailer is taken. -/
def trailerTaken (d : GzipDecompressor ο β) : Nat :=
  match d.headerState with
  | .trailer remaining => trailerSize - remaining
  | .finished => if 0 < d.headerSize then trailerSize else 0
  | _ => 0

/-- The header is past.  `stream` begins where the header of `size` bytes ended, and the log with `start`;
what is held for the library follows what it took. -/
structure Handed (stream : List Byte) (size : Nat) (start : InflateLog) (d : GzipDecompressor (ο × InflateLog) β)
    (c : Nat) : Prop where
  past : d.headerState ≠ .readingFixedHeader
  raw : d.raw = false
  headerSize : d.headerSize = size
  begun : start <+: d.inner.2
  ordered : InOrder stream d.inner.2 d.deflateIn
  held : d.replay <+: stream.drop d.deflateIn
  none_held : 0 < size → d.replay = []
  trailer : ∀ remaining, d.headerState = .trailer remaining → 0 < size ∧ remaining ≤ trailerSize
  count : c = size + d.deflateIn + d.replay.length + d.trailerTaken

/-- The library took input that follows in the stream. -/
theorem Handed.inflated (h : Handed stream size start d c) (hstate : d.headerState = .decompressing)
    (hreplay : d'.replay = []) (hinflated : Inflated stream given d r d') (hnone : d.replay = []) :
    Handed stream size start d' (c + r.bytesConsumed) := by
  have htaken : d.trailerTaken = 0 := by
    rw [trailerTaken, hstate]
  have hcount := h.count
  rw [htaken, hnone, List.length_nil] at hcount
  have hdeflate := hinflated.deflateIn
  have hsize := hinflated.headerSize.trans h.headerSize
  have hrest : d'.headerState ≠ .readingFixedHeader ∧
      (∀ remaining, d'.headerState = .trailer remaining → 0 < size ∧ remaining ≤ trailerSize) ∧
      d'.trailerTaken = 0 := by
    rcases hinflated.headerState with hsame | ⟨hheader, htrailer⟩ | ⟨hheader, hfinished⟩
    · rw [trailerTaken, hsame, hstate]
      exact ⟨nofun, nofun, rfl⟩
    · rw [trailerTaken, htrailer]
      refine ⟨nofun, ?_, Nat.sub_self _⟩
      intro remaining hremaining
      obtain rfl := GzipHeaderState.trailer.inj hremaining
      exact ⟨h.headerSize ▸ hheader, Nat.le_refl _⟩
    · rw [trailerTaken, hfinished]
      refine ⟨nofun, nofun, ?_⟩
      rw [if_neg]
      intro hsome
      exact hheader ⟨h.raw, hinflated.headerSize ▸ hsome⟩
  refine ⟨hrest.1, hinflated.raw.trans h.raw, hsize, ?_, hinflated.ordered, ?_, fun _ => hreplay, hrest.2.1, ?_⟩
  · rw [hinflated.log]
    exact h.begun.trans (List.prefix_append _ _)
  · rw [hreplay]
    exact List.nil_prefix
  · rw [hreplay, hrest.2.2, List.length_nil]
    omega

/-- Bytes held are handed over first; none of them is reported again. -/
theorem inflateReplay_handed (hlib : lib.Sound) (h : Handed stream size start d c)
    (hstate : d.headerState = .decompressing) {consumed : Nat} {more : Bool}
    (hok : d.inflateReplay lib.watched consumed more room = .ok (r, d')) :
    Handed stream size start d' c ∧ r.bytesConsumed = consumed := by
  unfold inflateReplay at hok
  cases hcall : inflateToOutput lib.watched { d with replay := [] } d.replay more room with
  | error f =>
    rw [hcall] at hok
    cases hok
  | ok x =>
    obtain ⟨r₁, d₁⟩ := x
    rw [hcall] at hok
    obtain ⟨rfl, rfl⟩ := Prod.mk.inj (Except.ok.inj hok)
    have hinflated : Inflated stream d.replay { d with replay := [] } r₁ d₁ :=
      inflateToOutput_spec hlib h.ordered h.held hcall
    have hempty : Handed stream size start { d with replay := [] } (c - d.replay.length) := by
      refine ⟨h.past, h.raw, h.headerSize, h.begun, h.ordered, List.nil_prefix, fun _ => rfl, h.trailer, ?_⟩
      have hcount := h.count
      show c - d.replay.length = size + d.deflateIn + 0 + d.trailerTaken
      omega
    have hafter := hempty.inflated hstate hinflated.replay hinflated rfl
    have hbound := hinflated.consumed
    have hnone := hinflated.replay
    have hdeflate : d₁.deflateIn = d.deflateIn + r₁.bytesConsumed := hinflated.deflateIn
    have hcount := hafter.count
    rw [hnone, List.length_nil] at hcount
    have hcount' := h.count
    refine ⟨⟨hafter.past, hafter.raw, hafter.headerSize, hafter.begun, hafter.ordered, ?_, fun hsome => ?_,
      hafter.trailer, ?_⟩, rfl⟩
    · show d.replay.drop r₁.bytesConsumed <+: stream.drop d₁.deflateIn
      rw [hdeflate, ← List.drop_drop]
      exact h.held.drop _
    · show d.replay.drop r₁.bytesConsumed = []
      rw [h.none_held hsome, List.drop_nil]
    · show c = size + d₁.deflateIn + (d.replay.drop r₁.bytesConsumed).length + d₁.trailerTaken
      rw [List.length_drop]
      omega

/-- What follows in the packed bytes follows what is held. -/
theorem Handed.follows (h : Handed stream size start d c) (hstream : packed.drop size = stream)
    (hstate : d.headerState = .decompressing) (hinput : input <+: packed.drop c) :
    d.replay ++ input <+: stream.drop d.deflateIn := by
  obtain ⟨rest, hrest⟩ := h.held
  have htaken : d.trailerTaken = 0 := by
    rw [trailerTaken, hstate]
  have hcount := h.count
  rw [htaken] at hcount
  have hmore : packed.drop c = rest := by
    rw [show c = size + (d.deflateIn + d.replay.length) by omega, ← List.drop_drop, hstream, ← List.drop_drop, ← hrest,
      List.drop_left]
  rw [hmore] at hinput
  rw [← hrest]
  exact (List.prefix_append_right_inj _).mpr hinput

theorem replayHeld_handed (hlib : lib.Sound) (h : Handed stream size start d c) (hstream : packed.drop size = stream)
    (hstate : d.headerState = .decompressing) (hinput : input <+: packed.drop c)
    (hok : d.replayHeld lib.watched input room = .ok (r, d')) :
    Handed stream size start d' (c + r.bytesConsumed) := by
  unfold replayHeld at hok
  cases hcall : d.inflateReplay lib.watched 0 true room with
  | error f =>
    rw [hcall] at hok
    cases hok
  | ok x =>
    obtain ⟨r₁, d₁⟩ := x
    obtain ⟨hfirst, hnone⟩ := inflateReplay_handed hlib h hstate hcall
    rw [hcall] at hok
    simp only at hok
    by_cases hstop : 0 < r₁.bytesProduced ∨ d₁.headerState ≠ .decompressing
    · rw [if_pos hstop] at hok
      obtain ⟨rfl, rfl⟩ := Prod.mk.inj (Except.ok.inj hok)
      rw [hnone]
      exact hfirst
    · rw [if_neg hstop] at hok
      have hstate₁ : d₁.headerState = .decompressing := not_not.mp fun hne => hstop (.inr hne)
      have hfollows := hfirst.follows hstream hstate₁ hinput
      by_cases hempty : d₁.replay = []
      · rw [if_pos (by rw [hempty]; rfl)] at hok
        rw [hempty, List.nil_append] at hfollows
        have hinflated := inflateToOutput_spec hlib hfirst.ordered hfollows hok
        exact hfirst.inflated hstate₁ (hinflated.replay.trans hempty) hinflated hempty
      · rw [if_neg (by simpa using hempty)] at hok
        have hmore : Handed stream size start { d₁ with replay := d₁.replay ++ input } (c + input.length) := by
          refine ⟨hfirst.past, hfirst.raw, hfirst.headerSize, hfirst.begun, hfirst.ordered, hfollows,
            fun hsome => absurd (hfirst.none_held hsome) hempty, hfirst.trailer, ?_⟩
          have hcount := hfirst.count
          show c + input.length = size + d₁.deflateIn + (d₁.replay ++ input).length + d₁.trailerTaken
          rw [List.length_append]
          omega
        obtain ⟨hlast, hconsumed⟩ := inflateReplay_handed hlib hmore hstate₁ hok
        rw [hconsumed]
        exact hlast

theorem flushStage_cases {d d' : GzipDecompressor ο β} (h : d.flushStage room = (r, d')) :
    ∃ stage stagePos, d' = { d with stage, stagePos } ∧ r.bytesConsumed = 0 := by
  unfold flushStage at h
  simp only at h
  split at h
  · obtain ⟨rfl, rfl⟩ := Prod.mk.inj h
    exact ⟨_, _, rfl, rfl⟩
  · obtain ⟨rfl, rfl⟩ := Prod.mk.inj h
    exact ⟨_, _, rfl, rfl⟩

/-- A call past the header. -/
theorem decompress_handed (hlib : lib.Sound) (h : Handed stream size start d c) (hstream : packed.drop size = stream)
    (hinput : input <+: packed.drop c) (hok : d.decompress lib.watched input room = .ok (r, d')) :
    Handed stream size start d' (c + r.bytesConsumed) := by
  unfold decompress at hok
  by_cases hstage : d.stagePos < d.stage.length
  · rw [if_pos hstage] at hok
    obtain ⟨stage, stagePos, rfl, hnone⟩ := flushStage_cases (Except.ok.inj hok)
    rw [hnone]
    exact ⟨h.past, h.raw, h.headerSize, h.begun, h.ordered, h.held, h.none_held, h.trailer, h.count⟩
  · rw [if_neg hstage] at hok
    cases hstate : d.headerState with
    | readingFixedHeader => exact absurd hstate h.past
    | decompressing =>
      rw [hstate] at hok
      simp only at hok
      by_cases hheld : d.replay = []
      · rw [if_pos (by rw [hheld]; rfl)] at hok
        have hfollows := h.follows hstream hstate hinput
        rw [hheld, List.nil_append] at hfollows
        have hinflated := inflateToOutput_spec hlib h.ordered hfollows hok
        exact h.inflated hstate (hinflated.replay.trans hheld) hinflated hheld
      · rw [if_neg (by simpa using hheld)] at hok
        exact replayHeld_handed hlib h hstream hstate hinput hok
    | trailer remaining =>
      obtain ⟨hsome, hbound⟩ := h.trailer remaining hstate
      have hcount := h.count
      rw [trailerTaken, hstate] at hcount
      simp only at hcount
      rw [hstate] at hok
      unfold readTrailer at hok
      simp only at hok
      split at hok
      · cases hok
      · split at hok
        · rename_i hlast
          obtain ⟨rfl, rfl⟩ := Prod.mk.inj (Except.ok.inj hok)
          refine ⟨nofun, h.raw, h.headerSize, h.begun, h.ordered, h.held, h.none_held, nofun, ?_⟩
          show c + min remaining input.length = size + d.deflateIn + d.replay.length +
            if 0 < d.headerSize then trailerSize else 0
          rw [if_pos (h.headerSize ▸ hsome)]
          omega
        · rename_i hmore
          obtain ⟨rfl, rfl⟩ := Prod.mk.inj (Except.ok.inj hok)
          refine ⟨nofun, h.raw, h.headerSize, h.begun, h.ordered, h.held, h.none_held, ?_, ?_⟩
          · intro left hleft
            obtain rfl := GzipHeaderState.trailer.inj hleft
            exact ⟨hsome, by omega⟩
          · show c + min remaining input.length = size + d.deflateIn + d.replay.length +
              (trailerSize - (remaining - min remaining input.length))
            omega
    | finished =>
      rw [hstate] at hok
      obtain ⟨rfl, rfl⟩ := Prod.mk.inj (Except.ok.inj hok)
      exact h

/-- The header of `size` bytes is known once `bound` bytes are there; where there is none, `size` is
zero. -/
structure Parses (packed : List Byte) (bound size : Nat) : Prop where
  parse : ∀ k, k ≤ packed.length → tryParseHeader (packed.take k) = if bound ≤ k then some size else none
  bound_pos : 0 < bound
  same : size = bound ∨ size = 0

/-- The header is not known yet: its bytes are held. -/
structure Holding (packed : List Byte) (bound : Nat) (d : GzipDecompressor (ο × InflateLog) β) (c : Nat) : Prop where
  reading : d.headerState = .readingFixedHeader
  raw : d.raw = false
  log : d.inner.2 = []
  deflateIn : d.deflateIn = 0
  replay : d.replay = []
  within : c ≤ packed.length
  headerBuf : d.headerBuf = packed.take c
  early : c < bound

variable {bound : Nat}

/-- What was reached: the header is not known, or past.  Without one, the first slice handed over holds all
that had been read. -/
def Stands (packed : List Byte) (bound size : Nat) (d : GzipDecompressor (ο × InflateLog) β) (c : Nat) : Prop :=
  Holding packed bound d c ∨ ∃ start, Handed (packed.drop size) size start d c ∧
    (size = 0 → ∃ n k, bound ≤ n ∧ start = [(packed.take n, k)])

/-- The slice that completes the header. -/
theorem afterHeader_handed (hlib : lib.Sound) (hparses : Parses packed bound size) (h : Holding packed bound d c)
    (hsize : size = bound) (hinput : input <+: packed.drop c)
    (hok : d.afterHeader lib.watched size input room = .ok (r, d')) :
    Handed (packed.drop size) size [] d' (c + r.bytesConsumed) := by
  have hearly := h.early
  have hpos := hparses.bound_pos
  have hbuf : d.headerBuf.length = c := by
    have hwithin := h.within
    rw [h.headerBuf, List.length_take]
    omega
  have hrest : input.drop (size - c) <+: (packed.drop size).drop 0 := by
    have hmore := hinput.drop (size - c)
    rwa [List.drop_drop, show c + (size - c) = size by omega] at hmore
  have hstart : Handed (packed.drop size) size []
      { d with headerState := .decompressing, headerSize := size, headerBuf := [] } size := by
    refine ⟨nofun, h.raw, rfl, List.nil_prefix, ?_, ?_, fun _ => h.replay, nofun, ?_⟩
    · show InOrder _ d.inner.2 d.deflateIn
      rw [h.log, h.deflateIn]
      exact .nil
    · show d.replay <+: _
      rw [h.replay]
      exact List.nil_prefix
    · show size = size + d.deflateIn + d.replay.length + 0
      rw [h.deflateIn, h.replay]
      rfl
  unfold afterHeader at hok
  rw [hbuf] at hok
  simp only at hok
  by_cases hempty : (input.drop (size - c)).isEmpty = true
  · rw [if_pos hempty] at hok
    obtain ⟨rfl, rfl⟩ := Prod.mk.inj (Except.ok.inj hok)
    rw [show c + (size - c) = size by omega]
    exact hstart
  · rw [if_neg hempty] at hok
    cases hcall : inflateToOutput lib.watched
        { d with headerState := .decompressing, headerSize := size, headerBuf := [] } (input.drop (size - c)) true
        room with
    | error f =>
      rw [hcall] at hok
      cases hok
    | ok x =>
      obtain ⟨r₁, d₁⟩ := x
      rw [hcall] at hok
      obtain ⟨rfl, rfl⟩ := Prod.mk.inj (Except.ok.inj hok)
      have hinflated := inflateToOutput_spec hlib hstart.ordered (by
        show _ <+: (packed.drop size).drop d.deflateIn
        rw [h.deflateIn]
        exact hrest) hcall
      have hafter := hstart.inflated rfl (hinflated.replay.trans h.replay) hinflated h.replay
      show Handed _ _ _ _ (c + (size - c + r₁.bytesConsumed))
      rwa [show c + (size - c + r₁.bytesConsumed) = size + r₁.bytesConsumed by omega]

theorem readHeader_stands (hlib : lib.Sound) (hparses : Parses packed bound size) (h : Holding packed bound d c)
    (hinput : input <+: packed.drop c) (hok : d.readHeader lib.watched input room = .ok (r, d')) :
    Stands packed bound size d' (c + r.bytesConsumed) := by
  unfold readHeader at hok
  by_cases hempty : input.isEmpty = true
  · rw [if_pos hempty] at hok
    split at hok
    · cases hok
    · obtain ⟨rfl, rfl⟩ := Prod.mk.inj (Except.ok.inj hok)
      exact .inl h
  rw [if_neg hempty] at hok
  have hlength := hinput.length_le
  rw [List.length_drop] at hlength
  have hwithin := h.within
  have hbuf : d.headerBuf ++ input = packed.take (c + input.length) := by
    rw [h.headerBuf, List.take_add, ← List.prefix_iff_eq_take.mp hinput]
  have hparse := hparses.parse (c + input.length) (by omega)
  rw [← hbuf] at hparse
  simp only at hok
  by_cases hlong : bound ≤ c + input.length
  · rw [if_pos hlong] at hparse
    rw [hparse] at hok
    rcases hparses.same with hsize | hzero
    · obtain ⟨more, hmore⟩ : ∃ more, size = more + 1 := ⟨size - 1, by have := hparses.bound_pos; omega⟩
      rw [hmore] at hok
      simp only at hok
      rw [← hmore] at hok
      exact .inr ⟨[], afterHeader_handed hlib hparses h hsize hinput hok,
        fun hzero => by have := hparses.bound_pos; omega⟩
    · subst hzero
      simp only at hok
      have hstart : Handed packed 0 []
          { d with
            headerState := .decompressing, headerSize := 0, replay := d.headerBuf ++ input, headerBuf := [] }
          (c + input.length) := by
        refine ⟨nofun, h.raw, rfl, List.nil_prefix, ?_, ?_, fun hsome => absurd hsome (Nat.lt_irrefl 0), nofun, ?_⟩
        · show InOrder _ d.inner.2 d.deflateIn
          rw [h.log, h.deflateIn]
          exact .nil
        · show d.headerBuf ++ input <+: packed.drop d.deflateIn
          rw [h.deflateIn, hbuf, List.drop_zero]
          exact List.take_prefix _ _
        · show c + input.length = 0 + d.deflateIn + (d.headerBuf ++ input).length + 0
          rw [h.deflateIn, hbuf, List.length_take]
          omega
      obtain ⟨hlast, hconsumed⟩ := inflateReplay_handed hlib hstart rfl hok
      obtain ⟨k, hlog⟩ := inflateReplay_log hok
      have hlog' : d'.inner.2 = [(packed.take (c + input.length), k)] := by
        rw [hlog]
        show d.inner.2 ++ [(d.headerBuf ++ input, k)] = _
        rw [h.log, hbuf, List.nil_append]
      rw [hconsumed]
      refine .inr ⟨[(packed.take (c + input.length), k)], ?_, fun _ => ⟨_, k, hlong, rfl⟩⟩
      exact ⟨hlast.past, hlast.raw, hlast.headerSize, hlog' ▸ List.prefix_refl _, hlast.ordered, hlast.held,
        hlast.none_held, hlast.trailer, hlast.count⟩
  · rw [if_neg hlong] at hparse
    rw [hparse] at hok
    obtain ⟨rfl, rfl⟩ := Prod.mk.inj (Except.ok.inj hok)
    refine .inl ⟨h.reading, h.raw, h.log, h.deflateIn, h.replay, ?_, hbuf, Nat.lt_of_not_le hlong⟩
    show c + input.length ≤ packed.length
    omega

theorem decompress_stands (hlib : lib.Sound) (hparses : Parses packed bound size) (h : Stands packed bound size d c)
    (hinput : input <+: packed.drop c) (hok : d.decompress lib.watched input room = .ok (r, d')) :
    Stands packed bound size d' (c + r.bytesConsumed) := by
  rcases h with h | ⟨start, h, hfirst⟩
  · unfold decompress at hok
    by_cases hstage : d.stagePos < d.stage.length
    · rw [if_pos hstage] at hok
      obtain ⟨stage, stagePos, rfl, hnone⟩ := flushStage_cases (Except.ok.inj hok)
      rw [hnone]
      exact .inl ⟨h.reading, h.raw, h.log, h.deflateIn, h.replay, h.within, h.headerBuf, h.early⟩
    · rw [if_neg hstage, h.reading] at hok
      exact readHeader_stands hlib hparses h hinput hok
  · exact .inr ⟨start, decompress_handed hlib h rfl hinput hok, hfirst⟩

theorem Reached.stands (hlib : lib.Sound) (hparses : Parses packed bound size) (h : Reached lib.watched packed d c) :
    Stands packed bound size d c := by
  induction h with
  | new => exact .inl ⟨rfl, rfl, rfl, rfl, rfl, Nat.zero_le _, rfl, hparses.bound_pos⟩
  | call _ hinput _ hok ih => exact decompress_stands hlib hparses ih hinput hok

end GzipDecompressor
end Iluvatar
