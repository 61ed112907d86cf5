/-
Where a gzip decoder stands in a stream.

What is assumed of the library is stated over the deflate data of one stream: it takes and
makes what comes next, provided the circular buffer holds the last output, it stops once at
each block boundary, and its state there can be resumed.  The decoder then keeps the
buffer, the counts and the last boundary saved, in deflate bytes counted since the decoder
was created or restored.
-/
import Iluvatar.Compress.GzipHeader
import Iluvatar.Compress.Stage
import Iluvatar.Library.Ring

namespace Iluvatar

variable {ο β : Type}

/-- A gzip member: the header, the deflate data and the trailer. -/
structure GzipMember where
  packed : List Byte
  plain : List Byte
  headerSize : Nat
  deflateSize : Nat
  blocks : Nat
  header : GzipDecompressor.tryParseHeader packed = some headerSize
  gzip : 0 < headerSize
  trailer : headerSize + deflateSize + trailerSize ≤ packed.length

/-- The library on the deflate data of a member.  `Stands o b n m` says that state `o` has
finished `b` blocks, taken `n` bytes and made `m`. -/
structure Inflates (lib : Inflater ο β) (g : GzipMember) (Stands : ο → Nat → Nat → Nat → Prop) :
    Prop where
  fresh : Stands lib.new 0 0 0
  within : ∀ {o b n m}, Stands o b n m → b ≤ g.blocks ∧ n ≤ g.deflateSize ∧ m ≤ g.plain.length
  takes : ∀ {o b n m input dict pos}, Stands o b n m → input ≠ [] →
    input <+: g.packed.drop (g.headerSize + n) → dict.length = windowSize → pos < windowSize →
    Buffer.Holds dict pos (g.plain.take m) →
    (lib.decompress o input dict pos true).1.consumed ≤ input.length ∧
    pos + (lib.decompress o input dict pos true).1.produced.length ≤ windowSize ∧
    (lib.decompress o input dict pos true).1.produced <+: g.plain.drop m
  stops : ∀ {o b n m input dict pos}, Stands o b n m → input ≠ [] →
    input <+: g.packed.drop (g.headerSize + n) → dict.length = windowSize → pos < windowSize →
    Buffer.Holds dict pos (g.plain.take m) →
    ∀ reply o', lib.decompress o input dict pos true = (reply, o') →
      (reply.status = .blockBoundary ∧
        Stands o' (b + 1) (n + reply.consumed) (m + reply.produced.length) ∧
        ∃ s, lib.blockBoundaryState o' = some s ∧
          Stands (lib.fromBlockBoundaryState s) (b + 1) (n + reply.consumed) (m + reply.produced.length)) ∨
      (reply.status = .done ∧ n + reply.consumed = g.deflateSize ∧
        m + reply.produced.length = g.plain.length) ∨
      ((reply.status = .needsMoreInput ∨ reply.status = .hasMoreOutput) ∧
        Stands o' b (n + reply.consumed) (m + reply.produced.length) ∧
        (0 < reply.consumed ∨ 0 < reply.produced.length))

namespace GzipDecompressor

variable {lib : Inflater ο β} {g : GzipMember} {Stands : ο → Nat → Nat → Nat → Prop}

/-- Output made and not given out yet. -/
def pending (d : GzipDecompressor ο β) : List Byte := d.stage.drop d.stagePos

/-- The boundary saved is one the decoder passed, `skipped` deflate bytes from where it was
created or restored being left out of its count. -/
structure Saved (lib : Inflater ο β) (g : GzipMember) (Stands : ο → Nat → Nat → Nat → Prop)
    (skipped c : Nat) (sb : SavedBoundary β) : Prop where
  resumes : ∃ b n, Stands (lib.fromBlockBoundaryState sb.blockState) b n sb.uncompressedOffset ∧
    sb.compressedOffset + skipped = g.headerSize + n
  passed : sb.compressedOffset + skipped ≤ c
  window : sb.window = (g.plain.take sb.uncompressedOffset).drop
    ((g.plain.take sb.uncompressedOffset).length - windowSize)

/-- The decoder inflates: `b` blocks are finished and `n` deflate bytes taken. -/
structure Inflating (g : GzipMember) (Stands : ο → Nat → Nat → Nat → Prop) (skipped b c : Nat)
    (d : GzipDecompressor ο β) : Prop where
  state : d.headerState = .decompressing
  stands : Stands d.inner b (d.deflateIn + skipped) d.totalOut
  place : c = g.headerSize + (d.deflateIn + skipped)
  window : Buffer.Holds d.dictBuf d.dictPos (g.plain.take d.totalOut)
  wrapped : min d.dictPos windowSize = min d.totalOut windowSize
  unfinished : d.finished = false

/-- What holds from the header on. -/
structure Kept (lib : Inflater ο β) (g : GzipMember) (Stands : ο → Nat → Nat → Nat → Prop)
    (skipped c u : Nat) (d : GzipDecompressor ο β) : Prop where
  replay : d.replay = []
  raw : d.raw = false
  headerSize : d.headerSize = g.headerSize
  dictBuf : d.dictBuf.length = windowSize
  boundary : ∀ sb, d.lastBoundary = some sb → Saved lib g Stands skipped c sb
  pending : d.pending <+: g.plain.drop u
  totalOut : d.totalOut = u + d.pending.length

/-- A fresh decoder that holds the bytes of a header read so far. -/
def heading (lib : Inflater ο β) (held : List Byte) : GzipDecompressor ο β :=
  { GzipDecompressor.new lib with headerBuf := held }

/-- A fresh decoder that has read a header. -/
def headed (lib : Inflater ο β) (headerSize : Nat) : GzipDecompressor ο β :=
  { GzipDecompressor.new lib with headerState := .decompressing, headerSize, headerBuf := [] }

/-- The header is being read. -/
structure Heading (lib : Inflater ο β) (g : GzipMember) (c u : Nat) (d : GzipDecompressor ο β) :
    Prop where
  fresh : d = heading lib (g.packed.take c)
  short : c < g.headerSize
  none_made : u = 0

/-- The deflate data is behind. -/
structure Trailing (g : GzipMember) (c : Nat) (d : GzipDecompressor ο β) : Prop where
  state : ∃ r, 0 < r ∧ d.headerState = .trailer r ∧ c + r = g.headerSize + g.deflateSize + trailerSize
  all : d.totalOut = g.plain.length
  unfinished : d.finished = false

/-- The whole member was read. -/
structure Over (g : GzipMember) (c u : Nat) (d : GzipDecompressor ο β) : Prop where
  state : d.headerState = .finished
  place : c ≤ g.packed.length
  all : u = g.plain.length
  none_pending : d.pending = []

/-- Where the decoder stands, with `k` the progress it has left to make. -/
inductive At (lib : Inflater ο β) (g : GzipMember) (Stands : ο → Nat → Nat → Nat → Prop)
    (skipped : Nat) (d : GzipDecompressor ο β) (c u : Nat) : Nat → Prop
  | heading : Heading lib g c u d → skipped = 0 →
      At lib g Stands skipped d c u (g.packed.length + 2 + g.plain.length + g.blocks - c)
  | inflating {b : Nat} : Inflating g Stands skipped b c d → Kept lib g Stands skipped c u d →
      At lib g Stands skipped d c u
        ((g.packed.length - c) + 1 + (g.plain.length - u) + (g.blocks - b))
  | trailing : Trailing g c d → Kept lib g Stands skipped c u d →
      At lib g Stands skipped d c u ((g.packed.length - c) + (g.plain.length - u))
  | finished : Over g c u d → Kept lib g Stands skipped c u d → At lib g Stands skipped d c u 0

/-- The window read out of the circular buffer. -/
theorem getWindow_eq {d : GzipDecompressor ο β} {out : List Byte} (hlen : d.dictBuf.length = windowSize)
    (h : Buffer.Holds d.dictBuf d.dictPos out)
    (hwrapped : min d.dictPos windowSize = min out.length windowSize) :
    d.getWindow = out.drop (out.length - windowSize) := by
  rw [getWindow]
  by_cases hsmall : d.dictPos < windowSize
  · have hsame : d.dictPos = out.length := by omega
    rw [if_pos hsmall, Nat.sub_eq_zero_of_le (by omega), List.drop_zero, hsame]
    rw [hsame] at h
    exact h.all (by omega)
  · rw [if_neg hsmall, ← hlen]
    exact h.window (by omega)

/-- The output of a call of the library, read out of the buffer. -/
theorem extractOutput_eq {d : GzipDecompressor ο β} {before made : List Byte} {pos : Nat}
    (hbuf : d.dictBuf = Buffer.splice before (pos % windowSize) made)
    (hlen : before.length = windowSize) (hfit : pos % windowSize + made.length ≤ windowSize) :
    d.extractOutput pos made.length = made := by
  rw [extractOutput, if_pos hfit, hbuf]
  exact Buffer.slice_splice_self (by omega)

/-- What a call of the library leaves of the decoder, apart from the caller's share. -/
structure Called (lib : Inflater ο β) (d d' : GzipDecompressor ο β) (reply : InflateReply) (after : ο)
    (room : Nat) : Prop where
  inner : d'.inner = after
  dictBuf : d'.dictBuf = Buffer.splice d.dictBuf (d.dictPos % windowSize) reply.produced
  dictPos : d'.dictPos = d.dictPos + reply.produced.length
  totalOut : d'.totalOut = d.totalOut + reply.produced.length
  deflateIn : d'.deflateIn = d.deflateIn + reply.consumed
  pending : d'.pending = reply.produced.drop room
  headerState : d'.headerState = d.headerState
  headerSize : d'.headerSize = d.headerSize
  replay : d'.replay = d.replay
  raw : d'.raw = d.raw
  finished : d'.finished = d.finished
  boundary : ∀ sb, d'.lastBoundary = some sb → d.lastBoundary = some sb ∨
    reply.status = .blockBoundary ∧ lib.blockBoundaryState after = some sb.blockState ∧
      sb.window = d'.getWindow ∧ sb.compressedOffset = d'.headerSize + d'.deflateIn ∧
      sb.uncompressedOffset = d'.totalOut
  saved : ∀ s, reply.status = .blockBoundary → lib.blockBoundaryState after = some s →
    ∃ sb, d'.lastBoundary = some sb

theorem inflateToOutput_called {d : GzipDecompressor ο β} {input : List Byte} (more : Bool) (room : Nat)
    {reply : InflateReply} {inner : ο} (hlen : d.dictBuf.length = windowSize)
    (hfit : d.dictPos % windowSize + reply.produced.length ≤ windowSize) (hnone : d.pending = [])
    (hcall : lib.decompress d.inner input d.dictBuf (d.dictPos % windowSize) (!input.isEmpty || more) =
      (reply, inner)) :
    ∃ d', Called lib d d' reply inner room ∧
      d.inflateToOutput lib input more room = d'.settle reply (reply.produced.take room) := by
  have hdo : d.doInflate lib input more =
      (reply, saveBoundary lib
        { d with
          inner
          dictBuf := Buffer.splice d.dictBuf (d.dictPos % windowSize) reply.produced
          dictPos := d.dictPos + reply.produced.length
          totalOut := d.totalOut + reply.produced.length
          deflateIn := d.deflateIn + reply.consumed } reply.status) := by
    rw [doInflate, hcall]
  have hextract : (d.doInflate lib input more).2.extractOutput d.dictPos reply.produced.length =
      reply.produced := by
    refine extractOutput_eq ?_ hlen hfit
    rw [hdo, saveBoundary]
    split
    · split
      · rfl
      · rfl
    · rfl
  have hstage : ∀ d' : GzipDecompressor ο β, d'.pending = [] →
      (d'.staged reply.produced room).pending = reply.produced.drop room := by
    intro d' hd'
    rw [staged]
    by_cases hover : room < reply.produced.length
    · rw [if_pos hover]
      rfl
    · rw [if_neg hover, hd', List.drop_eq_nil_of_le (by omega)]
  have hframe : ∀ d' : GzipDecompressor ο β, ∃ stage stagePos,
      d'.staged reply.produced room = { d' with stage, stagePos } := by
    intro d'
    rw [staged]
    split
    · exact ⟨_, _, rfl⟩
    · exact ⟨d'.stage, d'.stagePos, rfl⟩
  refine ⟨(d.doInflate lib input more).2.staged reply.produced room, ?_, ?_⟩
  · have hpending : ((d.doInflate lib input more).2.staged reply.produced room).pending =
        reply.produced.drop room := by
      refine hstage _ ?_
      rw [hdo, saveBoundary]
      split
      · split
        · exact hnone
        · exact hnone
      · exact hnone
    revert hpending
    obtain ⟨stage, stagePos, hstaged⟩ := hframe (d.doInflate lib input more).2
    rw [hstaged, hdo]
    intro hpending
    by_cases hstatus : reply.status = .blockBoundary
    · cases hstate : lib.blockBoundaryState inner with
      | some s =>
        simp only [saveBoundary, if_pos hstatus, hstate] at hpending ⊢
        refine ⟨rfl, rfl, rfl, rfl, rfl, hpending, rfl, rfl, rfl, rfl, rfl, ?_, fun _ _ _ => ⟨_, rfl⟩⟩
        intro sb hsb
        obtain rfl := Option.some.inj hsb
        exact .inr ⟨hstatus, hstate, rfl, rfl, rfl⟩
      | none =>
        simp only [saveBoundary, if_pos hstatus, hstate] at hpending ⊢
        exact ⟨rfl, rfl, rfl, rfl, rfl, hpending, rfl, rfl, rfl, rfl, rfl, fun sb hsb => .inl hsb,
          fun s _ hs => by rw [hstate] at hs; cases hs⟩
    · simp only [saveBoundary, if_neg hstatus] at hpending ⊢
      exact ⟨rfl, rfl, rfl, rfl, rfl, hpending, rfl, rfl, rfl, rfl, rfl, fun sb hsb => .inl hsb,
        fun s hs => absurd hs hstatus⟩
  · have hreply : (d.doInflate lib input more).1 = reply := by rw [hdo]
    show ((d.doInflate lib input more).2.staged
      ((d.doInflate lib input more).2.extractOutput d.dictPos
        (d.doInflate lib input more).1.produced.length) room).settle _ _ = _
    rw [hreply, hextract]

theorem take_append_of_prefix {l xs : List Byte} {m : Nat} (h : xs <+: l.drop m) :
    l.take m ++ xs = l.take (m + xs.length) := by
  rw [List.take_add, ← List.prefix_iff_eq_take.mp h]

/-- What is left of a prefix after the caller's share. -/
theorem drop_prefix_drop {l xs : List Byte} {u : Nat} (h : xs <+: l.drop u) (room : Nat) :
    xs.drop room <+: l.drop (u + (xs.take room).length) := by
  obtain ⟨rest, hrest⟩ := h
  have hsame : xs.drop (xs.take room).length = xs.drop room := by
    rw [List.length_take]
    by_cases hshort : room ≤ xs.length
    · rw [Nat.min_eq_left hshort]
    · rw [List.drop_eq_nil_of_le (by omega), List.drop_eq_nil_of_le (by omega)]
  rw [← List.drop_drop, ← hrest, List.drop_append_of_le_length (List.length_take_le' _ _), hsame]
  exact List.prefix_append _ _

/-- The library's call at a place where the decoder inflates and nothing is staged. -/
theorem inflateToOutput_at (hlib : Inflates lib g Stands) {skipped b c u : Nat}
    {d : GzipDecompressor ο β} (hd : Inflating g Stands skipped b c d)
    (hkept : Kept lib g Stands skipped c u d) (hnone : d.pending = []) {input : List Byte} (more : Bool)
    {room : Nat} (hne : input ≠ []) (hinput : input <+: g.packed.drop c) (hroom : 0 < room) :
    ∃ r d' k, d.inflateToOutput lib input more room = .ok (r, d') ∧ r.status = .continue ∧
      r.bytesConsumed ≤ input.length ∧ r.produced.length ≤ room ∧ r.produced <+: g.plain.drop u ∧
      At lib g Stands skipped d' (c + r.bytesConsumed) (u + r.produced.length) k ∧
      k < (g.packed.length - c) + 1 + (g.plain.length - u) + (g.blocks - b) := by
  have hu : d.totalOut = u := by
    have := hkept.totalOut
    rw [hnone, List.length_nil] at this
    omega
  have hflag : (!input.isEmpty || more) = true := by
    cases input with
    | nil => exact absurd rfl hne
    | cons _ _ => rfl
  have hw : 0 < windowSize := by decide
  have hplace := hd.place
  have hslice : input <+: g.packed.drop (g.headerSize + (d.deflateIn + skipped)) := by
    rw [← hplace]
    exact hinput
  have hwindow : Buffer.Holds d.dictBuf (d.dictPos % windowSize) (g.plain.take d.totalOut) := by
    have := hd.window.mod
    rwa [hkept.dictBuf] at this
  obtain ⟨hconsumed, hfit, hmade⟩ := hlib.takes hd.stands hne hslice hkept.dictBuf
    (Nat.mod_lt _ hw) hwindow
  have hstops := hlib.stops hd.stands hne hslice hkept.dictBuf (Nat.mod_lt _ hw) hwindow
  cases hcall : lib.decompress d.inner input d.dictBuf (d.dictPos % windowSize) true with
  | mk reply inner =>
  rw [hcall] at hconsumed hfit hmade
  replace hconsumed : reply.consumed ≤ input.length := hconsumed
  replace hfit : d.dictPos % windowSize + reply.produced.length ≤ windowSize := hfit
  replace hmade : reply.produced <+: g.plain.drop u := by rw [← hu]; exact hmade
  have hstop := hstops reply inner hcall
  obtain ⟨d', hcalled, hsettle⟩ := inflateToOutput_called more room hkept.dictBuf
    hfit hnone (by rw [hflag]; exact hcall)
  have hlens := hmade.length_le
  rw [List.length_drop] at hlens
  have hinlen := hinput.length_le
  rw [List.length_drop] at hinlen
  have hbefore := hlib.within hd.stands
  -- the buffer after the call
  have htaken : g.plain.take d.totalOut ++ reply.produced = g.plain.take d'.totalOut := by
    rw [hcalled.totalOut, hu]
    exact take_append_of_prefix hmade
  have hdict : d'.dictBuf.length = windowSize := by
    rw [hcalled.dictBuf, Buffer.splice_length (by rw [hkept.dictBuf]; exact hfit), hkept.dictBuf]
  have hholds : Buffer.Holds d'.dictBuf d'.dictPos (g.plain.take d'.totalOut) := by
    have := hd.window.append reply.produced (by rw [hkept.dictBuf]; exact hfit)
    rw [hkept.dictBuf, htaken] at this
    rw [hcalled.dictBuf, hcalled.dictPos]
    exact this
  have hwrapped : min d'.dictPos windowSize = min d'.totalOut windowSize := by
    have := hd.wrapped
    rw [hcalled.dictPos, hcalled.totalOut]
    omega
  have htotal : d'.totalOut = u + reply.produced.length := by rw [hcalled.totalOut, hu]
  have hbytes : d'.deflateIn + skipped = d.deflateIn + skipped + reply.consumed := by
    rw [hcalled.deflateIn]
    omega
  -- what is kept, wherever the stream goes on from here
  have hshare : (reply.produced.take room).length + (reply.produced.drop room).length =
      reply.produced.length := by
    rw [← List.length_append, List.take_append_drop]
  have hkept' : Kept lib g Stands skipped (c + reply.consumed) (u + (reply.produced.take room).length)
      d' := by
    refine ⟨hcalled.replay.trans hkept.replay, hcalled.raw.trans hkept.raw,
      hcalled.headerSize.trans hkept.headerSize, hdict, ?_, ?_, ?_⟩
    · intro sb hsb
      rcases hcalled.boundary sb hsb with hold | ⟨hboundary, hstate, hwin, hin, hout⟩
      · have hsaved := hkept.boundary sb hold
        exact ⟨hsaved.resumes, Nat.le_trans hsaved.passed (Nat.le_add_right _ _), hsaved.window⟩
      · rcases hstop with ⟨_, _, s, hs, hresumes⟩ | ⟨hdone, _⟩ | ⟨hother, _⟩
        · obtain rfl := Option.some.inj (hs.symm.trans hstate)
          have hcount : sb.compressedOffset + skipped =
              g.headerSize + (d.deflateIn + skipped + reply.consumed) := by
            rw [hin, hcalled.headerSize, hkept.headerSize]
            omega
          refine ⟨⟨b + 1, _, ?_, hcount⟩, by omega, ?_⟩
          · rw [hout, htotal, ← hu]
            exact hresumes
          · rw [hwin, hout]
            have hlen : (g.plain.take d'.totalOut).length = d'.totalOut := by
              rw [List.length_take]
              omega
            exact getWindow_eq hdict hholds (by rw [hlen]; exact hwrapped)
        · rw [hboundary] at hdone
          cases hdone
        · rw [hboundary] at hother
          rcases hother with hother | hother
          · cases hother
          · cases hother
    · rw [hcalled.pending]
      exact drop_prefix_drop hmade room
    · rw [htotal, hcalled.pending]
      omega
  have hgoing : ∀ b', Stands inner b' (d.deflateIn + skipped + reply.consumed)
      (d.totalOut + reply.produced.length) → Inflating g Stands skipped b' (c + reply.consumed) d' := by
    intro b' hstands
    refine ⟨hcalled.headerState.trans hd.state, ?_, by omega,
      hholds, hwrapped, hcalled.finished.trans hd.unfinished⟩
    rw [hcalled.inner, hbytes, hcalled.totalOut]
    exact hstands
  rcases hstop with ⟨hstatus, hstands, _⟩ | ⟨hstatus, hall, hout⟩ | ⟨hstatus, hstands, hmoved⟩
  · refine ⟨_, d', _, by rw [hsettle, settle, hstatus], rfl, hconsumed, List.length_take_le _ _,
      (List.take_prefix _ _).trans hmade, .inflating (hgoing _ hstands) hkept', ?_⟩
    have := (hlib.within hstands).1
    show g.packed.length - (c + reply.consumed) + 1 +
      (g.plain.length - (u + (reply.produced.take room).length)) + (g.blocks - (b + 1)) < _
    omega
  · have hframed : (!d'.raw && decide (0 < d'.headerSize)) = true := by
      rw [hcalled.raw, hkept.raw, hcalled.headerSize, hkept.headerSize]
      simpa using g.gzip
    have hresult : d.inflateToOutput lib input more room =
        .ok ({ bytesConsumed := reply.consumed, produced := reply.produced.take room
               status := .continue }, { d' with headerState := .trailer trailerSize }) := by
      rw [hsettle, settle, hstatus]
      exact if_pos hframed
    refine ⟨_, _, _, hresult, rfl, hconsumed, List.length_take_le _ _,
      (List.take_prefix _ _).trans hmade, .trailing ⟨⟨trailerSize, by decide, rfl, ?_⟩, ?_,
        hcalled.finished.trans hd.unfinished⟩ ?_, ?_⟩
    · show c + reply.consumed + trailerSize = _
      omega
    · show d'.totalOut = _
      omega
    · exact ⟨hkept'.replay, hkept'.raw, hkept'.headerSize, hkept'.dictBuf, hkept'.boundary, hkept'.pending,
        hkept'.totalOut⟩
    · show g.packed.length - (c + reply.consumed) +
        (g.plain.length - (u + (reply.produced.take room).length)) < _
      omega
  · have hless : g.packed.length - (c + reply.consumed) + 1 +
        (g.plain.length - (u + (reply.produced.take room).length)) + (g.blocks - b) <
        g.packed.length - c + 1 + (g.plain.length - u) + (g.blocks - b) := by
      have hafter := hlib.within hstands
      rw [List.length_take]
      omega
    rcases hstatus with hstatus | hstatus
    · exact ⟨_, d', _, by rw [hsettle, settle, hstatus], rfl, hconsumed, List.length_take_le _ _,
        (List.take_prefix _ _).trans hmade, .inflating (hgoing _ hstands) hkept', hless⟩
    · exact ⟨_, d', _, by rw [hsettle, settle, hstatus], rfl, hconsumed, List.length_take_le _ _,
        (List.take_prefix _ _).trans hmade, .inflating (hgoing _ hstands) hkept', hless⟩

end GzipDecompressor
end Iluvatar
