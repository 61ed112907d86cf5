/-
Every run of a `StreamIndexer`, over any number of passes.

`IndexSession` is the caller's side: the bytes it has been handed over all passes,
and the packed offset it reads from.  A pass may be stopped anywhere, finished, and
resumed from its own index under another strategy.
-/
import Iluvatar.Compress.None
import Iluvatar.Stream.IndexerStep

namespace Iluvatar

open Sansio

variable {σ κ τ : Type}

inductive IndexEvent (τ : Type) where
  | step (fuel : Nat)
  | provide (n : Nat)
  | read (n : Nat)
  | stopAt (unpackedOffset : Nat)
  | resume (strategy : τ)

structure IndexSession (σ κ τ : Type) where
  indexer : StreamIndexer σ κ τ
  emitted : List Byte
  next : Nat
  wanted : Bool
  reported : Option EngineRequest

namespace IndexSession

/-- A session that has just begun a pass, with `emit_output` on. -/
def start (indexer : StreamIndexer σ κ τ) (emitted : List Byte) : IndexSession σ κ τ :=
  { indexer := indexer.setEmitOutput true, emitted, next := 0, wanted := false, reported := none }

/-- One event of the caller.  `none` means the event is not one a caller may issue
here: a `provide` nobody asked for, a `resume` of a complete index, or a `step` whose
loop has not reported within its fuel. -/
def drive (impl : CheckpointStrategy τ) (packed : List Byte) (s : IndexSession σ κ τ) :
    IndexEvent τ → Option (IndexSession σ κ τ)
  | .step fuel =>
    match s.indexer.step impl fuel with
    | none => none
    | some (request, indexer) => some { s with
        indexer
        next := StreamIndexer.nextAfter s.next (some request)
        wanted := request.wantsInput
        reported := some request }
  | .provide n =>
    if s.wanted then
      match (packed.drop s.next).take (n + 1) with
      | [] => some { s with indexer := s.indexer.signalEof, wanted := false }
      | b :: bs => some { s with
          indexer := s.indexer.provideData (b :: bs)
          next := s.next + (b :: bs).length
          wanted := false }
    else none
  | .read n =>
    let (out, indexer) := s.indexer.readOutput n
    some { s with indexer, emitted := s.emitted ++ out }
  | .stopAt unpackedOffset => some { s with indexer := s.indexer.setStopAt unpackedOffset }
  | .resume strategy =>
    if s.indexer.index.complete then none
    else
      match StreamIndexer.resume s.indexer.finish strategy with
      | .ok indexer => some (start indexer s.emitted)
      | .error f => some { s with reported := some (.error f) }

/-- A caller that drains every `outputReady` before it steps on or ends the pass. -/
def driveDrained (impl : CheckpointStrategy τ) (packed : List Byte) (s : IndexSession σ κ τ)
    (e : IndexEvent τ) : Option (IndexSession σ κ τ) :=
  match e with
  | .step _ => if s.indexer.pending = [] then s.drive impl packed e else none
  | .resume _ => if s.indexer.pending = [] then s.drive impl packed e else none
  | _ => s.drive impl packed e

/-- One turn of a caller that empties the output `cut.2 + 1` bytes at a time, steps
when it is empty, and answers requests for input `cut.1 + 1` bytes at a time. -/
def turn (impl : CheckpointStrategy τ) (packed : List Byte) (fuel : Nat)
    (s : IndexSession σ κ τ) (cut : Nat × Nat) : Option (IndexSession σ κ τ) :=
  if s.indexer.pending = [] then
    match s.drive impl packed (.step fuel) with
    | none => none
    | some s => if s.wanted then s.drive impl packed (.provide cut.1) else some s
  else s.drive impl packed (.read (cut.2 + 1))

end IndexSession

variable {codec : Codec σ κ} {packed plain : List Byte} {At : σ → Nat → Nat → Prop}

/-- What holds of a session however its caller drains the output. -/
structure IndexInv (codec : Codec σ κ) (packed plain : List Byte) (At : σ → Nat → Nat → Prop)
    (s : IndexSession σ κ τ) : Prop where
  sound : StreamIndexer.Sound codec packed plain At s.next s.indexer
  wanted : s.wanted = true → StreamIndexer.Fed packed s.next s.indexer ∧
    s.indexer.inputLeft = [] ∧ s.indexer.index.complete = false
  fine : ∀ f, s.reported ≠ some (.error f)

/-- The bytes handed out over all passes, and those about to be, are the plain text
up to where the passes have come. -/
structure Emitted (plain : List Byte) (s : IndexSession σ κ τ) : Prop where
  emitOutput : s.indexer.emitOutput = true
  covered : s.emitted ++ s.indexer.pending = plain.take s.indexer.index.indexedTo

namespace StreamIndexer

/-- An indexer at a checkpoint of a sound table, with no input yet. -/
theorem withParts_sound {d : σ} {index : StreamIndex σ κ} (strategy : τ) {cp : Checkpoint κ}
    (htable : index.Table codec At) (hlast : index.lastCheckpoint = some cp)
    (hstands : At d cp.compressedOffset cp.uncompressedOffset)
    (hbehind : cp.uncompressedOffset ≤ index.indexedTo) (hindexed : index.indexedTo ≤ plain.length)
    (hlen : ∀ n, index.unpackedLen = some n → n = plain.length) (hongoing : index.complete = false) :
    Sound codec packed plain At 0
      ((withParts d index strategy
        (if cp.compressedOffset = 0 then .needInput else .seek cp.compressedOffset)
        cp.compressedOffset cp.uncompressedOffset).setEmitOutput true) := by
  refine ⟨⟨htable, ⟨cp, hlast, rfl⟩, Nat.le_refl _, rfl⟩, hstands, ?_, hbehind, hindexed, hlen,
    fun hcomplete => absurd hcomplete (by simp [withParts, setEmitOutput, hongoing]), ?_⟩
  · by_cases hzero : cp.compressedOffset = 0
    · simp only [Placed, withParts, setEmitOutput, if_pos hzero]
      refine ⟨⟨?_, List.nil_prefix, Nat.le_refl _, fun heof => Bool.noConfusion heof⟩, rfl⟩
      exact hzero.symm
    · simp [Placed, withParts, setEmitOutput, hzero]
  · intro hdone
    by_cases hzero : cp.compressedOffset = 0
    · simp only [withParts, setEmitOutput, if_pos hzero] at hdone
      exact State.noConfusion hdone
    · simp only [withParts, setEmitOutput, if_neg hzero] at hdone
      exact State.noConfusion hdone

/-- A first pass begins soundly. -/
theorem new_sound (hC : Obeys codec packed plain At) (strategy : τ) (compressedLen : Option Nat) :
    ∃ x, StreamIndexer.new codec strategy compressedLen = .ok x ∧
      Sound codec packed plain At 0 (x.setEmitOutput true) ∧ x.pending = [] ∧
      x.index.indexedTo = 0 := by
  obtain ⟨d, hcreate⟩ := hC.creates
  refine ⟨_, by rw [StreamIndexer.new, hcreate], ?_, rfl, rfl⟩
  have htable : (StreamIndex.new codec compressedLen).Table codec At := by
    refine ⟨rfl, ⟨_, _, rfl, rfl⟩, List.pairwise_singleton _ _, ?_⟩
    intro cp hmem
    rw [List.mem_singleton.mp hmem]
    exact hC.start
  have hstands : At d (Checkpoint.start : Checkpoint κ).compressedOffset
      (Checkpoint.start : Checkpoint κ).uncompressedOffset := hC.fresh d hcreate
  exact withParts_sound strategy htable rfl hstands (Nat.le_refl _) (Nat.zero_le _)
    (by simp [StreamIndex.new]) rfl

/-- A later pass begins soundly, at the last checkpoint of the earlier ones. -/
theorem resume_sound (hC : Obeys codec packed plain At) {next : Nat} {x : StreamIndexer σ κ τ}
    (h : Sound codec packed plain At next x) (hongoing : x.index.complete = false) (strategy : τ) :
    ∃ x', resume x.index strategy = .ok x' ∧
      Sound codec packed plain At 0 (x'.setEmitOutput true) ∧ x'.pending = [] ∧
      x'.index = x.index := by
  obtain rfl := h.laid.table.sameCodec
  obtain ⟨d, hcreate⟩ := hC.creates
  obtain ⟨cp, hlast, hmem, _⟩ := h.laid.table.last
  obtain ⟨last, hlast', hpos⟩ := h.laid.last
  obtain rfl : cp = last := Option.some.inj (hlast.symm.trans hlast')
  obtain ⟨d', hrestore, hstands⟩ := h.laid.table.exact cp hmem d hcreate
  have hreached := h.laid.reached
  have hbehind := h.behind
  refine ⟨_, ?_, withParts_sound strategy h.laid.table hlast hstands (by omega)
    h.indexed h.unpackedLen hongoing, rfl, rfl⟩
  rw [resume, hongoing, hcreate, hlast]
  simp only [Bool.false_eq_true, if_false, hrestore]

/-- Taking output moves only the output. -/
theorem readOutput_spec (x : StreamIndexer σ κ τ) (n : Nat) :
    (x.readOutput n).1 ++ (x.readOutput n).2.pending = x.pending ∧
      (x.readOutput n).1.length = min x.pending.length n ∧
      (x.readOutput n).2 = { x with
        outBuf := (x.readOutput n).2.outBuf, outRead := (x.readOutput n).2.outRead } := by
  have hlen : x.pending.length = x.outBuf.length - x.outRead := by simp [pending]
  unfold readOutput
  simp only
  by_cases hnone : x.outBuf.length - x.outRead = 0
  · rw [if_pos hnone]
    exact ⟨rfl, by rw [hlen, hnone, Nat.zero_min]; rfl, rfl⟩
  · rw [if_neg hnone]
    by_cases hall : x.outBuf.length ≤ x.outRead + min (x.outBuf.length - x.outRead) n
    · rw [if_pos hall]
      refine ⟨?_, ?_, rfl⟩
      · show x.pending.take _ ++ [] = x.pending
        rw [List.append_nil, List.take_of_length_le (by omega)]
      · show (x.pending.take _).length = _
        rw [List.length_take]
        omega
    · rw [if_neg hall]
      refine ⟨?_, ?_, rfl⟩
      · show x.pending.take _ ++ x.outBuf.drop _ = x.pending
        rw [← List.drop_drop]
        exact List.take_append_drop _ _
      · show (x.pending.take _).length = _
        rw [List.length_take]
        omega

/-- The pending output and the stopping point say nothing about where the indexer stands. -/
theorem Sound.withOutput {next : Nat} {x : StreamIndexer σ κ τ}
    (h : Sound codec packed plain At next x) (outBuf : List Byte) (outRead : Nat)
    (stopAt : Option Nat) (hstop : x.stopAt ≠ none → stopAt ≠ none) :
    Sound codec packed plain At next { x with outBuf, outRead, stopAt } := by
  refine ⟨⟨h.laid.table, h.laid.last, h.laid.reached, h.laid.bytes⟩, h.stands, ?_, h.behind,
    h.indexed, h.unpackedLen, fun hcomplete => ?_, fun hdone => (h.done hdone).imp_right hstop⟩
  · have hplaced := h.placed
    simp only [Placed] at hplaced ⊢
    cases hstate : x.state with
    | seek offset => simpa only [hstate] using hplaced
    | needInput =>
      simp only [hstate] at hplaced
      exact ⟨⟨hplaced.1.place, hplaced.1.input, hplaced.1.inputPos, hplaced.1.eof⟩, hplaced.2⟩
    | processing =>
      simp only [hstate] at hplaced
      exact ⟨hplaced.place, hplaced.input, hplaced.inputPos, hplaced.eof⟩
    | done => trivial
  · have hall := h.complete hcomplete
    exact ⟨hall.state, hall.unpackedLen, hall.indexedTo, hall.reported⟩

/-- Whether output is handed out says nothing about where the indexer stands. -/
theorem Sound.withEmit {next : Nat} {x : StreamIndexer σ κ τ}
    (h : Sound codec packed plain At next x) (emit : Bool) :
    Sound codec packed plain At next (x.setEmitOutput emit) := by
  refine ⟨⟨h.laid.table, h.laid.last, h.laid.reached, h.laid.bytes⟩, h.stands, ?_, h.behind, h.indexed, h.unpackedLen,
    fun hcomplete => ?_, h.done⟩
  · have hplaced := h.placed
    simp only [Placed, setEmitOutput] at hplaced ⊢
    cases hstate : x.state with
    | seek offset => simpa only [hstate] using hplaced
    | needInput =>
      simp only [hstate] at hplaced
      exact ⟨⟨hplaced.1.place, hplaced.1.input, hplaced.1.inputPos, hplaced.1.eof⟩, hplaced.2⟩
    | processing =>
      simp only [hstate] at hplaced
      exact ⟨hplaced.place, hplaced.input, hplaced.inputPos, hplaced.eof⟩
    | done => trivial
  · have hall := h.complete hcomplete
    exact ⟨hall.state, hall.unpackedLen, hall.indexedTo, hall.reported⟩

theorem Sound.readOutput {next : Nat} {x : StreamIndexer σ κ τ}
    (h : Sound codec packed plain At next x) (n : Nat) :
    Sound codec packed plain At next (x.readOutput n).2 := by
  obtain ⟨_, _, hsame⟩ := x.readOutput_spec n
  rw [hsame]
  exact h.withOutput _ _ x.stopAt id

theorem Sound.setStopAt {next : Nat} {x : StreamIndexer σ κ τ}
    (h : Sound codec packed plain At next x) (unpackedOffset : Nat) :
    Sound codec packed plain At next (x.setStopAt unpackedOffset) :=
  h.withOutput x.outBuf x.outRead (some unpackedOffset) (by simp)

/-- Input is provided when all earlier input is taken, from where the caller reads. -/
theorem Sound.provideData {next : Nat} {x : StreamIndexer σ κ τ} {data : List Byte}
    (h : Sound codec packed plain At next x) (hfed : Fed packed next x) (hnil : x.inputLeft = [])
    (hongoing : x.index.complete = false) (hdata : data <+: packed.drop next) (hne : data ≠ []) :
    Sound codec packed plain At (next + data.length) (x.provideData data) := by
  have hplace := hfed.place
  rw [hnil, List.length_nil, Nat.add_zero] at hplace
  refine ⟨⟨h.laid.table, h.laid.last, h.laid.reached, h.laid.bytes⟩, h.stands, ?_, h.behind,
    h.indexed, h.unpackedLen, fun hcomplete => absurd hcomplete (by
      simp [StreamIndexer.provideData, hongoing]), fun hdone => State.noConfusion hdone⟩
  refine ⟨?_, ?_, Nat.zero_le _, ?_⟩
  · show next + data.length = x.compressedPos + (data.drop 0).length
    rw [hplace, List.drop_zero]
  · show data.drop 0 <+: packed.drop x.compressedPos
    rw [List.drop_zero, ← hplace]
    exact hdata
  · intro heof
    have hend := hfed.eof heof
    rw [List.drop_eq_nil_of_le hend] at hdata
    exact absurd (List.eq_nil_of_prefix_nil hdata) hne

theorem Sound.signalEof {next : Nat} {x : StreamIndexer σ κ τ}
    (h : Sound codec packed plain At next x) (hfed : Fed packed next x)
    (hongoing : x.index.complete = false) (hend : packed.length ≤ next) :
    Sound codec packed plain At next x.signalEof :=
  ⟨⟨h.laid.table, h.laid.last, h.laid.reached, h.laid.bytes⟩, h.stands,
    ⟨hfed.place, hfed.input, hfed.inputPos, fun _ => hend⟩, h.behind, h.indexed, h.unpackedLen,
    fun hcomplete => absurd hcomplete (by simp [StreamIndexer.signalEof, hongoing]),
    fun hdone => State.noConfusion hdone⟩

end StreamIndexer

/-- A request that asks for input finds the indexer waiting for it. -/
theorem StreamIndexer.Outcome.waits {next : Nat} {x x' : StreamIndexer σ κ τ}
    {request : EngineRequest}
    (h : StreamIndexer.Outcome codec packed plain At next x (some request) x')
    (hwants : request.wantsInput = true) :
    StreamIndexer.Fed packed (StreamIndexer.nextAfter next (some request)) x' ∧
      x'.inputLeft = [] ∧ x'.index.complete = false := by
  refine h.input ?_
  cases request with
  | needInput => exact .inl rfl
  | seekAndRead a b => exact .inr ⟨a, b, rfl⟩
  | outputReady => exact Bool.noConfusion hwants
  | done => exact Bool.noConfusion hwants
  | error f => exact Bool.noConfusion hwants

theorem IndexInv.start {x : StreamIndexer σ κ τ} {emitted : List Byte}
    (h : StreamIndexer.Sound codec packed plain At 0 (x.setEmitOutput true)) :
    IndexInv codec packed plain At (IndexSession.start x emitted) :=
  ⟨h, by simp [IndexSession.start], by simp [IndexSession.start]⟩

/-- Every event keeps the invariant, however the caller drains the output. -/
theorem IndexInv.drive (impl : CheckpointStrategy τ) (hC : Obeys codec packed plain At)
    {s s' : IndexSession σ κ τ} {e : IndexEvent τ} (h : IndexInv codec packed plain At s)
    (hdrive : s.drive impl packed e = some s') : IndexInv codec packed plain At s' := by
  cases e with
  | step fuel =>
    rw [IndexSession.drive] at hdrive
    match hstep : s.indexer.step impl fuel with
    | none =>
      rw [hstep] at hdrive
      exact absurd hdrive (by simp)
    | some (request, x') =>
      rw [hstep] at hdrive
      obtain rfl := Option.some.inj hdrive
      have hout := StreamIndexer.step_outcome impl hC h.sound hstep
      exact ⟨hout.sound, hout.waits, hout.fine⟩
  | provide n =>
    rw [IndexSession.drive] at hdrive
    by_cases hwanted : s.wanted = true
    · rw [if_pos hwanted] at hdrive
      obtain ⟨hfed, hnil, hongoing⟩ := h.wanted hwanted
      match htake : (packed.drop s.next).take (n + 1) with
      | [] =>
        rw [htake] at hdrive
        obtain rfl := Option.some.inj hdrive
        have hend : packed.length ≤ s.next := by
          have hlen := congrArg List.length htake
          rw [List.length_take, List.length_drop, List.length_nil] at hlen
          omega
        exact ⟨h.sound.signalEof hfed hongoing hend, by simp, h.fine⟩
      | b :: bs =>
        rw [htake] at hdrive
        obtain rfl := Option.some.inj hdrive
        have hdata : (b :: bs) <+: packed.drop s.next := by
          rw [← htake]
          exact List.take_prefix _ _
        exact ⟨h.sound.provideData hfed hnil hongoing hdata (by simp), by simp, h.fine⟩
    · rw [if_neg hwanted] at hdrive
      exact absurd hdrive (by simp)
  | read n =>
    rw [IndexSession.drive] at hdrive
    obtain ⟨_, _, hsame⟩ := s.indexer.readOutput_spec n
    have hsound := h.sound.readOutput n
    match hread : s.indexer.readOutput n with
    | (out, x') =>
      rw [hread] at hdrive hsame hsound
      obtain rfl := Option.some.inj hdrive
      refine ⟨hsound, fun hwanted => ?_, h.fine⟩
      obtain ⟨hfed, hnil, hongoing⟩ := h.wanted hwanted
      simp only at hsame
      rw [hsame]
      exact ⟨⟨hfed.place, hfed.input, hfed.inputPos, hfed.eof⟩, hnil, hongoing⟩
  | stopAt unpackedOffset =>
    obtain rfl := Option.some.inj hdrive
    refine ⟨h.sound.setStopAt unpackedOffset, fun hwanted => ?_, h.fine⟩
    obtain ⟨hfed, hnil, hongoing⟩ := h.wanted hwanted
    exact ⟨⟨hfed.place, hfed.input, hfed.inputPos, hfed.eof⟩, hnil, hongoing⟩
  | resume strategy =>
    rw [IndexSession.drive] at hdrive
    by_cases hcomplete : s.indexer.index.complete = true
    · rw [if_pos hcomplete] at hdrive
      exact absurd hdrive (by simp)
    · rw [if_neg hcomplete] at hdrive
      obtain ⟨x', hresume, hsound, _, _⟩ :=
        StreamIndexer.resume_sound hC h.sound (by simpa using hcomplete) strategy
      rw [StreamIndexer.finish, hresume] at hdrive
      obtain rfl := Option.some.inj hdrive
      exact IndexInv.start hsound

/-- A caller that drains the output keeps what it has been handed in step with how far
the stream is covered. -/
theorem Emitted.drive (impl : CheckpointStrategy τ) (hC : Obeys codec packed plain At)
    {s s' : IndexSession σ κ τ} {e : IndexEvent τ} (hinv : IndexInv codec packed plain At s)
    (h : Emitted plain s) (hdrive : s.driveDrained impl packed e = some s') : Emitted plain s' := by
  cases e with
  | step fuel =>
    rw [IndexSession.driveDrained] at hdrive
    by_cases hnil : s.indexer.pending = []
    · rw [if_pos hnil, IndexSession.drive] at hdrive
      match hstep : s.indexer.step impl fuel with
      | none =>
        rw [hstep] at hdrive
        exact absurd hdrive (by simp)
      | some (request, x') =>
        rw [hstep] at hdrive
        obtain rfl := Option.some.inj hdrive
        have hout := StreamIndexer.step_outcome impl hC hinv.sound hstep
        have hcovered := h.covered
        rw [hnil, List.append_nil] at hcovered
        refine ⟨hout.covers.emitOutput.trans h.emitOutput, ?_⟩
        show s.emitted ++ x'.pending = plain.take x'.index.indexedTo
        rw [hcovered, hout.covers.pending h.emitOutput hnil, ← seg_zero, ← seg_zero]
        exact seg_append plain (Nat.zero_le _) hout.covers.grows
    · rw [if_neg hnil] at hdrive
      exact absurd hdrive (by simp)
  | provide n =>
    rw [IndexSession.driveDrained, IndexSession.drive] at hdrive
    · by_cases hwanted : s.wanted = true
      · rw [if_pos hwanted] at hdrive
        match htake : (packed.drop s.next).take (n + 1) with
        | [] =>
          rw [htake] at hdrive
          obtain rfl := Option.some.inj hdrive
          exact ⟨h.emitOutput, h.covered⟩
        | b :: bs =>
          rw [htake] at hdrive
          obtain rfl := Option.some.inj hdrive
          exact ⟨h.emitOutput, h.covered⟩
      · rw [if_neg hwanted] at hdrive
        exact absurd hdrive (by simp)
    · simp
    · simp
  | read n =>
    obtain ⟨hsplit, _, hsame⟩ := s.indexer.readOutput_spec n
    obtain rfl := Option.some.inj hdrive
    refine ⟨?_, ?_⟩
    · show (s.indexer.readOutput n).2.emitOutput = true
      rw [hsame]
      exact h.emitOutput
    · show (s.emitted ++ (s.indexer.readOutput n).1) ++ (s.indexer.readOutput n).2.pending =
        plain.take (s.indexer.readOutput n).2.index.indexedTo
      rw [List.append_assoc, hsplit, hsame]
      exact h.covered
  | stopAt unpackedOffset =>
    obtain rfl := Option.some.inj hdrive
    exact ⟨h.emitOutput, h.covered⟩
  | resume strategy =>
    rw [IndexSession.driveDrained] at hdrive
    by_cases hnil : s.indexer.pending = []
    · rw [if_pos hnil, IndexSession.drive] at hdrive
      by_cases hcomplete : s.indexer.index.complete = true
      · rw [if_pos hcomplete] at hdrive
        exact absurd hdrive (by simp)
      · rw [if_neg hcomplete] at hdrive
        obtain ⟨x', hresume, _, hnone, hindex⟩ :=
          StreamIndexer.resume_sound hC hinv.sound (by simpa using hcomplete) strategy
        rw [StreamIndexer.finish, hresume] at hdrive
        obtain rfl := Option.some.inj hdrive
        refine ⟨rfl, ?_⟩
        have hcovered := h.covered
        rw [hnil] at hcovered
        show s.emitted ++ x'.pending = plain.take x'.index.indexedTo
        rw [hnone, hindex]
        exact hcovered
    · rw [if_neg hnil] at hdrive
      exact absurd hdrive (by simp)

/-- A drained event is an event. -/
theorem IndexSession.drive_of_drained {impl : CheckpointStrategy τ} {s s' : IndexSession σ κ τ}
    {e : IndexEvent τ} (h : s.driveDrained impl packed e = some s') :
    s.drive impl packed e = some s' := by
  unfold IndexSession.driveDrained at h
  split at h
  · split at h
    · exact h
    · exact absurd h (by simp)
  · split at h
    · exact h
    · exact absurd h (by simp)
  · exact h

/-- A pass that has yet to ask for its starting point may send the caller back. -/
def StreamIndexer.State.toSeek (packed : List Byte) : StreamIndexer.State → Nat
  | .seek _ => packed.length + 1
  | _ => 0

/-- What is left for a caller that keeps answering within one pass. -/
def IndexSession.toGo (packed plain : List Byte) (s : IndexSession σ κ τ) : Nat :=
  2 * StreamIndexer.work packed plain s.indexer + s.indexer.pending.length +
    (packed.length - s.next) + (!s.indexer.eof).toNat + s.indexer.state.toSeek packed

/-- Answering a request for input brings a pass closer to its end, unless the end of the
input had been signalled before. -/
theorem IndexSession.provide_toGo (impl : CheckpointStrategy τ) (packed plain : List Byte)
    (s : IndexSession σ κ τ) (hwanted : s.wanted = true) (n : Nat) :
    ∃ s', s.drive impl packed (.provide n) = some s' ∧ s'.reported = s.reported ∧
      s'.indexer.stopAt = s.indexer.stopAt ∧ s'.indexer.pending = s.indexer.pending ∧
      (s'.toGo packed plain < s.toGo packed plain ∨
        s.indexer.eof = true ∧ s'.toGo packed plain ≤ s.toGo packed plain) := by
  rw [IndexSession.drive, if_pos hwanted]
  match htake : (packed.drop s.next).take (n + 1) with
  | [] =>
    refine ⟨_, rfl, rfl, rfl, rfl, ?_⟩
    have hwork : StreamIndexer.work packed plain s.indexer.signalEof =
        StreamIndexer.work packed plain s.indexer := rfl
    have hpending : s.indexer.signalEof.pending = s.indexer.pending := rfl
    have hseek : s.indexer.signalEof.state.toSeek packed = 0 := rfl
    have hlive : (!s.indexer.signalEof.eof).toNat = 0 := rfl
    simp only [IndexSession.toGo, hwork, hpending, hseek, hlive]
    cases heof : s.indexer.eof with
    | false =>
      refine .inl ?_
      simp only [Bool.not_false, Bool.toNat_true]
      omega
    | true => exact .inr ⟨rfl, by omega⟩
  | b :: bs =>
    refine ⟨_, rfl, rfl, rfl, rfl, .inl ?_⟩
    have hlen := congrArg List.length htake
    rw [List.length_take, List.length_drop] at hlen
    simp only [List.length_cons] at hlen
    have hwork : StreamIndexer.work packed plain (s.indexer.provideData (b :: bs)) =
        StreamIndexer.work packed plain s.indexer := rfl
    have hpending : (s.indexer.provideData (b :: bs)).pending = s.indexer.pending := rfl
    have hseek : (s.indexer.provideData (b :: bs)).state.toSeek packed = 0 := rfl
    have hlive : (s.indexer.provideData (b :: bs)).eof = s.indexer.eof := rfl
    simp only [IndexSession.toGo, hwork, hpending, hseek, hlive, List.length_cons]
    omega

/-- Each turn of a caller that keeps answering brings the pass closer to its end. -/
theorem IndexInv.turn (impl : CheckpointStrategy τ) (hC : Obeys codec packed plain At)
    {s : IndexSession σ κ τ} (h : IndexInv codec packed plain At s) (hemits : Emitted plain s)
    (cut : Nat × Nat) :
    ∃ s', s.turn impl packed (StreamIndexer.stepFuel packed plain) cut = some s' ∧
      IndexInv codec packed plain At s' ∧ Emitted plain s' ∧
      s'.indexer.stopAt = s.indexer.stopAt ∧
      (s'.reported = some .done ∧ s'.indexer.pending = [] ∧ s'.indexer.state = .done ∨
        s'.toGo packed plain < s.toGo packed plain) := by
  rw [IndexSession.turn]
  by_cases hnil : s.indexer.pending = []
  · rw [if_pos hnil]
    obtain ⟨request, x', hstep⟩ := StreamIndexer.step_reports impl hC h.sound
    have hout := StreamIndexer.step_outcome impl hC h.sound hstep
    have hdrive : s.drive impl packed (.step (StreamIndexer.stepFuel packed plain)) = some { s with
        indexer := x'
        next := StreamIndexer.nextAfter s.next (some request)
        wanted := request.wantsInput
        reported := some request } := by
      rw [IndexSession.drive, hstep]
    have hinv := h.drive impl hC hdrive
    have hemits' := hemits.drive impl hC h (e := .step (StreamIndexer.stepFuel packed plain))
      (by rw [IndexSession.driveDrained, if_pos hnil]; exact hdrive)
    have heof := hout.covers.eof
    have hle := hout.work_le
    have hnone := congrArg List.length hnil
    rw [List.length_nil] at hnone
    have hsettled : x'.state.toSeek packed = 0 := by
      match hstate : x'.state with
      | .seek offset => exact absurd hstate (hout.settled offset)
      | .needInput => rfl
      | .processing => rfl
      | .done => rfl
    rw [hdrive]
    simp only
    cases request with
    | outputReady =>
      obtain ⟨hless, hpos⟩ := hout.ready rfl hnil
      refine ⟨_, rfl, hinv, hemits', hout.covers.stopAt, .inr ?_⟩
      simp only [IndexSession.toGo, heof, hsettled, StreamIndexer.nextAfter]
      omega
    | done =>
      exact ⟨_, rfl, hinv, hemits', hout.covers.stopAt,
        .inl ⟨rfl, hout.quiet (by simp) hnil, hout.ended rfl⟩⟩
    | error f => exact absurd rfl (hout.fine f)
    | needInput =>
      have hquiet := congrArg List.length (hout.quiet (by simp) hnil)
      rw [List.length_nil] at hquiet
      obtain ⟨s', hprovide, _, hstop, _, hgo⟩ :=
        IndexSession.provide_toGo impl packed plain { s with
          indexer := x'
          next := StreamIndexer.nextAfter s.next (some .needInput)
          wanted := EngineRequest.needInput.wantsInput
          reported := some .needInput } rfl cut.1
      refine ⟨s', hprovide, hinv.drive impl hC hprovide,
        hemits'.drive impl hC hinv (e := .provide cut.1) hprovide,
        hstop.trans hout.covers.stopAt, .inr ?_⟩
      have hmoved := hout.moved rfl
      have hstart : s.toGo packed plain = 2 * StreamIndexer.work packed plain s.indexer +
        s.indexer.pending.length + (packed.length - s.next) + (!s.indexer.eof).toNat +
        s.indexer.state.toSeek packed := rfl
      rcases hgo with hgo | ⟨hended, hgo⟩
      · refine Nat.lt_of_lt_of_le hgo ?_
        simp only [IndexSession.toGo, heof, hsettled, StreamIndexer.nextAfter]
        omega
      · refine Nat.lt_of_le_of_lt hgo ?_
        have := hmoved hended
        simp only [IndexSession.toGo, heof, hsettled, StreamIndexer.nextAfter]
        omega
    | seekAndRead a b =>
      have hquiet := congrArg List.length (hout.quiet (by simp) hnil)
      rw [List.length_nil] at hquiet
      obtain ⟨⟨offset, hseek⟩, _⟩ := hout.sought a b rfl
      obtain ⟨s', hprovide, _, hstop, _, hgo⟩ :=
        IndexSession.provide_toGo impl packed plain { s with
          indexer := x'
          next := StreamIndexer.nextAfter s.next (some (.seekAndRead a b))
          wanted := (EngineRequest.seekAndRead a b).wantsInput
          reported := some (.seekAndRead a b) } rfl cut.1
      refine ⟨s', hprovide, hinv.drive impl hC hprovide,
        hemits'.drive impl hC hinv (e := .provide cut.1) hprovide,
        hstop.trans hout.covers.stopAt, .inr ?_⟩
      refine Nat.lt_of_le_of_lt (hgo.elim Nat.le_of_lt fun h => h.2) ?_
      have hcost : s.indexer.state.toSeek packed = packed.length + 1 := by rw [hseek]; rfl
      simp only [IndexSession.toGo, heof, hsettled, hcost, StreamIndexer.nextAfter]
      omega
  · rw [if_neg hnil]
    obtain ⟨hsplit, hlen, hsame⟩ := s.indexer.readOutput_spec (cut.2 + 1)
    have hread : s.drive impl packed (.read (cut.2 + 1)) = some { s with
        indexer := (s.indexer.readOutput (cut.2 + 1)).2
        emitted := s.emitted ++ (s.indexer.readOutput (cut.2 + 1)).1 } := rfl
    refine ⟨_, hread, h.drive impl hC hread, hemits.drive impl hC h (e := .read (cut.2 + 1)) hread,
      by rw [hsame], .inr ?_⟩
    have hpos := List.length_pos_of_ne_nil hnil
    have hboth := congrArg List.length hsplit
    rw [List.length_append] at hboth
    have hwork : StreamIndexer.work packed plain (s.indexer.readOutput (cut.2 + 1)).2 =
        StreamIndexer.work packed plain s.indexer := by rw [hsame]; rfl
    have heof : (s.indexer.readOutput (cut.2 + 1)).2.eof = s.indexer.eof := by rw [hsame]
    have hstate : (s.indexer.readOutput (cut.2 + 1)).2.state = s.indexer.state := by rw [hsame]
    simp only [IndexSession.toGo, hwork, heof, hstate]
    omega

/-- A caller that keeps answering finishes the pass, after boundedly many turns. -/
theorem IndexInv.turns (impl : CheckpointStrategy τ) (hC : Obeys codec packed plain At) :
    ∀ (cuts : List (Nat × Nat)) (s : IndexSession σ κ τ), IndexInv codec packed plain At s →
      Emitted plain s → s.toGo packed plain < cuts.length →
      ∃ n s', (cuts.take n).foldlM
          (IndexSession.turn impl packed (StreamIndexer.stepFuel packed plain)) s = some s' ∧
        IndexInv codec packed plain At s' ∧ Emitted plain s' ∧
        s'.indexer.stopAt = s.indexer.stopAt ∧ s'.reported = some .done ∧
        s'.indexer.pending = [] ∧ s'.indexer.state = .done := by
  intro cuts
  induction cuts with
  | nil => intro s _ _ hgo; exact absurd hgo (Nat.not_lt_zero _)
  | cons cut cuts ih =>
    intro s h hemits hgo
    rw [List.length_cons] at hgo
    obtain ⟨s₁, hturn, hinv, hemits₁, hstop, hcase⟩ := h.turn impl hC hemits cut
    rcases hcase with hdone | hless
    · refine ⟨1, s₁, ?_, hinv, hemits₁, hstop, hdone⟩
      rw [List.take_succ_cons, List.take_zero, List.foldlM_cons, hturn]
      rfl
    · obtain ⟨n, s₂, hfold, hinv₂, hemits₂, hstop₂, hdone⟩ := ih s₁ hinv hemits₁ (by omega)
      refine ⟨n + 1, s₂, ?_, hinv₂, hemits₂, hstop₂.trans hstop, hdone⟩
      rw [List.take_succ_cons, List.foldlM_cons, hturn]
      exact hfold

namespace StreamIndexer

/-- Over any number of passes, stopped and resumed anywhere, a caller that drains the
output is handed the plain text once, in order, as far as the stream is covered; the
table starts at offset 0 and rises strictly, its running count is exact, and the index
is complete only where the decoder reported the end or the stream has no bytes.  A pass
that is kept going finishes, and one without a stopping point completes the stream. -/
theorem covers_exactly_once (impl : CheckpointStrategy τ) (hC : Obeys codec packed plain At)
    (strategy : τ) (compressedLen : Option Nat) :
    ∃ x, StreamIndexer.new codec strategy compressedLen = .ok x ∧
      ∀ (es : List (IndexEvent τ)) (s : IndexSession σ κ τ),
        es.foldlM (IndexSession.driveDrained impl packed) (IndexSession.start x []) = some s →
        s.emitted ++ s.indexer.pending = plain.take s.indexer.index.indexedTo ∧
        s.indexer.index.indexedTo = (s.emitted ++ s.indexer.pending).length ∧
        (∃ cp cps, s.indexer.index.checkpoints = cp :: cps ∧ cp.uncompressedOffset = 0) ∧
        (s.indexer.index.checkpoints.Pairwise fun a b =>
          a.uncompressedOffset < b.uncompressedOffset) ∧
        s.indexer.checkpointDataBytes = s.indexer.index.checkpointDataBytes ∧
        (s.indexer.index.complete = true →
          s.indexer.index.unpackedLen = some plain.length ∧
          s.emitted ++ s.indexer.pending = plain ∧
          (Reported codec s.indexer.decompressor ∨ packed = [])) ∧
        (∀ f, s.reported ≠ some (.error f)) ∧
        ∀ cuts : List (Nat × Nat), s.toGo packed plain < cuts.length →
          ∃ n s', (cuts.take n).foldlM
              (IndexSession.turn impl packed (stepFuel packed plain)) s = some s' ∧
            s'.reported = some .done ∧ s'.emitted = plain.take s'.indexer.index.indexedTo ∧
            (s.indexer.stopAt = none →
              s'.indexer.index.complete = true ∧ s'.emitted = plain) := by
  obtain ⟨x, hnew, hsound, hnone, hzero⟩ := new_sound hC strategy compressedLen
  refine ⟨x, hnew, fun es s hrun => ?_⟩
  have hstart : IndexInv codec packed plain At (IndexSession.start x []) ∧
      Emitted plain (IndexSession.start x []) := by
    refine ⟨IndexInv.start hsound, rfl, ?_⟩
    show [] ++ x.pending = plain.take x.index.indexedTo
    rw [hnone, hzero]
    rfl
  obtain ⟨hinv, hemits⟩ := foldlM_invariant
    (I := fun s => IndexInv codec packed plain At s ∧ Emitted plain s)
    (fun s e s' hI hd => ⟨hI.1.drive impl hC (IndexSession.drive_of_drained hd),
      hI.2.drive impl hC hI.1 hd⟩) es _ s hstart hrun
  have hcovered := hemits.covered
  have hall : s.indexer.index.complete = true →
      s.emitted ++ s.indexer.pending = plain := by
    intro hcomplete
    rw [hcovered, (hinv.sound.complete hcomplete).indexedTo, List.take_length]
  refine ⟨hcovered, ?_, hinv.sound.laid.table.first, hinv.sound.laid.table.increasing,
    hinv.sound.laid.bytes, fun hcomplete => ?_, hinv.fine, fun cuts hcuts => ?_⟩
  · rw [hcovered, List.length_take, Nat.min_eq_left hinv.sound.indexed]
  · have hdone := hinv.sound.complete hcomplete
    exact ⟨hdone.unpackedLen, hall hcomplete, hdone.reported⟩
  · obtain ⟨n, s', hfold, hinv', hemits', hstop, hdone, hnil, hstate⟩ :=
      IndexInv.turns impl hC cuts s hinv hemits hcuts
    have hcovered' := hemits'.covered
    rw [hnil, List.append_nil] at hcovered'
    refine ⟨n, s', hfold, hdone, hcovered', fun hfree => ?_⟩
    have hcomplete := (hinv'.sound.done hstate).resolve_right (by simp [hstop, hfree])
    refine ⟨hcomplete, ?_⟩
    rw [hcovered', (hinv'.sound.complete hcomplete).indexedTo, List.take_length]

/-- Stored bytes indexed with a checkpoint every two bytes. -/
theorem covers_exactly_once_copy :
    let plain : List Byte := [1, 2, 3, 4, 5]
    ∃ x, StreamIndexer.new NoneDecompressor.codec 2 (some 5) = .ok x ∧
      ∀ (es : List (IndexEvent Nat)) (s : IndexSession NoneDecompressor Empty Nat),
        es.foldlM (IndexSession.driveDrained .fixedInterval plain) (IndexSession.start x []) =
          some s →
        s.emitted ++ s.indexer.pending = plain.take s.indexer.index.indexedTo := by
  intro plain
  obtain ⟨x, hnew, h⟩ :=
    covers_exactly_once .fixedInterval (NoneDecompressor.obeys plain) 2 (some 5)
  exact ⟨x, hnew, fun es s hrun => (h es s hrun).1⟩

end StreamIndexer
end Iluvatar
