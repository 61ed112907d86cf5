/-
Every step of an archive engine ends.

A parser advances: what it is behind with grows by less than a fixed amount for each byte it
takes, and shrinks where it takes none.  Then no stream of any kind keeps the engine in one
of its loops, and a step leaves less of the stream to be done or waits for more of it.
-/
import Iluvatar.Engine.HandedOut
import Iluvatar.Library.Ends

namespace Iluvatar

open Sansio

variable {σ κ τ ρ : Type} {codec : Codec σ κ} {packed plain : List Byte} {At : σ → Nat → Nat → Prop}

/-- From good states a parser gets on with every call that is not the last. -/
structure Advances (parser : ArchiveParser ρ) (good : ρ → Prop) (rank : ρ → Nat) (weight : Nat) : Prop where
  created : ∀ format, good (parser.create format)
  within : ∀ {p p' : ρ} {data : List Byte} {n : Nat} {event : ArchiveEvent}, good p → data ≠ [] →
    parser.feed p data = (.ok (n, event), p') → n ≤ data.length
  kept : ∀ {p p' : ρ} {data : List Byte} {n : Nat} {event : ArchiveEvent}, good p → data ≠ [] →
    parser.feed p data = (.ok (n, event), p') → good p'
  less : ∀ {p p' : ρ} {data : List Byte} {n : Nat} {event : ArchiveEvent}, good p → data ≠ [] →
    parser.feed p data = (.ok (n, event), p') → event ≠ .endOfArchive → (event = .needData → 0 < n) →
    rank p' < rank p + weight * n

theorem StreamIndexer.step_ends (impl : CheckpointStrategy τ) (hC : Obeys codec packed plain At) {next : Nat}
    {x : StreamIndexer σ κ τ} (h : Sound codec packed plain At next x) :
    ∃ request x', Ends (fun fuel => step impl fuel x) (request, x') := by
  obtain ⟨request, x', hstep⟩ := step_reports impl hC h
  exact ⟨request, x', stepFuel packed plain, fun fuel hfuel => untilSome_mono hfuel hstep⟩

namespace IndexingEngine

variable {parser : ArchiveParser ρ} {good : ρ → Prop} {rank : ρ → Nat} {weight : Nat}

/-- The parser of the engine, if there is one yet, is in a good state. -/
def Parsing (good : ρ → Prop) (e : IndexingEngine σ κ τ ρ) : Prop := ∀ p, e.archiveParser = some p → good p

theorem feedToParser_ends (hadv : Advances parser good rank weight) :
    ∀ (k : Nat) (data : List Byte) (e : IndexingEngine σ κ τ ρ) {p : ρ}, e.archiveParser = some p → good p →
      weight * data.length + rank p + data.length < k →
      ∃ f e', Ends (fun fuel => feedToParser parser fuel data e) (f, e') ∧ (f = none → Parsing good e') := by
  intro k
  induction k with
  | zero => intro data e _ _ _ hk; exact absurd hk (Nat.not_lt_zero _)
  | succ k ih =>
    intro data e p hparser hgood hk
    by_cases hnil : data = []
    · refine ⟨none, e, .of_succ (.always fun fuel => ?_), fun _ q hq => ?_⟩
      · simp only [feedToParser, hparser, hnil, List.isEmpty_nil, if_true]
      · rw [hparser] at hq
        obtain rfl := Option.some.inj hq
        exact hgood
    · have hempty : data.isEmpty = false := by simpa using hnil
      cases hfeed : parser.feed p data with
      | mk answer p' =>
        cases answer with
        | error fault =>
          refine ⟨some fault, { e with archiveParser := some p' }, .of_succ (.always fun fuel => ?_),
            fun h => by cases h⟩
          simp only [feedToParser, hparser, hempty, hfeed, Bool.false_eq_true, if_false]
        | ok pair =>
          obtain ⟨n, event⟩ := pair
          have hwithin := hadv.within hgood hnil hfeed
          have hkept := hadv.kept hgood hnil hfeed
          have hparsing : ∀ {e₁ : IndexingEngine σ κ τ ρ}, e₁.archiveParser = some p' → Parsing good e₁ := by
            intro e₁ he₁ q hq
            rw [he₁] at hq
            obtain rfl := Option.some.inj hq
            exact hkept
          have hdrop : (data.drop n).length = data.length - n := List.length_drop
          have hpos := List.length_pos_iff.mpr hnil
          have hfewer : rank p' < rank p + weight * n →
              weight * (data.drop n).length + rank p' + (data.drop n).length < k := by
            intro hless
            have hsplit : weight * data.length = weight * (data.length - n) + weight * n := by
              rw [← Nat.mul_add, Nat.sub_add_cancel hwithin]
            rw [hdrop]
            omega
          cases event with
          | entry entry =>
            have hless := hadv.less hgood hnil hfeed (by simp) (by simp)
            obtain ⟨f, e', hends, hthen⟩ := ih (data.drop n)
              { e with archiveParser := some p', indexBuilder := e.indexBuilder.addEntry entry } rfl hkept
              (hfewer hless)
            refine ⟨f, e', .of_succ (hends.map fun fuel hrun => ?_), hthen⟩
            simp only [feedToParser, hparser, hempty, hfeed, Bool.false_eq_true, if_false]
            exact hrun
          | needData =>
            by_cases hzero : n = 0
            · refine ⟨none, { e with archiveParser := some p' }, .of_succ (.always fun fuel => ?_),
                fun _ => hparsing rfl⟩
              simp only [feedToParser, hparser, hempty, hfeed, hzero, Bool.false_eq_true, if_false, if_true]
            · have hless := hadv.less hgood hnil hfeed (by simp) (fun _ => Nat.pos_of_ne_zero hzero)
              obtain ⟨f, e', hends, hthen⟩ := ih (data.drop n) { e with archiveParser := some p' } rfl hkept
                (hfewer hless)
              refine ⟨f, e', .of_succ (hends.map fun fuel hrun => ?_), hthen⟩
              simp only [feedToParser, hparser, hempty, hfeed, hzero, Bool.false_eq_true, if_false]
              exact hrun
          | endOfArchive =>
            refine ⟨none, { e with archiveParser := some p', done := true }, .of_succ (.always fun fuel => ?_),
              fun _ => hparsing rfl⟩
            simp only [feedToParser, hparser, hempty, hfeed, Bool.false_eq_true, if_false]

theorem replay_ends (hadv : Advances parser good rank weight) (format : ArchiveFormat)
    (e : IndexingEngine σ κ τ ρ) :
    ∃ f e', Ends (fun fuel => replay parser fuel format e) (f, e') ∧ (f = none → Parsing good e') := by
  obtain ⟨f, e', hends, hthen⟩ := feedToParser_ends hadv _ e.detectBuf
    { e with
      archiveParser := some (parser.create format)
      indexBuilder := e.indexBuilder.setArchiveFormat format
      detectBuf := [] } rfl (hadv.created format) (Nat.lt_succ_self _)
  exact ⟨f, e', hends, hthen⟩

/-- Draining ends, with the archive over or no output left. -/
theorem drainOutput_ends (hadv : Advances parser good rank weight) :
    ∀ (k : Nat) {e : IndexingEngine σ κ τ ρ}, Parsing good e → e.indexer.pending.length < k →
      ∃ f e', Ends (fun fuel => drainOutput parser fuel e) (f, e') ∧
        (f = none → Parsing good e' ∧ (e'.done = true ∨ e'.indexer.pending = [])) := by
  intro k
  induction k with
  | zero => intro e _ hk; exact absurd hk (Nat.not_lt_zero _)
  | succ k ih =>
    intro e hparsing hk
    obtain ⟨hsplit, hlen, _⟩ := e.indexer.readOutput_spec bufSize
    cases hread : e.indexer.readOutput bufSize with
    | mk data indexer =>
      rw [hread] at hsplit hlen
      simp only at hsplit hlen
      have hbuf : 0 < bufSize := by decide
      have hboth := congrArg List.length hsplit
      rw [List.length_append] at hboth
      by_cases hnil : data = []
      · refine ⟨none, { e with indexer }, .of_succ (.always fun fuel => ?_), fun _ => ⟨hparsing, .inr ?_⟩⟩
        · simp only [drainOutput, hread, hnil, List.isEmpty_nil, if_true]
        · rw [hnil, List.length_nil] at hlen
          rw [hnil, List.length_nil] at hboth
          exact List.eq_nil_of_length_eq_zero (by show indexer.pending.length = 0; omega)
      · have hempty : data.isEmpty = false := by simpa using hnil
        have hpos := List.length_pos_iff.mpr hnil
        have hfewer : indexer.pending.length < k := by omega
        cases hparser : e.archiveParser with
        | none =>
          cases hdetect : detectArchiveFormat (e.detectBuf ++ data) with
          | none =>
            obtain ⟨f, e', hends, hthen⟩ := ih (e := { e with indexer, detectBuf := e.detectBuf ++ data })
              (fun p hp => hparsing p hp) hfewer
            refine ⟨f, e', .of_succ (hends.map fun fuel hrun => ?_), hthen⟩
            simp only [hparser] at hrun
            simp only [drainOutput, hread, hempty, hparser, hdetect, Bool.false_eq_true, if_false]
            exact hrun
          | some format =>
            obtain ⟨f, e₁, hends, hthen⟩ := replay_ends hadv format
              { e with indexer, detectBuf := e.detectBuf ++ data }
            obtain ⟨_, hgave⟩ := hends.gives
            have hindexer := replay_indexer parser hgave
            cases f with
            | some fault =>
              refine ⟨some fault, e₁, .of_succ (hends.map fun fuel hrun => ?_), fun h => by cases h⟩
              simp only [hparser] at hrun
              simp only [drainOutput, hread, hempty, hparser, hdetect, Bool.false_eq_true, if_false]
              rw [hrun]
            | none =>
              by_cases hdone : e₁.done = true
              · refine ⟨none, e₁, .of_succ (hends.map fun fuel hrun => ?_), fun _ => ⟨hthen rfl, .inl hdone⟩⟩
                simp only [hparser] at hrun
                simp only [drainOutput, hread, hempty, hparser, hdetect, Bool.false_eq_true, if_false]
                rw [hrun]
                simp only [hdone, if_true]
              · obtain ⟨f, e', hends', hthen'⟩ := ih (hthen rfl) (by rw [hindexer]; exact hfewer)
                refine ⟨f, e', .of_succ (hends.andThen hends' fun fuel hrun => ?_), hthen'⟩
                simp only [hparser] at hrun
                simp only [drainOutput, hread, hempty, hparser, hdetect, Bool.false_eq_true, if_false]
                rw [hrun]
                simp only [hdone, Bool.false_eq_true, if_false]
        | some p =>
          by_cases hdone : e.done = true
          · obtain ⟨f, e', hends, hthen⟩ := ih (e := { e with indexer }) hparsing hfewer
            refine ⟨f, e', .of_succ (hends.map fun fuel hrun => ?_), hthen⟩
            simp only [hparser, hdone] at hrun
            simp only [drainOutput, hread, hempty, hparser, hdone, Bool.false_eq_true, if_false, if_true]
            exact hrun
          · obtain ⟨f, e₁, hends, hthen⟩ := feedToParser_ends hadv _ data { e with indexer }
              (by exact hparser) (hparsing p hparser) (Nat.lt_succ_self _)
            obtain ⟨_, hgave⟩ := hends.gives
            have hindexer := feedToParser_indexer parser _ _ _ _ _ hgave
            cases f with
            | some fault =>
              refine ⟨some fault, e₁, .of_succ (hends.map fun fuel hrun => ?_), fun h => by cases h⟩
              simp only [hparser, hdone] at hrun
              simp only [drainOutput, hread, hempty, hparser, hdone, Bool.false_eq_true, if_false]
              rw [hrun]
            | none =>
              obtain ⟨f, e', hends', hthen'⟩ := ih (hthen rfl) (by rw [hindexer]; exact hfewer)
              refine ⟨f, e', .of_succ (hends.andThen hends' fun fuel hrun => ?_), hthen'⟩
              simp only [hparser, hdone] at hrun
              simp only [drainOutput, hread, hempty, hparser, hdone, Bool.false_eq_true, if_false]
              rw [hrun]

theorem endOfStream_ends (hadv : Advances parser good rank weight) (e : IndexingEngine σ κ τ ρ) :
    ∃ f e', Ends (fun fuel => endOfStream parser fuel e) (f, e') := by
  cases hparser : e.archiveParser with
  | some p => exact ⟨_, _, .always fun fuel => by simp only [endOfStream, hparser]; rfl⟩
  | none =>
    by_cases hnil : e.detectBuf.isEmpty = true
    · exact ⟨_, _, .always fun fuel => by simp only [endOfStream, hparser, hnil, if_true]; rfl⟩
    · obtain ⟨f, e₁, hends, _⟩ := replay_ends hadv .tar e
      cases f with
      | some fault =>
        refine ⟨some fault, e₁, hends.map fun fuel hrun => ?_⟩
        simp only [endOfStream, hparser, hnil, Bool.false_eq_true, if_false]
        rw [hrun]
      | none =>
        refine ⟨(if e₁.done then (.none, e₁) else closeParser parser e₁).1,
          (if e₁.done then (.none, e₁) else closeParser parser e₁).2, hends.map fun fuel hrun => ?_⟩
        simp only [endOfStream, hparser, hnil, Bool.false_eq_true, if_false]
        rw [hrun]

/-- An engine in the middle of a first pass. -/
structure Driven (codec : Codec σ κ) (packed plain : List Byte) (At : σ → Nat → Nat → Prop) (good : ρ → Prop)
    (next : Nat) (e : IndexingEngine σ κ τ ρ) : Prop where
  sound : StreamIndexer.Sound codec packed plain At next e.indexer
  quiet : e.done = true ∨ e.indexer.pending = []
  parsing : Parsing good e
  forward : ∀ offset, e.indexer.state ≠ .seek offset

/-- What a round of `step` comes to, or a whole step, which is not silent. -/
inductive Round (codec : Codec σ κ) (packed plain : List Byte) (At : σ → Nat → Nat → Prop) (good : ρ → Prop)
    (next : Nat) (e : IndexingEngine σ κ τ ρ) : Option EngineRequest → IndexingEngine σ κ τ ρ → Prop
  | silent {e'} (driven : Driven codec packed plain At good next e')
      (less : StreamIndexer.work packed plain e'.indexer < StreamIndexer.work packed plain e.indexer)
      (eof : e'.indexer.eof = e.indexer.eof) : Round codec packed plain At good next e none e'
  | needInput {e'} (driven : Driven codec packed plain At good next e') (waiting : Waiting packed next e'.indexer)
      (le : StreamIndexer.work packed plain e'.indexer ≤ StreamIndexer.work packed plain e.indexer)
      (eof : e'.indexer.eof = e.indexer.eof)
      (moved : e'.indexer.eof = true →
        StreamIndexer.work packed plain e'.indexer < StreamIndexer.work packed plain e.indexer) :
      Round codec packed plain At good next e (some .needInput) e'
  | done {e'} : Round codec packed plain At good next e (some .done) e'
  | failed {f e'} : Round codec packed plain At good next e (some (.error f)) e'

theorem Round.after {next : Nat} {e e₁ e' : IndexingEngine σ κ τ ρ} {request : EngineRequest}
    (h : Round codec packed plain At good next e none e₁)
    (h' : Round codec packed plain At good next e₁ (some request) e') :
    Round codec packed plain At good next e (some request) e' := by
  cases h with
  | silent driven less eof =>
    cases h' with
    | needInput driven' waiting le eof' moved =>
      exact .needInput driven' waiting (by omega) (eof'.trans eof) fun h => Nat.lt_trans (moved h) less
    | done => exact .done
    | failed => exact .failed

theorem stepOnce_ends (hadv : Advances parser good rank weight) (impl : CheckpointStrategy τ)
    (hC : Obeys codec packed plain At) {next : Nat} {e : IndexingEngine σ κ τ ρ}
    (h : Driven codec packed plain At good next e) :
    ∃ request e', Ends (fun fuel => stepOnce parser impl fuel e) (request, e') ∧
      Round codec packed plain At good next e request e' := by
  by_cases hdone : e.done = true
  · exact ⟨_, _, .always fun fuel => by simp only [stepOnce, hdone, if_true]; rfl, .done⟩
  · have hquiet := h.quiet.resolve_left hdone
    obtain ⟨inner, x', hinner⟩ := StreamIndexer.step_ends impl hC h.sound
    obtain ⟨_, hgave⟩ := hinner.gives
    have hout := StreamIndexer.step_outcome impl hC h.sound hgave
    have hle := hout.work_le
    cases inner with
    | outputReady =>
      obtain ⟨hless, hpos⟩ := hout.ready rfl hquiet
      obtain ⟨f, e', hends, hthen⟩ := drainOutput_ends hadv _ (e := { e with indexer := x' }) h.parsing
        (Nat.lt_succ_self _)
      obtain ⟨_, hdrained⟩ := hends.gives
      obtain ⟨outBuf, outRead, hsame⟩ := drainOutput_indexer parser
        (P := fun x => ∃ outBuf outRead, x = { x' with outBuf, outRead })
        (fun x n hx => by
          obtain ⟨outBuf, outRead, rfl⟩ := hx
          rw [(StreamIndexer.readOutput_spec _ n).2.2]
          exact ⟨_, _, rfl⟩) _ _ _ _ ⟨x'.outBuf, x'.outRead, rfl⟩ hdrained
      have hwork : StreamIndexer.work packed plain e'.indexer = StreamIndexer.work packed plain x' := by rw [hsame]; rfl
      have heof : e'.indexer.eof = x'.eof := by rw [hsame]
      have hstate : e'.indexer.state = x'.state := by rw [hsame]
      cases f with
      | some fault =>
        refine ⟨_, e', hinner.both hends fun fuel hrun hdrain => ?_, .failed (f := fault)⟩
        rw [stepOnce, if_neg hdone, hrun]
        simp only
        rw [hdrain]
      | none =>
        obtain ⟨hparsing, hquiet'⟩ := hthen rfl
        refine ⟨none, e', hinner.both hends fun fuel hrun hdrain => ?_,
          .silent ⟨?_, hquiet', hparsing, ?_⟩ (by omega) (heof.trans hout.covers.eof)⟩
        · rw [stepOnce, if_neg hdone, hrun]
          simp only
          rw [hdrain]
        · rw [hsame]
          exact hout.sound.withOutput _ _ x'.stopAt id
        · rw [hstate]
          exact hout.settled
    | done =>
      obtain ⟨f, e', hends⟩ := endOfStream_ends hadv { e with indexer := x' }
      cases f with
      | some fault =>
        refine ⟨_, e', hinner.both hends fun fuel hrun hend => ?_, .failed (f := fault)⟩
        rw [stepOnce, if_neg hdone, hrun]
        simp only
        rw [hend]
      | none =>
        refine ⟨_, { e' with done := true }, hinner.both hends fun fuel hrun hend => ?_, .done⟩
        rw [stepOnce, if_neg hdone, hrun]
        simp only
        rw [hend]
    | error f => exact absurd rfl (hout.fine f)
    | needInput =>
      refine ⟨_, { e with indexer := x' }, hinner.map fun fuel hrun => ?_,
        .needInput ⟨hout.sound, .inr (hout.quiet (by simp) hquiet), h.parsing, hout.settled⟩ (hout.waits rfl) hle
          hout.covers.eof (hout.moved rfl)⟩
      rw [stepOnce, if_neg hdone, hrun]
    | seekAndRead a b =>
      obtain ⟨⟨offset, hseek⟩, _⟩ := hout.sought a b rfl
      exact absurd hseek (h.forward offset)

/-- A whole step ends, too. -/
theorem step_ends (hadv : Advances parser good rank weight) (impl : CheckpointStrategy τ)
    (hC : Obeys codec packed plain At) {next : Nat} :
    ∀ (k : Nat) {e : IndexingEngine σ κ τ ρ}, Driven codec packed plain At good next e →
      StreamIndexer.work packed plain e.indexer < k →
      ∃ request e', RoundsEnd (fun fuel rounds => step parser impl fuel rounds e) (request, e') ∧
        Round codec packed plain At good next e (some request) e' := by
  intro k
  induction k with
  | zero => intro e _ hk; exact absurd hk (Nat.not_lt_zero _)
  | succ k ih =>
    intro e h hk
    obtain ⟨request, e₁, hends, hround⟩ := stepOnce_ends hadv impl hC h
    cases request with
    | some request =>
      refine ⟨request, e₁, RoundsEnd.last hends fun fuel n hrun => ?_, hround⟩
      simp only [step, hrun]
    | none =>
      obtain ⟨hdriven, hless⟩ : Driven codec packed plain At good next e₁ ∧
          StreamIndexer.work packed plain e₁.indexer < StreamIndexer.work packed plain e.indexer := by
        cases hround with
        | silent driven less _ => exact ⟨driven, less⟩
      obtain ⟨request, e', hmore, hrest⟩ := ih hdriven (by omega)
      refine ⟨request, e', RoundsEnd.step hends hmore fun fuel n hrun => ?_, hround.after hrest⟩
      simp only [step, hrun]

end IndexingEngine
end Iluvatar
