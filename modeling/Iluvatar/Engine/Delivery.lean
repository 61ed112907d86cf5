/-
What an `IndexingEngine` hands its parser.

Whatever the decompressor makes of its output and however the caller runs the engine, the
parser gets the plain stream, in order and in nonempty pieces.  `Reads` is what a parser
must keep for each call, and from it comes what holds of the entries when the engine
reports how the indexing ended.
-/
import Iluvatar.Engine.HandedOut

namespace Iluvatar

open Sansio

variable {σ κ τ ρ : Type}

/-- A parser that keeps `I` while the stream `plain` is read, of the bytes it was given,
its state and the entries recorded; `F` holds of the entries where it is content with the
end, and `G` of a fault and the entries before it. -/
structure Reads (parser : ArchiveParser ρ) (plain : List Byte)
    (I : List Byte → ρ → List IndexEntry → Prop) (F : List IndexEntry → Prop)
    (G : Fault → List IndexEntry → Prop) : Prop where
  /-- A call that asks for more has taken something. -/
  needData : ∀ (d data : List Byte) (p p' : ρ) (b : IndexBuilder) (n : Nat), I d p b.entries →
    data ≠ [] → d ++ data <+: plain → parser.feed p data = (.ok (n, .needData), p') →
    0 < n ∧ n ≤ data.length ∧ I (d ++ data.take n) p' b.entries
  entry : ∀ (d data : List Byte) (p p' : ρ) (b : IndexBuilder) (n : Nat) (e : ArchiveEntry),
    I d p b.entries → data ≠ [] → d ++ data <+: plain →
    parser.feed p data = (.ok (n, .entry e), p') →
    n ≤ data.length ∧ I (d ++ data.take n) p' (b.addEntry e).entries
  endOfArchive : ∀ (d data : List Byte) (p p' : ρ) (b : IndexBuilder) (n : Nat), I d p b.entries →
    data ≠ [] → d ++ data <+: plain → parser.feed p data = (.ok (n, .endOfArchive), p') → F b.entries
  error : ∀ (d data : List Byte) (p p' : ρ) (b : IndexBuilder) (fault : Fault), I d p b.entries →
    data ≠ [] → d ++ data <+: plain → parser.feed p data = (.error fault, p') → G fault b.entries
  endOfStream : ∀ (p : ρ) (b : IndexBuilder), I plain p b.entries →
    parser.endOfStream p = .ok () → F b.entries
  truncated : ∀ (p : ρ) (b : IndexBuilder) (err : Error), I plain p b.entries →
    parser.endOfStream p = .error err → G (.error err) b.entries

/-- Detection gives the stream to a parser that starts well. -/
structure Detects (parser : ArchiveParser ρ) (plain : List Byte)
    (I : List Byte → ρ → List IndexEntry → Prop) (F : List IndexEntry → Prop) : Prop where
  detected : ∀ (d : List Byte) (format : ArchiveFormat), d <+: plain →
    detectArchiveFormat d = some format → I [] (parser.create format) []
  /-- A stream too short for detection is read as tar. -/
  undetected : detectArchiveFormat plain = none → I [] (parser.create .tar) []
  empty : plain = [] → F []

namespace IndexingEngine

variable {parser : ArchiveParser ρ} {plain : List Byte}
  {D : Prop} {I : List Byte → ρ → List IndexEntry → Prop} {F : List IndexEntry → Prop}
  {G : Fault → List IndexEntry → Prop}

/-- The parser's part of the engine once it has been given `d`; `D` holds while its format
is to be detected. -/
def Intake (D : Prop) (I : List Byte → ρ → List IndexEntry → Prop) (d : List Byte)
    (e : IndexingEngine σ κ τ ρ) : Prop :=
  match e.archiveParser with
  | none => D ∧ e.detectBuf = d ∧ detectArchiveFormat d = none ∧ e.indexBuilder.entries = []
  | some p => I d p e.indexBuilder.entries

/-- A fault of the parser, with the entries before it. -/
def Failing (G : Fault → List IndexEntry → Prop) (fault : Fault) (e : IndexingEngine σ κ τ ρ) : Prop :=
  G fault e.indexBuilder.entries

/-- What an operation of the engine leaves: `Q`, or a fault of the parser. -/
def Leaves (G : Fault → List IndexEntry → Prop) (Q : IndexingEngine σ κ τ ρ → Prop) (f : Failed)
    (e : IndexingEngine σ κ τ ρ) : Prop :=
  match f with
  | none => Q e
  | some fault => Failing G fault e

/-- What giving the parser bytes comes to: the end of the archive, or `d` read. -/
def Taken (I : List Byte → ρ → List IndexEntry → Prop) (F : List IndexEntry → Prop) (d : List Byte)
    (e : IndexingEngine σ κ τ ρ) : Prop :=
  (e.done = true ∧ (∃ p, e.archiveParser = some p) ∧ F e.indexBuilder.entries) ∨
    (e.done = false ∧ ∃ p, e.archiveParser = some p ∧ I d p e.indexBuilder.entries)

/-- The loop over one piece reads all of it, or comes to the end of the archive. -/
theorem feedToParser_taken (hreads : Reads parser plain I F G) :
    ∀ (fuel : Nat) (d data : List Byte) (p : ρ) (e e' : IndexingEngine σ κ τ ρ) (f : Failed),
      e.archiveParser = some p → e.done = false → I d p e.indexBuilder.entries →
      d ++ data <+: plain → feedToParser parser fuel data e = some (f, e') →
      Leaves G (Taken I F (d ++ data)) f e' := by
  intro fuel
  induction fuel with
  | zero => intro d data p e e' f _ _ _ _ h; simp [feedToParser] at h
  | succ fuel ih =>
    intro d data p e e' f hparser hdone hI hbegins h
    rw [feedToParser, hparser] at h
    simp only at h
    by_cases hnil : data = []
    · subst hnil
      obtain ⟨rfl, rfl⟩ := Prod.mk.inj (Option.some.inj h)
      rw [List.append_nil]
      exact .inr ⟨hdone, p, hparser, hI⟩
    · have hempty : data.isEmpty = false := by simpa using hnil
      rw [hempty] at h
      simp only [Bool.false_eq_true, if_false] at h
      have hsplit : ∀ n, d ++ data = (d ++ data.take n) ++ data.drop n := by
        intro n
        rw [List.append_assoc, List.take_append_drop]
      rcases hfeed : parser.feed p data with ⟨fault | ⟨n, entry | _ | _⟩, p'⟩
      · rw [hfeed] at h
        obtain ⟨rfl, rfl⟩ := Prod.mk.inj (Option.some.inj h)
        exact hreads.error d data p p' e.indexBuilder fault hI hnil hbegins hfeed
      · rw [hfeed] at h
        obtain ⟨_, hI'⟩ := hreads.entry d data p p' e.indexBuilder n entry hI hnil hbegins hfeed
        rw [hsplit n] at hbegins ⊢
        exact ih _ _ p' { e with
          archiveParser := some p'
          indexBuilder := e.indexBuilder.addEntry entry } e' f rfl hdone hI' hbegins h
      · rw [hfeed] at h
        obtain ⟨hpos, _, hI'⟩ := hreads.needData d data p p' e.indexBuilder n hI hnil hbegins hfeed
        simp only [Nat.pos_iff_ne_zero.mp hpos, if_false] at h
        rw [hsplit n] at hbegins ⊢
        exact ih _ _ p' { e with archiveParser := some p' } e' f rfl hdone hI' hbegins h
      · rw [hfeed] at h
        obtain ⟨rfl, rfl⟩ := Prod.mk.inj (Option.some.inj h)
        exact .inl ⟨rfl, ⟨p', rfl⟩, hreads.endOfArchive d data p p' e.indexBuilder n hI hnil hbegins hfeed⟩

theorem replay_taken (hreads : Reads parser plain I F G) {fuel : Nat} {format : ArchiveFormat}
    {e e' : IndexingEngine σ κ τ ρ} {f : Failed} (hdone : e.done = false)
    (hnone : e.indexBuilder.entries = []) (hcreate : I [] (parser.create format) [])
    (hbegins : e.detectBuf <+: plain) (h : replay parser fuel format e = some (f, e')) :
    Leaves G (Taken I F e.detectBuf) f e' := by
  have hI : I [] (parser.create format) (e.indexBuilder.setArchiveFormat format).entries := by
    show I [] (parser.create format) e.indexBuilder.entries
    rw [hnone]
    exact hcreate
  exact feedToParser_taken hreads fuel [] e.detectBuf (parser.create format)
    { e with
      archiveParser := some (parser.create format)
      indexBuilder := e.indexBuilder.setArchiveFormat format
      detectBuf := [] } e' f rfl hdone hI hbegins h

/-- Past the end of the archive the rest of the output is thrown away. -/
theorem drainOutput_over : ∀ (fuel : Nat) (e e' : IndexingEngine σ κ τ ρ) (f : Failed) (p : ρ),
    e.archiveParser = some p → e.done = true → drainOutput parser fuel e = some (f, e') →
    f = none ∧ e'.done = true ∧ e'.indexBuilder = e.indexBuilder := by
  intro fuel
  induction fuel with
  | zero => intro e e' f p _ _ h; simp [drainOutput] at h
  | succ fuel ih =>
    intro e e' f p hparser hdone h
    rw [drainOutput] at h
    simp only [hparser, hdone, if_true] at h
    split at h
    · obtain ⟨rfl, rfl⟩ := Prod.mk.inj (Option.some.inj h)
      exact ⟨rfl, rfl, rfl⟩
    · exact ih { e with
        indexer := (e.indexer.readOutput bufSize).2
        archiveParser := some p
        done := true } e' f p rfl rfl h

/-- What draining leaves: the end of the archive, or everything pending read. -/
def Drained (D : Prop) (I : List Byte → ρ → List IndexEntry → Prop) (F : List IndexEntry → Prop)
    (d : List Byte) (e : IndexingEngine σ κ τ ρ) : Prop :=
  (e.done = true ∧ F e.indexBuilder.entries) ∨
    (e.done = false ∧ e.indexer.pending = [] ∧ Intake D I d e)

theorem Taken.drained {fuel : Nat} {d : List Byte} {e e' : IndexingEngine σ κ τ ρ} {f : Failed}
    (h : Taken I F d e)
    (hrest : e.done = false → Intake D I d e → drainOutput parser fuel e = some (f, e') →
      Leaves G (Drained D I F (d ++ e.indexer.pending)) f e')
    (hdrain : drainOutput parser fuel e = some (f, e')) :
    Leaves G (Drained D I F (d ++ e.indexer.pending)) f e' := by
  rcases h with ⟨hdone, ⟨p, hparser⟩, hF⟩ | ⟨hdone, p, hparser, hI⟩
  · obtain ⟨rfl, hdone', hsame⟩ := drainOutput_over fuel e e' f p hparser hdone hdrain
    exact .inl ⟨hdone', by rw [hsame]; exact hF⟩
  · refine hrest hdone ?_ hdrain
    rw [Intake, hparser]
    exact hI

theorem drainOutput_drained (hreads : Reads parser plain I F G) (hdetects : D → Detects parser plain I F) :
    ∀ (fuel : Nat) (d : List Byte) (e e' : IndexingEngine σ κ τ ρ) (f : Failed), e.done = false →
      Intake D I d e → d ++ e.indexer.pending <+: plain → drainOutput parser fuel e = some (f, e') →
      Leaves G (Drained D I F (d ++ e.indexer.pending)) f e' := by
  intro fuel
  induction fuel with
  | zero => intro d e e' f _ _ _ h; simp [drainOutput] at h
  | succ fuel ih =>
    intro d e e' f hdone hintake hbegins h
    obtain ⟨hout, hlen, _⟩ := e.indexer.readOutput_spec bufSize
    rw [drainOutput] at h
    simp only at h
    generalize hdata : (e.indexer.readOutput bufSize).1 = data at h hout hlen
    generalize hindexer : (e.indexer.readOutput bufSize).2 = indexer at h hout
    by_cases hnil : data = []
    · subst hnil
      obtain ⟨rfl, rfl⟩ := Prod.mk.inj (Option.some.inj h)
      have hpending : e.indexer.pending = [] := by
        refine List.length_eq_zero_iff.mp ?_
        rw [List.length_nil, bufSize] at hlen
        omega
      rw [hpending] at hout ⊢
      rw [List.append_nil]
      exact .inr ⟨hdone, hout, hintake⟩
    · have hempty : data.isEmpty = false := by simpa using hnil
      rw [hempty] at h
      simp only [Bool.false_eq_true, if_false] at h
      rw [← hout, ← List.append_assoc] at hbegins ⊢
      have hread : d ++ data <+: plain := (List.prefix_append _ _).trans hbegins
      rw [Intake] at hintake
      match hparser : e.archiveParser with
      | none =>
        rw [hparser] at hintake
        obtain ⟨hopen, hbuf, _, hentries⟩ := hintake
        simp only [hparser, hbuf] at h
        match hformat : detectArchiveFormat (d ++ data) with
        | none =>
          rw [hformat] at h
          have hintake' : Intake D I (d ++ data)
              { e with indexer, detectBuf := d ++ data, archiveParser := none } :=
            ⟨hopen, rfl, hformat, hentries⟩
          exact ih (d ++ data) { e with indexer, detectBuf := d ++ data, archiveParser := none } e' f
            hdone hintake' hbegins h
        | some format =>
          rw [hformat] at h
          simp only at h
          match hreplay : replay parser fuel format
              { e with indexer, detectBuf := d ++ data, archiveParser := none } with
          | none =>
            rw [hreplay] at h
            simp at h
          | some (some fault, e₁) =>
            rw [hreplay] at h
            obtain ⟨rfl, rfl⟩ := Prod.mk.inj (Option.some.inj h)
            exact replay_taken (e := { e with indexer, detectBuf := d ++ data, archiveParser := none })
              hreads hdone hentries ((hdetects hopen).detected _ _ hread hformat) hread hreplay
          | some (none, e₁) =>
            rw [hreplay] at h
            simp only at h
            have hsame : e₁.indexer = indexer := replay_indexer parser hreplay
            have htaken : Taken I F (d ++ data) e₁ :=
              replay_taken (e := { e with indexer, detectBuf := d ++ data, archiveParser := none })
                hreads hdone hentries ((hdetects hopen).detected _ _ hread hformat) hread hreplay
            rw [← hsame] at hbegins ⊢
            by_cases hended : e₁.done = true
            · rw [if_pos hended] at h
              obtain ⟨rfl, rfl⟩ := Prod.mk.inj (Option.some.inj h)
              rcases htaken with ⟨_, _, hF⟩ | ⟨hgoing, _⟩
              · exact .inl ⟨hended, hF⟩
              · rw [hgoing] at hended
                exact absurd hended (by simp)
            · rw [if_neg hended] at h
              exact htaken.drained (fun hgoing hin => ih _ _ _ _ hgoing hin hbegins) h
      | some p =>
        rw [hparser] at hintake
        simp only [hparser, hdone, Bool.false_eq_true, if_false] at h
        match hfeed : feedToParser parser fuel data { e with indexer, archiveParser := some p, done := false } with
        | none =>
          rw [hfeed] at h
          simp at h
        | some (some fault, e₁) =>
          rw [hfeed] at h
          obtain ⟨rfl, rfl⟩ := Prod.mk.inj (Option.some.inj h)
          exact feedToParser_taken hreads fuel d data p
            { e with indexer, archiveParser := some p, done := false } e₁ (some fault) rfl rfl hintake
            hread hfeed
        | some (none, e₁) =>
          rw [hfeed] at h
          simp only at h
          have hsame : e₁.indexer = indexer := feedToParser_indexer parser _ _ _ _ _ hfeed
          have htaken : Taken I F (d ++ data) e₁ :=
            feedToParser_taken hreads fuel d data p
              { e with indexer, archiveParser := some p, done := false } e₁ none rfl rfl hintake hread hfeed
          rw [← hsame] at hbegins ⊢
          exact htaken.drained (fun hgoing hin => ih _ _ _ _ hgoing hin hbegins) h

/-- The parser's word on the end of the stream. -/
theorem closeParser_settled (hreads : Reads parser plain I F G) {p : ρ} {e e' : IndexingEngine σ κ τ ρ}
    {f : Failed} (hparser : e.archiveParser = some p) (hI : I plain p e.indexBuilder.entries)
    (h : closeParser parser e = (f, e')) : Leaves G (fun e => F e.indexBuilder.entries) f e' := by
  have hsame := closeParser_engine parser e
  rw [h] at hsame
  subst hsame
  rw [closeParser, hparser] at h
  simp only at h
  match hend : parser.endOfStream p with
  | .ok () =>
    rw [hend] at h
    obtain ⟨rfl, _⟩ := Prod.mk.inj h
    exact hreads.endOfStream p e'.indexBuilder hI hend
  | .error err =>
    rw [hend] at h
    obtain ⟨rfl, _⟩ := Prod.mk.inj h
    exact hreads.truncated p e'.indexBuilder err hI hend

theorem endOfStream_settled (hreads : Reads parser plain I F G) (hdetects : D → Detects parser plain I F)
    {fuel : Nat} {e e' : IndexingEngine σ κ τ ρ} {f : Failed} (hdone : e.done = false)
    (hintake : Intake D I plain e) (h : endOfStream parser fuel e = some (f, e')) :
    Leaves G (fun e => F e.indexBuilder.entries) f e' := by
  rw [endOfStream] at h
  rw [Intake] at hintake
  match hparser : e.archiveParser with
  | some p =>
    rw [hparser] at hintake
    simp only [hparser] at h
    exact closeParser_settled hreads hparser hintake (Option.some.inj h)
  | none =>
    rw [hparser] at hintake
    obtain ⟨hopen, hbuf, hnone, hentries⟩ := hintake
    simp only [hparser] at h
    by_cases hnil : plain = []
    · have hempty : e.detectBuf.isEmpty = true := by rw [hbuf, hnil]; rfl
      rw [hempty, if_pos rfl] at h
      obtain ⟨rfl, rfl⟩ := Prod.mk.inj (Option.some.inj h)
      show F e.indexBuilder.entries
      rw [hentries]
      exact (hdetects hopen).empty hnil
    · have hempty : e.detectBuf.isEmpty = false := by
        rw [hbuf]
        simpa using hnil
      rw [hempty] at h
      simp only [Bool.false_eq_true, if_false] at h
      have hbegins : e.detectBuf <+: plain := by rw [hbuf]
      match hreplay : replay parser fuel .tar e with
      | none =>
        rw [hreplay] at h
        simp at h
      | some (some fault, e₁) =>
        rw [hreplay] at h
        obtain ⟨rfl, rfl⟩ := Prod.mk.inj (Option.some.inj h)
        exact replay_taken hreads hdone hentries ((hdetects hopen).undetected hnone) hbegins hreplay
      | some (none, e₁) =>
        rw [hreplay] at h
        simp only at h
        have htaken : Taken I F e.detectBuf e₁ :=
          replay_taken hreads hdone hentries ((hdetects hopen).undetected hnone) hbegins hreplay
        rw [hbuf] at htaken
        rcases htaken with ⟨hended, _, hF⟩ | ⟨hgoing, p, hparser₁, hI⟩
        · rw [if_pos hended] at h
          obtain ⟨rfl, rfl⟩ := Prod.mk.inj (Option.some.inj h)
          exact hF
        · rw [hgoing] at h
          simp only [Bool.false_eq_true, if_false] at h
          exact closeParser_settled hreads hparser₁ hI (Option.some.inj h)

/-- An engine between two requests: `F` holds once it is done, and until then its parser
has been given all that the indexer has covered. -/
structure Delivers (plain : List Byte) (D : Prop) (I : List Byte → ρ → List IndexEntry → Prop)
    (F : List IndexEntry → Prop) (e : IndexingEngine σ κ τ ρ) : Prop where
  emitOutput : e.indexer.emitOutput = true
  stopAt : e.indexer.stopAt = none
  done : e.done = true → F e.indexBuilder.entries
  going : e.done = false →
    e.indexer.pending = [] ∧ Intake D I (plain.take e.indexer.index.indexedTo) e

/-- What an engine's answer to its caller says. -/
structure Answers (plain : List Byte) (D : Prop) (I : List Byte → ρ → List IndexEntry → Prop)
    (F : List IndexEntry → Prop) (G : Fault → List IndexEntry → Prop) (request : Option EngineRequest)
    (e : IndexingEngine σ κ τ ρ) : Prop where
  error : ∀ fault, request = some (.error fault) → Failing G fault e
  going : (∀ fault, request ≠ some (.error fault)) → Delivers plain D I F e
  done : request = some .done → F e.indexBuilder.entries

theorem Answers.failed {fault : Fault} {e : IndexingEngine σ κ τ ρ} (h : Failing G fault e) :
    Answers plain D I F G (some (.error fault)) e where
  error := by
    intro other hsame
    obtain rfl : fault = other := by simpa using hsame
    exact h
  going := fun hfine => absurd rfl (hfine fault)
  done := by simp

theorem Answers.silent {request : Option EngineRequest} {e : IndexingEngine σ κ τ ρ}
    (h : Delivers plain D I F e) (hfine : ∀ fault, request ≠ some (.error fault))
    (hdone : request ≠ some .done) : Answers plain D I F G request e where
  error := fun fault hsame => absurd hsame (hfine fault)
  going := fun _ => h
  done := fun hsame => absurd hsame hdone

section

variable {codec : Codec σ κ} {packed : List Byte} {At : σ → Nat → Nat → Prop}

theorem take_append_seg {a b : Nat} (h : a ≤ b) : plain.take a ++ seg plain a b = plain.take b := by
  rw [← seg_zero, seg_append plain (Nat.zero_le a) h, seg_zero]

theorem stepOnce_delivers (impl : CheckpointStrategy τ) (hC : Obeys codec packed plain At)
    (hreads : Reads parser plain I F G) (hdetects : D → Detects parser plain I F) {fuel next : Nat}
    {e e' : IndexingEngine σ κ τ ρ} {request : Option EngineRequest}
    (hsound : StreamIndexer.Sound codec packed plain At next e.indexer) (h : Delivers plain D I F e)
    (hstep : stepOnce parser impl fuel e = some (request, e')) : Answers plain D I F G request e' := by
  rw [stepOnce] at hstep
  by_cases hended : e.done = true
  · rw [if_pos hended] at hstep
    obtain ⟨rfl, rfl⟩ := Prod.mk.inj (Option.some.inj hstep)
    exact ⟨by simp, fun _ => h, fun _ => h.done hended⟩
  · have hgoing : e.done = false := by simpa using hended
    obtain ⟨hnil, hintake⟩ := h.going hgoing
    rw [if_neg hended] at hstep
    match hinner : e.indexer.step impl fuel with
    | none =>
      rw [hinner] at hstep
      simp at hstep
    | some (inner, x') =>
      rw [hinner] at hstep
      simp only at hstep
      have hout := StreamIndexer.step_outcome impl hC hsound hinner
      have hpending := hout.covers.pending h.emitOutput hnil
      have hall : plain.take e.indexer.index.indexedTo ++ x'.pending =
          plain.take x'.index.indexedTo := by
        rw [hpending]
        exact take_append_seg hout.covers.grows
      have hbegins : plain.take e.indexer.index.indexedTo ++ x'.pending <+: plain := by
        rw [hall]
        exact List.take_prefix _ _
      have hemit : x'.emitOutput = true := hout.covers.emitOutput.trans h.emitOutput
      have hstop : x'.stopAt = none := hout.covers.stopAt.trans h.stopAt
      -- Without new output the parser has been given everything already.
      have hquiet : inner ≠ .outputReady → x'.pending = [] ∧
          Intake D I (plain.take x'.index.indexedTo) { e with indexer := x' } := by
        intro hother
        have hnil' := hout.quiet (by simpa using hother) hnil
        rw [hnil', List.append_nil] at hall
        rw [← hall]
        exact ⟨hnil', hintake⟩
      cases inner with
      | outputReady =>
        simp only at hstep
        match hdrain : drainOutput parser fuel { e with indexer := x' } with
        | none =>
          rw [hdrain] at hstep
          simp at hstep
        | some (some fault, e₁) =>
          rw [hdrain] at hstep
          obtain ⟨rfl, rfl⟩ := Prod.mk.inj (Option.some.inj hstep)
          have hfailing := drainOutput_drained hreads hdetects fuel _ { e with indexer := x' } e₁
            (some fault) hgoing hintake hbegins hdrain
          exact Answers.failed hfailing
        | some (none, e₁) =>
          rw [hdrain] at hstep
          obtain ⟨rfl, rfl⟩ := Prod.mk.inj (Option.some.inj hstep)
          have hdrained : Drained D I F _ e₁ := drainOutput_drained hreads hdetects fuel _
            { e with indexer := x' } e₁ none hgoing hintake hbegins hdrain
          rw [show plain.take e.indexer.index.indexedTo ++
            ({ e with indexer := x' } : IndexingEngine σ κ τ ρ).indexer.pending =
              plain.take x'.index.indexedTo from hall] at hdrained
          have hkept := drainOutput_indexer parser
            (P := fun y => y.emitOutput = true ∧ y.stopAt = none ∧
              y.index.indexedTo = x'.index.indexedTo)
            (fun y n hy => by
              obtain ⟨_, _, hsame⟩ := y.readOutput_spec n
              rw [hsame]
              exact hy) fuel _ _ e₁ ⟨hemit, hstop, rfl⟩ hdrain
          refine Answers.silent ⟨hkept.1, hkept.2.1, ?_, ?_⟩ (by simp) (by simp)
          · intro hdone
            rcases hdrained with ⟨_, hF⟩ | ⟨hnot, _⟩
            · exact hF
            · rw [hnot] at hdone
              exact absurd hdone (by simp)
          · intro hnot
            rcases hdrained with ⟨hdone, _⟩ | ⟨_, hrest⟩
            · rw [hnot] at hdone
              exact absurd hdone (by simp)
            · rw [hkept.2.2]
              exact hrest
      | done =>
        obtain ⟨hnil', hintake'⟩ := hquiet (by simp)
        have hcomplete : x'.index.complete = true := by
          rcases hout.sound.done (hout.ended rfl) with hcomplete | hstopped
          · exact hcomplete
          · exact absurd hstop hstopped
        have hindexed := (hout.sound.complete hcomplete).indexedTo
        rw [hindexed, List.take_length] at hintake'
        simp only at hstep
        match hend : endOfStream parser fuel { e with indexer := x' } with
        | none =>
          rw [hend] at hstep
          simp at hstep
        | some (some fault, e₁) =>
          rw [hend] at hstep
          obtain ⟨rfl, rfl⟩ := Prod.mk.inj (Option.some.inj hstep)
          have hfailing := endOfStream_settled (e := { e with indexer := x' }) hreads hdetects hgoing
            hintake' hend
          exact Answers.failed hfailing
        | some (none, e₁) =>
          rw [hend] at hstep
          obtain ⟨rfl, rfl⟩ := Prod.mk.inj (Option.some.inj hstep)
          have hsame : e₁.indexer = x' := endOfStream_indexer parser hend
          have hF : F e₁.indexBuilder.entries := endOfStream_settled (e := { e with indexer := x' })
            hreads hdetects hgoing hintake' hend
          refine ⟨by simp, fun _ => ⟨?_, ?_, fun _ => hF, by simp⟩, fun _ => hF⟩
          · show e₁.indexer.emitOutput = true
            rw [hsame]
            exact hemit
          · show e₁.indexer.stopAt = none
            rw [hsame]
            exact hstop
      | error f => exact absurd rfl (hout.fine f)
      | needInput =>
        obtain ⟨rfl, rfl⟩ := Prod.mk.inj (Option.some.inj hstep)
        exact Answers.silent ⟨hemit, hstop, fun hdone => absurd hdone hended, fun _ => hquiet (by simp)⟩
          (by simp) (by simp)
      | seekAndRead a b =>
        obtain ⟨rfl, rfl⟩ := Prod.mk.inj (Option.some.inj hstep)
        exact Answers.silent ⟨hemit, hstop, fun hdone => absurd hdone hended, fun _ => hquiet (by simp)⟩
          (by simp) (by simp)

theorem step_delivers (impl : CheckpointStrategy τ) (hC : Obeys codec packed plain At)
    (hreads : Reads parser plain I F G) (hdetects : D → Detects parser plain I F) (fuel next : Nat) :
    ∀ (rounds : Nat) (e e' : IndexingEngine σ κ τ ρ) (request : EngineRequest),
      StreamIndexer.Sound codec packed plain At next e.indexer → Delivers plain D I F e →
      step parser impl fuel rounds e = some (request, e') → Answers plain D I F G (some request) e' := by
  intro rounds
  induction rounds with
  | zero => intro e e' request _ _ h; simp [step] at h
  | succ rounds ih =>
    intro e e' request hsound h hstep
    rw [step] at hstep
    rcases hround : stepOnce parser impl fuel e with _ | ⟨_ | r, e₁⟩
    · rw [hround] at hstep
      simp at hstep
    · rw [hround] at hstep
      have hkeeps := (stepOnce_delivers impl hC hreads hdetects hsound h hround).going (by simp)
      exact ih e₁ e' request (stepOnce_sound parser impl hC hsound hround).1 hkeeps hstep
    · rw [hround] at hstep
      obtain ⟨rfl, rfl⟩ := Prod.mk.inj (Option.some.inj hstep)
      exact stepOnce_delivers impl hC hreads hdetects hsound h hround

end

end IndexingEngine

namespace EngineSession

/-- The engine has reported how the indexing ended. -/
def ended (s : EngineSession σ κ τ ρ) : Bool :=
  match s.reported with
  | some .done => true
  | some (.error _) => true
  | _ => false

/-- One event of a caller that stops at the first outcome. -/
def driveOn (parser : ArchiveParser ρ) (impl : CheckpointStrategy τ) (packed : List Byte)
    (s : EngineSession σ κ τ ρ) (e : EngineEvent) : Option (EngineSession σ κ τ ρ) :=
  if s.ended then none else s.drive parser impl packed e

end EngineSession

section

variable {codec : Codec σ κ} {packed plain : List Byte} {At : σ → Nat → Nat → Prop}
  {parser : ArchiveParser ρ} {D : Prop} {I : List Byte → ρ → List IndexEntry → Prop}
  {F : List IndexEntry → Prop} {G : Fault → List IndexEntry → Prop}

/-- What holds of a session whose caller stops at the first outcome. -/
structure DeliveryInv (codec : Codec σ κ) (packed plain : List Byte) (At : σ → Nat → Nat → Prop)
    (D : Prop) (I : List Byte → ρ → List IndexEntry → Prop) (F : List IndexEntry → Prop)
    (G : Fault → List IndexEntry → Prop) (s : EngineSession σ κ τ ρ) : Prop where
  engine : EngineInv codec packed plain At s
  delivers : s.ended = false → IndexingEngine.Delivers plain D I F s.engine
  done : s.reported = some .done → F s.engine.indexBuilder.entries
  error : ∀ fault, s.reported = some (.error fault) → IndexingEngine.Failing G fault s.engine

theorem DeliveryInv.driveOn (impl : CheckpointStrategy τ) (hC : Obeys codec packed plain At)
    (hreads : Reads parser plain I F G) (hdetects : D → Detects parser plain I F)
    {s s' : EngineSession σ κ τ ρ} {e : EngineEvent} (h : DeliveryInv codec packed plain At D I F G s)
    (hdrive : s.driveOn parser impl packed e = some s') :
    DeliveryInv codec packed plain At D I F G s' := by
  rw [EngineSession.driveOn] at hdrive
  by_cases hended : s.ended = true
  · rw [if_pos hended] at hdrive
    exact absurd hdrive (by simp)
  · rw [if_neg hended] at hdrive
    have hdelivers := h.delivers (by simpa using hended)
    have hengine := h.engine.drive parser impl hC hdrive
    cases e with
    | step fuel rounds =>
      rw [EngineSession.drive] at hdrive
      rcases hstep : s.engine.step parser impl fuel rounds with _ | ⟨request, e'⟩
      · rw [hstep] at hdrive
        exact absurd hdrive (by simp)
      · rw [hstep] at hdrive
        obtain rfl := Option.some.inj hdrive
        have hanswers := IndexingEngine.step_delivers impl hC hreads hdetects fuel s.next rounds _ _
          request h.engine.sound hdelivers hstep
        refine ⟨hengine, fun hgoing => hanswers.going ?_, fun hdone => hanswers.done hdone,
          fun fault hfailed => hanswers.error fault hfailed⟩
        rintro fault hsame
        obtain rfl := Option.some.inj hsame
        simp [EngineSession.ended] at hgoing
    | provide n =>
      rw [EngineSession.drive] at hdrive
      by_cases hwanted : s.wanted = true
      · rw [if_pos hwanted] at hdrive
        cases htake : (packed.drop s.next).take (n + 1) with
        | nil =>
          rw [htake] at hdrive
          obtain rfl := Option.some.inj hdrive
          exact ⟨hengine, fun _ => ⟨hdelivers.emitOutput, hdelivers.stopAt, hdelivers.done,
            hdelivers.going⟩, h.done, h.error⟩
        | cons b bs =>
          rw [htake] at hdrive
          obtain rfl := Option.some.inj hdrive
          exact ⟨hengine, fun _ => ⟨hdelivers.emitOutput, hdelivers.stopAt, hdelivers.done,
            hdelivers.going⟩, h.done, h.error⟩
      · rw [if_neg hwanted] at hdrive
        exact absurd hdrive (by simp)

/-- A session begins well, with the format given or to be detected. -/
theorem DeliveryInv.start (impl : CheckpointStrategy τ) (hC : Obeys codec packed plain At) {compression : CompressionFormat}
    {given : Option ArchiveFormat} {strategy : τ} {archiveSize : Nat} {e : IndexingEngine σ κ τ ρ}
    (hnew : IndexingEngine.withStrategy parser codec compression given strategy archiveSize = .ok e)
    (hgiven : ∀ format, given = some format → I [] (parser.create format) []) (hopen : given = none → D) :
    DeliveryInv codec packed plain At D I F G (EngineSession.start e) := by
  have hnothing : [].foldlM (EngineSession.drive parser impl packed) (EngineSession.start e) =
      some (EngineSession.start e) := rfl
  have hengine := EngineInv.run parser impl hC hnew hnothing
  obtain ⟨d, hcreate⟩ := hC.creates
  rw [IndexingEngine.withStrategy, StreamIndexer.new, hcreate] at hnew
  obtain rfl := Except.ok.inj hnew
  refine ⟨hengine, fun _ => ⟨rfl, rfl, by simp [EngineSession.start], fun _ => ⟨rfl, ?_⟩⟩,
    by simp [EngineSession.start], by simp [EngineSession.start]⟩
  show IndexingEngine.Intake D I (plain.take 0) _
  rw [List.take_zero]
  cases given with
  | none => exact ⟨hopen rfl, rfl, by decide, rfl⟩
  | some format => exact hgiven format rfl

/-- The outcome of a session is one its parser ensures. -/
theorem delivered (impl : CheckpointStrategy τ) (hC : Obeys codec packed plain At)
    (hreads : Reads parser plain I F G) (hdetects : D → Detects parser plain I F)
    {compression : CompressionFormat} {given : Option ArchiveFormat} {strategy : τ} {archiveSize : Nat}
    {e : IndexingEngine σ κ τ ρ} {es : List EngineEvent} {s : EngineSession σ κ τ ρ}
    (hnew : IndexingEngine.withStrategy parser codec compression given strategy archiveSize = .ok e)
    (hgiven : ∀ format, given = some format → I [] (parser.create format) []) (hopen : given = none → D)
    (hrun : es.foldlM (EngineSession.driveOn parser impl packed) (EngineSession.start e) = some s) :
    DeliveryInv codec packed plain At D I F G s := by
  exact foldlM_invariant (fun _ _ _ hI hd => DeliveryInv.driveOn impl hC hreads hdetects hI hd) es _ s
    (DeliveryInv.start impl hC hnew hgiven hopen) hrun

end

end Iluvatar
