/-
A parser's reading of a stream, and why the way the stream is cut does not matter to it.

`Splits` is the law of an incremental parser: a call that is given more than it takes
answers as before, and a call that ran out of bytes is continued by the next.  `Reading`
gives the parser all that is left of the stream each time; whatever pieces the engine
gives it instead, it ends as that reading does, provided no call of the reading idles.
-/
import Iluvatar.Engine.Delivery

namespace Iluvatar

variable {ρ : Type}

/-- What a call of a parser answers, and the parser it leaves. -/
abbrev ParserAnswer (ε ρ : Type) := Except ε (Nat × ArchiveEvent) × ρ

/-- The answer of a call that was continued after `taken` bytes. -/
def shifted {ε : Type} (taken : Nat) : ParserAnswer ε ρ → ParserAnswer ε ρ
  | (.ok (n, event), p) => (.ok (taken + n, event), p)
  | (.error e, p) => (.error e, p)

theorem shifted_zero {ε : Type} (a : ParserAnswer ε ρ) : shifted 0 a = a := by
  match a with
  | (.ok (n, event), p) => rw [shifted, Nat.zero_add]
  | (.error e, p) => rfl

/-- A call that asks for more and takes nothing. -/
def Idles (parser : ArchiveParser ρ) (p : ρ) (data : List Byte) : Prop :=
  ∃ p', parser.feed p data = (.ok (0, .needData), p')

/-- An incremental parser: a call takes no more than it is given, and given more it answers
the same, or it had used up its bytes and goes on. -/
structure Splits (parser : ArchiveParser ρ) : Prop where
  within : ∀ p data n event p', data ≠ [] → parser.feed p data = (.ok (n, event), p') → n ≤ data.length
  more : ∀ p data, data ≠ [] →
    (∀ rest, parser.feed p (data ++ rest) = parser.feed p data) ∨
    ∃ p', parser.feed p data = (.ok (data.length, .needData), p') ∧
      (∀ rest, rest ≠ [] →
        parser.feed p (data ++ rest) = shifted data.length (parser.feed p' rest)) ∧
      ∀ rest, rest ≠ [] → ¬ Idles parser p' rest

/-- What the engine records of an entry. -/
def recordOf (e : ArchiveEntry) : IndexEntry :=
  { path := e.path
    size := e.size
    entryType := e.entryType
    mode := e.mode
    uid := e.uid
    gid := e.gid
    mtime := e.mtime
    linkTarget := e.linkTarget
    uncompressedOffset := e.dataOffset
    checkpointIndex := 0 }

/-- How reading a stream ends. -/
inductive ReadOutcome where
  | done
  | failed (fault : Fault)
  deriving DecidableEq, Repr

/-- The parser, having taken `off` bytes with `before` recorded, reads on to an outcome and
`entries`, each call being given all that is left. -/
inductive Reading (parser : ArchiveParser ρ) (plain : List Byte) :
    ρ → Nat → List IndexEntry → ReadOutcome → List IndexEntry → Prop where
  | finished {p : ρ} {off : Nat} {before : List IndexEntry} : plain.drop off = [] →
      parser.endOfStream p = .ok () → Reading parser plain p off before .done before
  | truncated {p : ρ} {off : Nat} {before : List IndexEntry} {e : Error} : plain.drop off = [] →
      parser.endOfStream p = .error e → Reading parser plain p off before (.failed (.error e)) before
  | failed {p p' : ρ} {off : Nat} {before : List IndexEntry} {fault : Fault} : plain.drop off ≠ [] →
      parser.feed p (plain.drop off) = (.error fault, p') →
      Reading parser plain p off before (.failed fault) before
  | archiveEnd {p p' : ρ} {off n : Nat} {before : List IndexEntry} : plain.drop off ≠ [] →
      parser.feed p (plain.drop off) = (.ok (n, .endOfArchive), p') →
      Reading parser plain p off before .done before
  | entry {p p' : ρ} {off n : Nat} {e : ArchiveEntry} {outcome : ReadOutcome}
      {before entries : List IndexEntry} : plain.drop off ≠ [] →
      parser.feed p (plain.drop off) = (.ok (n, .entry e), p') →
      Reading parser plain p' (off + n) (before ++ [recordOf e]) outcome entries →
      Reading parser plain p off before outcome entries
  | needData {p p' : ρ} {off n : Nat} {outcome : ReadOutcome} {before entries : List IndexEntry} :
      plain.drop off ≠ [] → parser.feed p (plain.drop off) = (.ok (n, .needData), p') →
      Reading parser plain p' (off + n) before outcome entries →
      Reading parser plain p off before outcome entries

/-- On its reading of the stream the parser comes to a call that idles. -/
inductive MeetsIdle (parser : ArchiveParser ρ) (plain : List Byte) : ρ → Nat → Prop where
  | here {p : ρ} {off : Nat} : plain.drop off ≠ [] → Idles parser p (plain.drop off) →
      MeetsIdle parser plain p off
  | entry {p p' : ρ} {off n : Nat} {e : ArchiveEntry} : plain.drop off ≠ [] →
      parser.feed p (plain.drop off) = (.ok (n, .entry e), p') → MeetsIdle parser plain p' (off + n) →
      MeetsIdle parser plain p off
  | needData {p p' : ρ} {off n : Nat} : plain.drop off ≠ [] →
      parser.feed p (plain.drop off) = (.ok (n, .needData), p') → MeetsIdle parser plain p' (off + n) →
      MeetsIdle parser plain p off

/-- Reading on for at most `fuel` calls, no call idles before the end. -/
def neverIdles (parser : ArchiveParser ρ) (plain : List Byte) : Nat → ρ → Nat → Bool
  | 0, _, _ => false
  | fuel + 1, p, off =>
    if plain.drop off = [] then true
    else
      match parser.feed p (plain.drop off) with
      | (.ok (n, .needData), p') => decide (0 < n) && neverIdles parser plain fuel p' (off + n)
      | (.ok (n, .entry _), p') => neverIdles parser plain fuel p' (off + n)
      | _ => true

variable {parser : ArchiveParser ρ} {plain : List Byte}

theorem neverIdles_sound {fuel : Nat} {p : ρ} {off : Nat}
    (h : neverIdles parser plain fuel p off = true) : ¬ MeetsIdle parser plain p off := by
  intro hmeets
  induction hmeets generalizing fuel with
  | here hne hidle =>
    obtain ⟨p', hfeed⟩ := hidle
    cases fuel with
    | zero => exact absurd h (by simp [neverIdles])
    | succ fuel => simp [neverIdles, hne, hfeed] at h
  | entry hne hfeed _ ih =>
    cases fuel with
    | zero => exact absurd h (by simp [neverIdles])
    | succ fuel =>
      simp only [neverIdles, hne, hfeed, if_false] at h
      exact ih h
  | needData hne hfeed _ ih =>
    cases fuel with
    | zero => exact absurd h (by simp [neverIdles])
    | succ fuel =>
      simp only [neverIdles, hne, hfeed, if_false, Bool.and_eq_true] at h
      exact ih h.2

/-- A stream is read in one way. -/
theorem Reading.unique {p : ρ} {off : Nat} {before entries entries' : List IndexEntry}
    {outcome outcome' : ReadOutcome} (h : Reading parser plain p off before outcome entries)
    (h' : Reading parser plain p off before outcome' entries') :
    outcome = outcome' ∧ entries = entries' := by
  induction h with
  | finished hnil hend =>
    cases h' with
    | finished => exact ⟨rfl, rfl⟩
    | truncated _ hend' => exact absurd (hend.symm.trans hend') (by simp)
    | failed hne | archiveEnd hne | entry hne | needData hne => exact absurd hnil hne
  | truncated hnil hend =>
    cases h' with
    | finished _ hend' => exact absurd (hend.symm.trans hend') (by simp)
    | truncated _ hend' =>
      obtain rfl := Except.error.inj (hend.symm.trans hend')
      exact ⟨rfl, rfl⟩
    | failed hne | archiveEnd hne | entry hne | needData hne => exact absurd hnil hne
  | failed hne hfeed =>
    cases h' with
    | finished hnil | truncated hnil => exact absurd hnil hne
    | failed _ hfeed' =>
      obtain ⟨hsame, _⟩ := Prod.mk.inj (hfeed.symm.trans hfeed')
      obtain rfl := Except.error.inj hsame
      exact ⟨rfl, rfl⟩
    | archiveEnd _ hfeed' | entry _ hfeed' | needData _ hfeed' =>
      exact absurd (hfeed.symm.trans hfeed') (by simp)
  | archiveEnd hne hfeed =>
    cases h' with
    | finished hnil | truncated hnil => exact absurd hnil hne
    | failed _ hfeed' | entry _ hfeed' | needData _ hfeed' =>
      exact absurd (hfeed.symm.trans hfeed') (by simp)
    | archiveEnd => exact ⟨rfl, rfl⟩
  | entry hne hfeed hrest ih =>
    cases h' with
    | finished hnil | truncated hnil => exact absurd hnil hne
    | failed _ hfeed' | archiveEnd _ hfeed' | needData _ hfeed' =>
      exact absurd (hfeed.symm.trans hfeed') (by simp)
    | entry _ hfeed' hrest' =>
      obtain ⟨hsame, rfl⟩ := Prod.mk.inj (hfeed.symm.trans hfeed')
      obtain ⟨rfl, hevent⟩ := Prod.mk.inj (Except.ok.inj hsame)
      obtain rfl := ArchiveEvent.entry.inj hevent
      exact ih hrest'
  | needData hne hfeed hrest ih =>
    cases h' with
    | finished hnil | truncated hnil => exact absurd hnil hne
    | failed _ hfeed' | archiveEnd _ hfeed' | entry _ hfeed' =>
      exact absurd (hfeed.symm.trans hfeed') (by simp)
    | needData _ hfeed' hrest' =>
      obtain ⟨hsame, rfl⟩ := Prod.mk.inj (hfeed.symm.trans hfeed')
      obtain ⟨rfl, _⟩ := Prod.mk.inj (Except.ok.inj hsame)
      exact ih hrest'

/-- The parser `q` has been given `data` since the reading was at `p`. -/
def Ahead (parser : ArchiveParser ρ) (p : ρ) (data : List Byte) (q : ρ) : Prop :=
  (data = [] ∧ q = p) ∨
    (data ≠ [] ∧ parser.feed p data = (.ok (data.length, .needData), q) ∧
      (∀ rest, rest ≠ [] →
        parser.feed p (data ++ rest) = shifted data.length (parser.feed q rest)) ∧
      ∀ rest, rest ≠ [] → ¬ Idles parser q rest)

theorem Ahead.feed {p q : ρ} {data : List Byte} (h : Ahead parser p data q) {rest : List Byte}
    (hne : rest ≠ []) : parser.feed p (data ++ rest) = shifted data.length (parser.feed q rest) := by
  rcases h with ⟨rfl, rfl⟩ | ⟨_, _, hmore, _⟩
  · rw [List.nil_append, List.length_nil, shifted_zero]
  · exact hmore rest hne

/-- Given `d`, the parser `q` is on the way of the reading from `start`. -/
def Along (parser : ArchiveParser ρ) (plain : List Byte) (start : ρ) (d : List Byte) (q : ρ)
    (entries : List IndexEntry) : Prop :=
  ∃ p read data, d = read ++ data ∧ Ahead parser p data q ∧ ¬ MeetsIdle parser plain p read.length ∧
    ∀ outcome all, Reading parser plain p read.length entries outcome all →
      Reading parser plain start 0 [] outcome all

theorem drop_of_begins (d piece : List Byte) (h : d ++ piece <+: plain) :
    ∃ rest, plain.drop d.length = piece ++ rest := by
  obtain ⟨rest, rfl⟩ := h
  refine ⟨rest, ?_⟩
  rw [List.append_assoc, List.drop_left]

/-- A piece given to a parser on the way is read as the reading reads it. -/
theorem Along.piece (hsplits : Splits parser) {start q q' : ρ} {d piece : List Byte}
    {entries : List IndexEntry} {answer : Except Fault (Nat × ArchiveEvent)}
    (h : Along parser plain start d q entries) (hne : piece ≠ []) (hbegins : d ++ piece <+: plain)
    (hfeed : parser.feed q piece = (answer, q')) :
    (∃ p read data, d = read ++ data ∧ ¬ MeetsIdle parser plain p read.length ∧
      (∀ outcome all, Reading parser plain p read.length entries outcome all →
        Reading parser plain start 0 [] outcome all) ∧
      plain.drop read.length ≠ [] ∧
      parser.feed p (plain.drop read.length) = shifted data.length (answer, q') ∧
      (data ≠ [] → ¬ Idles parser q piece)) ∨
    (answer = .ok (piece.length, .needData) ∧ Along parser plain start (d ++ piece) q' entries) := by
  obtain ⟨p, read, data, rfl, hahead, hnever, hall⟩ := h
  rw [List.append_assoc] at hbegins
  obtain ⟨rest, hrest⟩ := drop_of_begins read (data ++ piece) hbegins
  have hwhole : plain.drop read.length = data ++ (piece ++ rest) := by
    rw [hrest, List.append_assoc]
  have hpiece : piece ++ rest ≠ [] := by simp [hne]
  have hlong : plain.drop read.length ≠ [] := by rw [hwhole]; simp [hne]
  have hidle : data ≠ [] → ¬ Idles parser q piece := by
    intro hdata
    rcases hahead with ⟨hnil, _⟩ | ⟨_, _, _, hidle⟩
    · exact absurd hnil hdata
    · exact hidle piece hne
  rcases hsplits.more q piece hne with hsame | ⟨q₁, hpart, hmore, hbusy⟩
  · refine .inl ⟨p, read, data, rfl, hnever, hall, hlong, ?_, hidle⟩
    rw [hwhole, hahead.feed hpiece, hsame rest, hfeed]
  · obtain ⟨rfl, rfl⟩ := Prod.mk.inj (hpart.symm.trans hfeed)
    refine .inr ⟨rfl, p, read, data ++ piece, by rw [List.append_assoc], .inr ⟨by simp [hne], ?_, ?_, hbusy⟩,
      hnever, hall⟩
    · rw [hahead.feed hne, hpart, shifted, List.length_append]
    · intro more hmorene
      have hboth : piece ++ more ≠ [] := by simp [hne]
      rw [List.append_assoc, hahead.feed hboth, hmore more hmorene]
      match parser.feed q₁ more with
      | (.ok (n, event), r) =>
        simp only [shifted, List.length_append, Nat.add_assoc]
      | (.error e, r) => rfl

/-- An incremental parser ends as its reading of the whole stream, however the stream is cut. -/
theorem Splits.reads (hsplits : Splits parser) (plain : List Byte) (start : ρ) :
    Reads parser plain (Along parser plain start) (Reading parser plain start 0 [] .done)
      fun fault => Reading parser plain start 0 [] (.failed fault) where
  needData := by
    intro d piece q q' b n h hne hbegins hfeed
    rcases h.piece hsplits hne hbegins hfeed with
      ⟨p, read, data, rfl, hnever, hall, hlong, hwhole, hidle⟩ | ⟨hanswer, halong⟩
    · have hle := hsplits.within _ _ _ _ _ hne hfeed
      rw [shifted] at hwhole
      have hpos : 0 < n := by
        refine Nat.pos_of_ne_zero ?_
        rintro rfl
        by_cases hdata : data = []
        · subst hdata
          exact hnever (.here hlong ⟨q', hwhole⟩)
        · exact hidle hdata ⟨q', hfeed⟩
      refine ⟨hpos, hle, q', read ++ data ++ piece.take n, [], by rw [List.append_nil], .inl ⟨rfl, rfl⟩,
        ?_, ?_⟩ <;> rw [List.length_append, List.length_append, List.length_take, Nat.min_eq_left hle,
          Nat.add_assoc]
      · exact fun hmeets => hnever (.needData hlong hwhole hmeets)
      · exact fun outcome all hreading => hall outcome all (.needData hlong hwhole hreading)
    · obtain ⟨rfl, _⟩ := Prod.mk.inj (Except.ok.inj hanswer)
      refine ⟨List.length_pos_iff.mpr hne, Nat.le_refl _, ?_⟩
      rw [List.take_length]
      exact halong
  entry := by
    intro d piece q q' b n e h hne hbegins hfeed
    rcases h.piece hsplits hne hbegins hfeed with
      ⟨p, read, data, rfl, hnever, hall, hlong, hwhole, _⟩ | ⟨hanswer, _⟩
    · have hle := hsplits.within _ _ _ _ _ hne hfeed
      rw [shifted] at hwhole
      refine ⟨hle, q', read ++ data ++ piece.take n, [], by rw [List.append_nil], .inl ⟨rfl, rfl⟩, ?_, ?_⟩ <;>
        rw [List.length_append, List.length_append, List.length_take, Nat.min_eq_left hle, Nat.add_assoc]
      · exact fun hmeets => hnever (.entry hlong hwhole hmeets)
      · exact fun outcome all hreading => hall outcome all (.entry hlong hwhole hreading)
    · exact absurd hanswer (by simp)
  endOfArchive := by
    intro d piece q q' b n h hne hbegins hfeed
    rcases h.piece hsplits hne hbegins hfeed with
      ⟨p, read, data, rfl, hnever, hall, hlong, hwhole, _⟩ | ⟨hanswer, _⟩
    · rw [shifted] at hwhole
      exact hall _ _ (.archiveEnd hlong hwhole)
    · exact absurd hanswer (by simp)
  error := by
    intro d piece q q' b e h hne hbegins hfeed
    rcases h.piece hsplits hne hbegins hfeed with
      ⟨p, read, data, rfl, hnever, hall, hlong, hwhole, _⟩ | ⟨hanswer, _⟩
    · rw [shifted] at hwhole
      exact hall _ _ (.failed hlong hwhole)
    · exact absurd hanswer (by simp)
  endOfStream := by
    rintro q b ⟨p, read, data, hplain, hahead, hnever, hall⟩ hend
    refine hall _ _ ?_
    have hrest : plain.drop read.length = data := by rw [hplain, List.drop_left]
    rcases hahead with ⟨rfl, rfl⟩ | ⟨hdata, hfeed, _, _⟩
    · exact .finished hrest hend
    · refine .needData (by rwa [hrest]) (by rw [hrest]; exact hfeed) (.finished ?_ hend)
      rw [← List.drop_drop, hrest, List.drop_length]
  truncated := by
    rintro q b e ⟨p, read, data, hplain, hahead, hnever, hall⟩ hend
    refine hall _ _ ?_
    have hrest : plain.drop read.length = data := by rw [hplain, List.drop_left]
    rcases hahead with ⟨rfl, rfl⟩ | ⟨hdata, hfeed, _, _⟩
    · exact .truncated hrest hend
    · refine .needData (by rwa [hrest]) (by rw [hrest]; exact hfeed) (.truncated ?_ hend)
      rw [← List.drop_drop, hrest, List.drop_length]

/-- A fresh parser is on the way. -/
theorem Along.start {start : ρ} (h : ¬ MeetsIdle parser plain start 0) :
    Along parser plain start [] start [] :=
  ⟨start, [], [], rfl, .inl ⟨rfl, rfl⟩, h, fun _ _ hreading => hreading⟩

end Iluvatar
