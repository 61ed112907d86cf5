/-
A driver that offers a parser what it did not take again, until the archive ends.

`Emits` is what a parser reports when each call is given all that is left.  An
incremental parser reports the same to a driver that cuts the stream as it likes.
-/
import Iluvatar.Engine.Pieces

namespace Iluvatar

variable {ε ρ : Type}

/-- Offer `sizes i + 1` bytes of what is left in call `i`, or all of it where that is less,
and collect the entries up to the end of the archive. -/
def drive (feed : ρ → List Byte → ParserAnswer ε ρ) (sizes : Nat → Nat) :
    Nat → Nat → ρ → List Byte → Option (List ArchiveEntry)
  | 0, _, _, _ => none
  | fuel + 1, i, p, rest =>
    match feed p (rest.take (sizes i + 1)) with
    | (.error _, _) => none
    | (.ok (_, .endOfArchive), _) => some []
    | (.ok (n, .needData), p') => drive feed sizes fuel (i + 1) p' (rest.drop n)
    | (.ok (n, .entry e), p') => (drive feed sizes fuel (i + 1) p' (rest.drop n)).map (e :: ·)

/-- From `p` on the parser reports these entries and then the end of the archive, each call
being given all that is left. -/
inductive Emits (feed : ρ → List Byte → ParserAnswer ε ρ) :
    ρ → List Byte → List ArchiveEntry → Prop where
  | endOfArchive {p p' : ρ} {rest : List Byte} {n : Nat} :
      feed p rest = (.ok (n, .endOfArchive), p') → Emits feed p rest []
  | needData {p p' : ρ} {rest : List Byte} {n : Nat} {entries : List ArchiveEntry} :
      feed p rest = (.ok (n, .needData), p') → Emits feed p' (rest.drop n) entries →
      Emits feed p rest entries
  | entry {p p' : ρ} {rest : List Byte} {n : Nat} {e : ArchiveEntry} {entries : List ArchiveEntry} :
      feed p rest = (.ok (n, .entry e), p') → Emits feed p' (rest.drop n) entries →
      Emits feed p rest (e :: entries)

/-- The parser `q` is `p` with `data` taken, in the middle of a call. -/
inductive Midway (feed : ρ → List Byte → ParserAnswer ε ρ) (p : ρ) : List Byte → ρ → Prop where
  | start : Midway feed p [] p
  | taken {data : List Byte} {q : ρ} : feed p data = (.ok (data.length, .needData), q) →
      (∀ rest, rest ≠ [] → feed p (data ++ rest) = shifted data.length (feed q rest)) →
      Midway feed p data q

variable {feed : ρ → List Byte → ParserAnswer ε ρ} {p q : ρ} {data rest : List Byte}

theorem Midway.continued (h : Midway feed p data q) (hne : rest ≠ []) :
    feed p (data ++ rest) = shifted data.length (feed q rest) := by
  cases h with
  | start => rw [List.nil_append, List.length_nil, shifted_zero]
  | taken _ hmore => exact hmore rest hne

/-- A call that uses up its piece and asks for more leaves the parser midway, too. -/
theorem Midway.more (h : Midway feed p data q) {piece : List Byte} {q' : ρ} (hne : piece ≠ [])
    (hpart : feed q piece = (.ok (piece.length, .needData), q'))
    (hmore : ∀ rest, rest ≠ [] → feed q (piece ++ rest) = shifted piece.length (feed q' rest)) :
    Midway feed p (data ++ piece) q' := by
  refine .taken ?_ fun rest hrest => ?_
  · rw [h.continued hne, hpart, shifted, List.length_append]
  · have hboth : piece ++ rest ≠ [] := by simp [hne]
    rw [List.append_assoc, h.continued hboth, hmore rest hrest, shifted_shifted, List.length_append]

/-- One call of the driver where bytes are left: it answers as the call that is given all of
them, or it leaves the parser midway in that call. -/
theorem Midway.call (h : Midway feed p data q) (hincremental : IncrementalAt feed q)
    {piece after : List Byte} (hne : piece ≠ []) :
    feed p (data ++ (piece ++ after)) = shifted data.length (feed q piece) ∨
      ∃ q', feed q piece = (.ok (piece.length, .needData), q') ∧
        Midway feed p (data ++ piece) q' := by
  have hboth : piece ++ after ≠ [] := by simp [hne]
  rcases hincremental.more piece hne with hsame | ⟨q', hpart, hmore, _⟩
  · exact .inl (by rw [h.continued hboth, hsame after])
  · exact .inr ⟨q', hpart, h.more hne hpart hmore⟩

/-- What a shifted answer says of the answer itself. -/
theorem shifted_ok {taken n : Nat} {event : ArchiveEvent} {p' : ρ} {answer : ParserAnswer ε ρ}
    (h : shifted taken answer = (.ok (n, event), p')) :
    ∃ m, answer = (.ok (m, event), p') ∧ n = taken + m := by
  obtain ⟨answer, q⟩ := answer
  cases answer with
  | error e => exact absurd (Prod.mk.inj h).1 (by simp)
  | ok pair =>
    obtain ⟨m, event'⟩ := pair
    obtain ⟨hanswer, rfl⟩ := Prod.mk.inj h
    obtain ⟨rfl, rfl⟩ := Prod.mk.inj (Except.ok.inj hanswer)
    exact ⟨m, rfl, rfl⟩

/-- What the driver's calls come to, from a parser midway in a call that is given all. -/
def Drives (feed : ρ → List Byte → ParserAnswer ε ρ) (sizes : Nat → Nat) (i : Nat) (q : ρ)
    (rest : List Byte) (entries : List ArchiveEntry) : Prop :=
  ∃ fuel, drive feed sizes fuel i q rest = some entries

theorem Drives.needData {sizes : Nat → Nat} {i n : Nat} {q' : ρ} {entries : List ArchiveEntry}
    (hfeed : feed q (rest.take (sizes i + 1)) = (.ok (n, .needData), q'))
    (h : Drives feed sizes (i + 1) q' (rest.drop n) entries) : Drives feed sizes i q rest entries := by
  obtain ⟨fuel, hdrive⟩ := h
  refine ⟨fuel + 1, ?_⟩
  rw [drive, hfeed]
  exact hdrive

theorem Drives.entry {sizes : Nat → Nat} {i n : Nat} {q' : ρ} {e : ArchiveEntry}
    {entries : List ArchiveEntry}
    (hfeed : feed q (rest.take (sizes i + 1)) = (.ok (n, .entry e), q'))
    (h : Drives feed sizes (i + 1) q' (rest.drop n) entries) :
    Drives feed sizes i q rest (e :: entries) := by
  obtain ⟨fuel, hdrive⟩ := h
  refine ⟨fuel + 1, ?_⟩
  rw [drive, hfeed]
  simp only [hdrive, Option.map_some]

theorem Drives.endOfArchive {sizes : Nat → Nat} {i n : Nat} {q' : ρ}
    (hfeed : feed q (rest.take (sizes i + 1)) = (.ok (n, .endOfArchive), q')) :
    Drives feed sizes i q rest [] := ⟨1, by rw [drive, hfeed]⟩

/-- How a driver's call stands to the call that is given all of `data ++ rest`: it answers the
same, or it has taken its whole piece and asks for more. -/
theorem Midway.turn (h : Midway feed p data q) (hincremental : IncrementalAt feed q)
    (sizes : Nat → Nat) (i : Nat) (hne : rest ≠ []) :
    feed p (data ++ rest) = shifted data.length (feed q (rest.take (sizes i + 1))) ∨
      ∃ q', feed q (rest.take (sizes i + 1)) =
          (.ok ((rest.take (sizes i + 1)).length, .needData), q') ∧
        Midway feed p (data ++ rest.take (sizes i + 1)) q' := by
  have hpiece : rest.take (sizes i + 1) ≠ [] := by
    cases rest with
    | nil => exact absurd rfl hne
    | cons b rest => simp
  have hcall := @Midway.call _ _ _ _ _ _ h hincremental _ (rest.drop (sizes i + 1)) hpiece
  rwa [List.take_append_drop] at hcall

theorem Midway.whole {q' : ρ} (h : Midway feed p data q') (hne : data ≠ []) :
    feed p data = (.ok (data.length, .needData), q') := by
  cases h with
  | start => exact absurd rfl hne
  | taken hfeed _ => exact hfeed

/-- Where the call that is given all answers, the driver comes to a call that answers so. -/
theorem Midway.answered (hincremental : ∀ p, IncrementalAt feed p) {sizes : Nat → Nat} {n : Nat}
    {event : ArchiveEvent} {p' : ρ} (h : Midway feed p data q) (hne : rest ≠ [])
    (hwhole : feed p (data ++ rest) = (.ok (n, event), p')) (i : Nat) :
    ∃ i' q' rest' m, feed q' (rest'.take (sizes i' + 1)) = (.ok (m, event), p') ∧
      rest'.drop m = (data ++ rest).drop n ∧
      ∀ entries, Drives feed sizes i' q' rest' entries → Drives feed sizes i q rest entries := by
  induction hlen : rest.length using Nat.strongRecOn generalizing data rest q i with
  | ind len ih =>
    rcases h.turn (hincremental q) sizes i hne with hsame | ⟨q', hpart, hmidway⟩
    · rw [hsame] at hwhole
      obtain ⟨m, hanswer, rfl⟩ := shifted_ok hwhole
      refine ⟨i, q, rest, m, hanswer, ?_, fun _ hdrives => hdrives⟩
      rw [← List.drop_drop, List.drop_left]
    · have hpiece : rest.take (sizes i + 1) ≠ [] := by simp [hne]
      have hsplit : data ++ rest = data ++ rest.take (sizes i + 1) ++ rest.drop (sizes i + 1) := by
        rw [List.append_assoc, List.take_append_drop]
      by_cases hlast : rest.drop (sizes i + 1) = []
      · -- The driver is out of bytes as the whole call is.
        have hall : rest.take (sizes i + 1) = rest := by
          rw [hlast, List.append_nil] at hsplit
          exact (List.append_cancel_left hsplit).symm
        rw [hall] at hpart hmidway hpiece
        rw [hmidway.whole (by simp [hne])] at hwhole
        obtain ⟨hanswer, rfl⟩ := Prod.mk.inj hwhole
        obtain ⟨rfl, rfl⟩ := Prod.mk.inj (Except.ok.inj hanswer)
        refine ⟨i, q, rest, rest.length, by rw [hall]; exact hpart, ?_, fun _ hdrives => hdrives⟩
        rw [List.drop_length, List.drop_length]
      · have htaken : rest.drop (rest.take (sizes i + 1)).length = rest.drop (sizes i + 1) := by
          have hshort : sizes i + 1 < rest.length := by
            by_contra hlong
            exact hlast (List.drop_of_length_le (by omega))
          rw [List.length_take, Nat.min_eq_left (by omega)]
        have hless : (rest.drop (sizes i + 1)).length < len := by
          have := List.length_pos_iff.mpr hne
          rw [List.length_drop]
          omega
        rw [hsplit] at hwhole ⊢
        obtain ⟨i', q₁, rest', m, hfeed, hdrop, hthen⟩ := ih _ hless hmidway hlast hwhole (i + 1) rfl
        refine ⟨i', q₁, rest', m, hfeed, hdrop, fun entries hdrives => ?_⟩
        exact .needData hpart (by rw [htaken]; exact hthen entries hdrives)

/-- An incremental parser reports to every driver what it reports when given all at once. -/
theorem Emits.drives (hincremental : ∀ p, IncrementalAt feed p) (sizes : Nat → Nat)
    {entries : List ArchiveEntry} (h : Emits feed p rest entries) (i : Nat) :
    Drives feed sizes i p rest entries := by
  have hcalls : ∀ {p p' : ρ} {rest : List Byte} {n : Nat} {event : ArchiveEvent} (i : Nat),
      feed p rest = (.ok (n, event), p') →
      ∃ i' q' rest' m, feed q' (rest'.take (sizes i' + 1)) = (.ok (m, event), p') ∧
        rest'.drop m = rest.drop n ∧
        ∀ entries, Drives feed sizes i' q' rest' entries → Drives feed sizes i p rest entries := by
    intro p p' rest n event i hfeed
    by_cases hnil : rest = []
    · subst hnil
      exact ⟨i, p, [], n, hfeed, rfl, fun _ hdrives => hdrives⟩
    · exact Midway.start.answered hincremental hnil hfeed i
  induction h generalizing i with
  | endOfArchive hfeed =>
    obtain ⟨i', q', rest', m, hanswer, _, hthen⟩ := hcalls i hfeed
    exact hthen _ (.endOfArchive hanswer)
  | needData hfeed _ ih =>
    obtain ⟨i', q', rest', m, hanswer, hdrop, hthen⟩ := hcalls i hfeed
    exact hthen _ (.needData hanswer (by rw [hdrop]; exact ih (i' + 1)))
  | entry hfeed _ ih =>
    obtain ⟨i', q', rest', m, hanswer, hdrop, hthen⟩ := hcalls i hfeed
    exact hthen _ (.entry hanswer (by rw [hdrop]; exact ih (i' + 1)))

end Iluvatar
