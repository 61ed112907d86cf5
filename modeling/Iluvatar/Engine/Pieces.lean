/-
Parsers that read one piece of the stream at a time.

In each state such a parser wants a number of bytes; short of them it absorbs what it is
given, and with them it completes the piece.  That makes it incremental.
-/
import Iluvatar.Engine.Reading

namespace Iluvatar

variable {ε ρ : Type}

/-- The answer of a call that took `n` bytes. -/
def answering (n : Nat) (a : Except ε ArchiveEvent × ρ) : ParserAnswer ε ρ :=
  (a.1.map fun event => (n, event), a.2)

/-- How the parser `feed` reads pieces, in the states `on`. -/
structure Pieces (feed : ρ → List Byte → ParserAnswer ε ρ) where
  on : ρ → Prop
  wants : ρ → Nat
  absorb : ρ → List Byte → ρ
  complete : ρ → List Byte → Except ε ArchiveEvent × ρ
  short : ∀ p data, on p → data ≠ [] → data.length < wants p →
    feed p data = (.ok (data.length, .needData), absorb p data)
  full : ∀ p data, on p → data ≠ [] → wants p ≤ data.length →
    feed p data = answering (wants p) (complete p (data.take (wants p)))
  keeps : ∀ p data, on p → on (absorb p data)
  wants_absorb : ∀ p data, data.length < wants p → wants (absorb p data) = wants p - data.length
  absorb_absorb : ∀ p data more, data.length < wants p →
    absorb (absorb p data) more = absorb p (data ++ more)
  complete_absorb : ∀ p data more, data.length < wants p →
    complete (absorb p data) more = complete p (data ++ more)

/-- The number of bytes an answer has taken. -/
theorem answering_ok {n m : Nat} {a : Except ε ArchiveEvent × ρ} {event : ArchiveEvent} {p' : ρ}
    (h : answering n a = (.ok (m, event), p')) : m = n := by
  obtain ⟨answer, q⟩ := a
  obtain ⟨hsame, _⟩ := Prod.mk.inj h
  cases answer with
  | error e => exact absurd hsame (by simp [Except.map])
  | ok event' =>
    obtain ⟨hcount, _⟩ := Prod.mk.inj (Except.ok.inj hsame)
    exact hcount.symm

/-- What an answer of a call says of the piece. -/
theorem answering_done {n m : Nat} {a : Except ε ArchiveEvent × ρ} {event : ArchiveEvent} {p' : ρ}
    (h : answering n a = (.ok (m, event), p')) : a = (.ok event, p') := by
  obtain ⟨answer, q⟩ := a
  obtain ⟨hmapped, rfl⟩ := Prod.mk.inj h
  cases answer with
  | error e => cases hmapped
  | ok event' =>
    obtain ⟨_, rfl⟩ := Prod.mk.inj (Except.ok.inj hmapped)
    rfl

theorem shifted_answering (taken n : Nat) (a : Except ε ArchiveEvent × ρ) :
    shifted taken (answering n a) = answering (taken + n) a := by
  obtain ⟨answer, p⟩ := a
  cases answer <;> rfl

theorem shifted_shifted (a b : Nat) (answer : ParserAnswer ε ρ) :
    shifted a (shifted b answer) = shifted (a + b) answer := by
  match answer with
  | (.ok (n, event), p) => simp only [shifted, Nat.add_assoc]
  | (.error e, p) => rfl

/-- What makes a parser incremental, said of its calls in the state `p`. -/
structure IncrementalAt (feed : ρ → List Byte → ParserAnswer ε ρ) (p : ρ) : Prop where
  within : ∀ data n event p', data ≠ [] → feed p data = (.ok (n, event), p') → n ≤ data.length
  more : ∀ data, data ≠ [] →
    (∀ rest, feed p (data ++ rest) = feed p data) ∨
    ∃ p', feed p data = (.ok (data.length, .needData), p') ∧
      (∀ rest, rest ≠ [] → feed p (data ++ rest) = shifted data.length (feed p' rest)) ∧
      ∀ rest, rest ≠ [] → ∀ q, feed p' rest ≠ (.ok (0, .needData), q)

namespace Pieces

variable {feed : ρ → List Byte → ParserAnswer ε ρ} {p p' : ρ} {data rest : List Byte}

theorem within (h : Pieces feed) (hon : h.on p) {n : Nat} {event : ArchiveEvent} (hne : data ≠ [])
    (hfeed : feed p data = (.ok (n, event), p')) : n ≤ data.length := by
  by_cases hshort : data.length < h.wants p
  · rw [h.short p data hon hne hshort] at hfeed
    obtain ⟨hsame, _⟩ := Prod.mk.inj hfeed
    obtain ⟨rfl, _⟩ := Prod.mk.inj (Except.ok.inj hsame)
    exact Nat.le_refl _
  · rw [h.full p data hon hne (by omega)] at hfeed
    have hcount := answering_ok hfeed
    omega

/-- A piece that is not complete is continued by the bytes that follow. -/
theorem continued (h : Pieces feed) (hon : h.on p) (hne : data ≠ []) (hrest : rest ≠ [])
    (hshort : data.length < h.wants p) :
    feed p (data ++ rest) = shifted data.length (feed (h.absorb p data) rest) := by
  have hboth : data ++ rest ≠ [] := by simp [hne]
  have hlen : (data ++ rest).length = data.length + rest.length := List.length_append
  have hwants := h.wants_absorb p data hshort
  have hkept := h.keeps p data hon
  by_cases hmore : (data ++ rest).length < h.wants p
  · rw [h.short p _ hon hboth hmore, h.short _ rest hkept hrest (by omega),
      h.absorb_absorb p data rest hshort, hlen]
    rfl
  · rw [h.full p _ hon hboth (by omega), h.full _ rest hkept hrest (by omega), shifted_answering,
      h.complete_absorb p data _ hshort, hwants]
    have hsum : data.length + (h.wants p - data.length) = h.wants p := by omega
    have htake : (data ++ rest).take (h.wants p) = data ++ rest.take (h.wants p - data.length) := by
      rw [List.take_append, List.take_of_length_le (by omega)]
    rw [hsum, htake]

/-- A piece that is not complete takes something of what follows. -/
theorem busy (h : Pieces feed) (hon : h.on p) (hrest : rest ≠ []) (hshort : data.length < h.wants p) :
    feed (h.absorb p data) rest ≠ (.ok (0, .needData), p') := by
  have hwants := h.wants_absorb p data hshort
  have hkept := h.keeps p data hon
  have hpos := List.length_pos_iff.mpr hrest
  intro hfeed
  by_cases hmore : rest.length < h.wants (h.absorb p data)
  · rw [h.short _ rest hkept hrest hmore] at hfeed
    obtain ⟨hsame, _⟩ := Prod.mk.inj hfeed
    obtain ⟨hzero, _⟩ := Prod.mk.inj (Except.ok.inj hsame)
    omega
  · rw [h.full _ rest hkept hrest (by omega)] at hfeed
    have hcount := answering_ok hfeed
    omega

/-- A call that reads pieces idles at an empty piece that gives no entry, and nowhere else. -/
theorem idle_iff (h : Pieces feed) (hon : h.on p) (hne : data ≠ []) :
    (∃ p', feed p data = (.ok (0, .needData), p')) ↔
      h.wants p = 0 ∧ ∃ p', h.complete p [] = (.ok .needData, p') := by
  have hpos := List.length_pos_iff.mpr hne
  constructor
  · rintro ⟨p', hfeed⟩
    by_cases hshort : data.length < h.wants p
    · rw [h.short p data hon hne hshort] at hfeed
      obtain ⟨hsame, _⟩ := Prod.mk.inj hfeed
      obtain ⟨hzero, _⟩ := Prod.mk.inj (Except.ok.inj hsame)
      omega
    · rw [h.full p data hon hne (by omega)] at hfeed
      have hzero : h.wants p = 0 := (answering_ok hfeed).symm
      rw [hzero, List.take_zero] at hfeed
      refine ⟨hzero, p', ?_⟩
      match hanswer : h.complete p [] with
      | (.error e, q) =>
        rw [hanswer] at hfeed
        exact absurd hfeed (by simp [answering, Except.map])
      | (.ok event, q) =>
        rw [hanswer] at hfeed
        obtain ⟨hsame, rfl⟩ := Prod.mk.inj hfeed
        obtain ⟨_, rfl⟩ := Prod.mk.inj (Except.ok.inj hsame)
        rfl
  · rintro ⟨hzero, p', hanswer⟩
    refine ⟨p', ?_⟩
    rw [h.full p data hon hne (by omega), hzero, List.take_zero, hanswer]
    rfl

/-- A piece that is complete is so whatever follows. -/
theorem settled (h : Pieces feed) (hon : h.on p) (hne : data ≠ []) (hfull : h.wants p ≤ data.length)
    (rest : List Byte) : feed p (data ++ rest) = feed p data := by
  have hboth : data ++ rest ≠ [] := by simp [hne]
  rw [h.full p data hon hne hfull, h.full p _ hon hboth (by rw [List.length_append]; omega),
    List.take_append_of_le_length hfull]

theorem incremental (h : Pieces feed) (hon : h.on p) : IncrementalAt feed p where
  within := fun _ _ _ _ hne hfeed => h.within hon hne hfeed
  more := by
    intro data hne
    by_cases hshort : data.length < h.wants p
    · exact .inr ⟨h.absorb p data, h.short p data hon hne hshort,
        fun rest hrest => h.continued hon hne hrest hshort, fun rest hrest q => h.busy hon hrest hshort⟩
    · exact .inl fun rest => h.settled hon hne (by omega) rest

end Pieces

end Iluvatar
