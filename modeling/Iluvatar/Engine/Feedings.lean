/-
A parser fed to the end of its stream by a driver that offers what was not taken again.

Every call is given some of the bytes that are left, and the end of the stream is told when there
are none.  Whatever the driver gives, the feeding ends as the one in which every call is given all
that is left: `Place.next` is one call of that one.
-/
import Mathlib.Logic.Relation
import Iluvatar.Engine.Driving
import Iluvatar.Library.Feeding

namespace Iluvatar

open Sansio

variable {ε ρ : Type}

def ArchiveEvent.entries : ArchiveEvent → List ArchiveEntry
  | .entry e => [e]
  | _ => []

@[simp] theorem ArchiveEvent.entries_needData : ArchiveEvent.needData.entries = [] := rfl

@[simp] theorem ArchiveEvent.entries_endOfArchive : ArchiveEvent.endOfArchive.entries = [] := rfl

@[simp] theorem ArchiveEvent.entries_entry (e : ArchiveEntry) : (ArchiveEvent.entry e).entries = [e] := rfl

/-- One call of the driver: some bytes, or the end of the stream. -/
def offered (feed : ρ → List Byte → ParserAnswer ε ρ) (finish : ρ → Except ε Unit) :
    Call ρ ε Byte ArchiveEntry :=
  fun p piece _ =>
    if piece = [] then (finish p).map fun _ => ({ consumed := 0, produced := [], ended := true }, p)
    else
      match feed p piece with
      | (.error e, _) => .error e
      | (.ok (n, event), p) =>
        .ok ({ consumed := n, produced := event.entries, ended := decide (event = .endOfArchive) }, p)

/-- Calls with any bytes that are left, those that `may` be made: what was taken of the stream, the
entries reported, and the parser. -/
inductive Fed (feed : ρ → List Byte → ParserAnswer ε ρ) (may : ρ → List Byte → Prop) (plain : List Byte)
    (start : ρ) : Nat → List ArchiveEntry → ρ → Prop where
  | start : Fed feed may plain start 0 [] start
  | call {taken n : Nat} {entries : List ArchiveEntry} {p p' : ρ} {piece : List Byte} {event : ArchiveEvent} :
      Fed feed may plain start taken entries p → piece ≠ [] → piece <+: plain.drop taken → may p piece →
      feed p piece = (.ok (n, event), p') → Fed feed may plain start (taken + n) (entries ++ event.entries) p'

/-- What every call keeps holds in every feeding. -/
theorem Fed.invariant {feed : ρ → List Byte → ParserAnswer ε ρ} {may : ρ → List Byte → Prop} {plain : List Byte}
    {start : ρ} {I : Nat → List ArchiveEntry → ρ → Prop} (hstart : I 0 [] start)
    (hcall : ∀ taken n entries p p' piece event, I taken entries p → piece ≠ [] → piece <+: plain.drop taken →
      may p piece → feed p piece = (.ok (n, event), p') → I (taken + n) (entries ++ event.entries) p') :
    ∀ {taken entries p}, Fed feed may plain start taken entries p → I taken entries p := by
  intro taken entries p h
  induction h with
  | start => exact hstart
  | call _ hne hbegins hmay hfeed ih => exact hcall _ _ _ _ _ _ _ ih hne hbegins hmay hfeed

/-- Between two calls of the feeding in which each is given all that is left. -/
structure Place (ρ : Type) where
  taken : Nat
  entries : List ArchiveEntry
  parser : ρ

namespace Place

variable (feed : ρ → List Byte → ParserAnswer ε ρ) (finish : ρ → Except ε Unit) (plain : List Byte)

/-- The next call, unless the feeding is over. -/
def next (s : Place ρ) : Option (Place ρ) :=
  if plain.drop s.taken = [] then none
  else
    match feed s.parser (plain.drop s.taken) with
    | (.error _, _) => none
    | (.ok (_, .endOfArchive), _) => none
    | (.ok (n, event), p) => some { taken := s.taken + n, entries := s.entries ++ event.entries, parser := p }

/-- How a feeding ends that is over. -/
def ending (s : Place ρ) : Ending ε ArchiveEntry :=
  if plain.drop s.taken = [] then
    match finish s.parser with
    | .error e => { outcome := some e, consumed := s.taken, output := s.entries }
    | .ok _ => { outcome := none, consumed := s.taken, output := s.entries }
  else
    match feed s.parser (plain.drop s.taken) with
    | (.error e, _) => { outcome := some e, consumed := s.taken, output := s.entries }
    | (.ok (n, _), _) => { outcome := none, consumed := s.taken + n, output := s.entries }

/-- One place after the other. -/
def Leads : Place ρ → Place ρ → Prop := Relation.ReflTransGen fun s s' => s.next feed plain = some s'

variable {feed finish plain}

/-- A feeding is over in one place. -/
theorem Leads.over {s a b : Place ρ} (ha : Leads feed plain s a) (hb : Leads feed plain s b)
    (haover : a.next feed plain = none) (hbover : b.next feed plain = none) : a = b := by
  have hunique : Relator.RightUnique fun s s' : Place ρ => s.next feed plain = some s' :=
    fun _ _ _ h h' => Option.some.inj (h.symm.trans h')
  have hstuck : ∀ {s s' : Place ρ}, s.next feed plain = none → Leads feed plain s s' → s = s' := by
    intro s s' hover hleads
    rcases Relation.ReflTransGen.cases_head hleads with heq | ⟨_, hnext, _⟩
    · exact heq
    · rw [hover] at hnext
      cases hnext
  rcases Relation.ReflTransGen.total_of_right_unique hunique ha hb with hab | hba
  · exact hstuck haover hab
  · exact (hstuck hbover hba).symm

/-- A feeding is one with every call given all that is left. -/
theorem Leads.fed {start : ρ} {s : Place ρ} (h : Leads feed plain { taken := 0, entries := [], parser := start } s) :
    Fed feed (fun _ _ => True) plain start s.taken s.entries s.parser := by
  induction h with
  | refl => exact .start
  | @tail s s' _ hnext ih =>
    unfold next at hnext
    split at hnext
    · cases hnext
    · next hleft =>
      split at hnext
      · cases hnext
      · cases hnext
      · next n event p _ hfeed =>
        obtain rfl := Option.some.inj hnext
        exact ih.call hleft (List.prefix_refl _) trivial hfeed

end Place

/-! ## Any feeding -/

section

variable {feed : ρ → List Byte → ParserAnswer ε ρ} {finish : ρ → Except ε Unit} {plain : List Byte}
  {start : ρ}

/-- A feeding under way is in the middle of a call that is given all that is left. -/
structure Under (feed : ρ → List Byte → ParserAnswer ε ρ) (plain : List Byte) (start : ρ) (s : Place ρ)
    (g : Going ρ ArchiveEntry) : Prop where
  leads : Place.Leads feed plain { taken := 0, entries := [], parser := start } s
  within : g.consumed ≤ plain.length
  ahead : s.taken ≤ g.consumed
  midway : Midway feed s.parser ((plain.drop s.taken).take (g.consumed - s.taken)) g.state
  still : g.consumed = s.taken → g.state = s.parser
  output : g.output = s.entries

/-- What is left to do: bytes to take, bytes to get past, and what a parser does without taking any. -/
def leftToDo (idle : ρ → Nat) (most : Nat) (plain : List Byte) (s : Place ρ) (g : Going ρ ArchiveEntry) : Nat :=
  (most + 1) * ((plain.length - g.consumed) + (plain.length - s.taken)) + idle s.parser

/-- A parser takes some bytes in every so many calls. -/
structure Settles (feed : ρ → List Byte → ParserAnswer ε ρ) (plain : List Byte) (start : ρ) (idle : ρ → Nat)
    (most : Nat) : Prop where
  incremental : ∀ p, IncrementalAt feed p
  most_le : ∀ p, idle p ≤ most
  less : ∀ {s : Place ρ} {event : ArchiveEvent} {p : ρ},
    Place.Leads feed plain { taken := 0, entries := [], parser := start } s → plain.drop s.taken ≠ [] →
    feed s.parser (plain.drop s.taken) = (.ok (0, event), p) → event ≠ .endOfArchive → idle p < idle s.parser

/-- How an ending stands to the one of the feeding given all that is left. -/
structure EndsLike (e whole : Ending ε ArchiveEntry) : Prop where
  outcome : e.outcome = whole.outcome
  output : e.output = whole.output
  consumed : e.outcome = none → e.consumed = whole.consumed

/-- The feeding is over: it ends as the one given all that is left. -/
def OverLike (feed : ρ → List Byte → ParserAnswer ε ρ) (finish : ρ → Except ε Unit) (plain : List Byte)
    (start : ρ) (e : Ending ε ArchiveEntry) : Prop :=
  ∃ s, Place.Leads feed plain { taken := 0, entries := [], parser := start } s ∧ s.next feed plain = none ∧
    EndsLike e (s.ending feed finish plain)

theorem product_lt {most a b i j : Nat} (hi : i ≤ most) (h : a < b) : (most + 1) * a + i < (most + 1) * b + j := by
  have hmul := Nat.mul_le_mul_left (most + 1) (Nat.succ_le_of_lt h)
  rw [Nat.mul_succ] at hmul
  omega

/-- The end of the stream is told when all of it is taken. -/
theorem Under.finishes (finish : ρ → Except ε Unit) {s : Place ρ} {g : Going ρ ArchiveEntry}
    (h : Under feed plain start s g) (hend : plain.drop g.consumed = []) (cut : Nat × Nat) :
    ∃ e, turn (offered feed finish) plain cut g = .ended e ∧ OverLike feed finish plain start e := by
  have hlength := List.drop_eq_nil_iff.mp hend
  have hwithin := h.within
  have hahead := h.ahead
  have houtput := h.output
  have hmidway := h.midway
  rw [List.take_of_length_le (by rw [List.length_drop]; omega)] at hmidway
  -- the place in which all is taken, with the parser of the feeding
  have hover : ∃ s', Place.Leads feed plain { taken := 0, entries := [], parser := start } s' ∧
      s'.taken = plain.length ∧ s'.entries = g.output ∧ s'.parser = g.state := by
    by_cases hnil : plain.drop s.taken = []
    · have hdone := List.drop_eq_nil_iff.mp hnil
      exact ⟨s, h.leads, by omega, houtput.symm, (h.still (by omega)).symm⟩
    · refine ⟨{ taken := s.taken + (plain.drop s.taken).length, entries := s.entries, parser := g.state }, ?_, ?_,
        houtput.symm, rfl⟩
      · refine Relation.ReflTransGen.tail h.leads ?_
        unfold Place.next
        rw [if_neg hnil, hmidway.whole hnil]
        simp
      · rw [List.length_drop]
        simp only
        omega
  obtain ⟨s', hleads, htaken, hentries, hparser⟩ := hover
  have hnone : plain.drop s'.taken = [] := by rw [htaken, List.drop_length]
  have hnext : s'.next feed plain = none := if_pos hnone
  unfold turn offered
  rw [hend, List.take_nil, if_pos rfl]
  cases hfinish : finish g.state with
  | error e =>
    refine ⟨_, rfl, s', hleads, hnext, ?_⟩
    unfold Place.ending
    rw [if_pos hnone, hparser, hfinish]
    exact ⟨rfl, hentries.symm, fun h => by cases h⟩
  | ok u =>
    refine ⟨_, rfl, s', hleads, hnext, ?_⟩
    unfold Place.ending
    rw [if_pos hnone, hparser, hfinish]
    refine ⟨rfl, ?_, fun _ => ?_⟩
    · simp only [List.append_nil]
      exact hentries.symm
    · simp only
      omega

/-- A call of the driver is part of the call given all that is left, or its end. -/
theorem Under.turn (finish : ρ → Except ε Unit) {idle : ρ → Nat} {most : Nat}
    (hsettles : Settles feed plain start idle most) {s : Place ρ} {g : Going ρ ArchiveEntry}
    (h : Under feed plain start s g) (cut : Nat × Nat) :
    (∃ e, turn (offered feed finish) plain cut g = .ended e ∧ OverLike feed finish plain start e) ∨
      ∃ g' s', turn (offered feed finish) plain cut g = .going g' ∧ Under feed plain start s' g' ∧
        leftToDo idle most plain s' g' < leftToDo idle most plain s g := by
  by_cases hend : plain.drop g.consumed = []
  · exact .inl (h.finishes finish hend cut)
  · have hwithin := h.within
    have hahead := h.ahead
    have hmost := hsettles.most_le
    have hconsumed : g.consumed < plain.length := by
      by_contra hlong
      exact hend (List.drop_of_length_le (by omega))
    -- the bytes of the call given all that is left
    have hrest : (plain.drop s.taken).drop (g.consumed - s.taken) = plain.drop g.consumed := by
      rw [List.drop_drop]
      exact congrArg (plain.drop ·) (by omega)
    have hall : (plain.drop s.taken).take (g.consumed - s.taken) ++ plain.drop g.consumed = plain.drop s.taken := by
      rw [← hrest, List.take_append_drop]
    have hlen : ((plain.drop s.taken).take (g.consumed - s.taken)).length = g.consumed - s.taken := by
      rw [List.length_take, List.length_drop]
      omega
    have hleft : plain.drop s.taken ≠ [] := by
      rw [← hall]
      simp [hend]
    have hpiece : (plain.drop g.consumed).take (cut.1 + 1) ≠ [] := by simp [hend]
    have hsize : ((plain.drop g.consumed).take (cut.1 + 1)).length ≤ plain.length - g.consumed := by
      rw [List.length_take, List.length_drop]
      omega
    have hpos := List.length_pos_iff.mpr hpiece
    rw [Sansio.turn, offered, if_neg hpiece]
    rcases h.midway.turn (hsettles.incremental g.state) (fun _ => cut.1) 0 hend with hsame | ⟨q', hpart, hmidway⟩
    · rw [hall, hlen] at hsame
      cases hfeed : feed g.state ((plain.drop g.consumed).take (cut.1 + 1)) with
      | mk answer p' =>
        rw [hfeed] at hsame
        cases answer with
        | error e =>
          left
          refine ⟨_, rfl, s, h.leads, ?_, ?_⟩
          · unfold Place.next
            rw [if_neg hleft, hsame]
            rfl
          · unfold Place.ending
            rw [if_neg hleft, hsame]
            exact ⟨rfl, h.output, fun h => by cases h⟩
        | ok told =>
          obtain ⟨k, event⟩ := told
          have hk := (hsettles.incremental g.state).within _ _ _ _ hpiece hfeed
          by_cases harchive : event = .endOfArchive
          · left
            subst harchive
            refine ⟨_, rfl, s, h.leads, ?_, ?_⟩
            · unfold Place.next
              rw [if_neg hleft, hsame]
              rfl
            · unfold Place.ending
              rw [if_neg hleft, hsame]
              refine ⟨rfl, ?_, fun _ => ?_⟩
              · show g.output ++ [] = _
                rw [List.append_nil]
                exact h.output
              · show g.consumed + k = s.taken + (g.consumed - s.taken + k)
                omega
          · right
            have hnext : s.next feed plain =
                some { taken := g.consumed + k, entries := s.entries ++ event.entries, parser := p' } := by
              unfold Place.next
              rw [if_neg hleft, hsame, show g.consumed + k = s.taken + (g.consumed - s.taken + k) by omega]
              cases event with
              | endOfArchive => exact absurd rfl harchive
              | needData => rfl
              | entry e => rfl
            refine ⟨{ state := p', consumed := g.consumed + k, output := g.output ++ event.entries }, _, ?_,
              { leads := Relation.ReflTransGen.tail h.leads hnext
                within := by show g.consumed + k ≤ plain.length; omega
                ahead := Nat.le_refl _
                midway := ?_
                still := fun _ => rfl
                output := by rw [h.output] }, ?_⟩
            · simp only [decide_eq_false harchive, Bool.false_eq_true, if_false]
            · rw [Nat.sub_self, List.take_zero]
              exact .start
            · unfold leftToDo
              simp only
              by_cases hnone : g.consumed + k = s.taken
              · -- the whole call takes nothing
                have hzero : g.consumed - s.taken + k = 0 := by omega
                rw [shifted, hzero] at hsame
                have hless := hsettles.less h.leads hleft hsame harchive
                rw [hnone, show g.consumed = s.taken by omega]
                omega
              · exact product_lt (hmost p') (by omega)
    · right
      rw [hpart]
      refine ⟨_, s, rfl,
        { leads := h.leads
          within := by simp only; omega
          ahead := by simp only; omega
          midway := ?_
          still := fun heq => by simp only at heq; omega
          output := ?_ }, ?_⟩
      · have htaken : (plain.drop s.taken).take
              (g.consumed + ((plain.drop g.consumed).take (cut.1 + 1)).length - s.taken) =
            (plain.drop s.taken).take (g.consumed - s.taken) ++ (plain.drop g.consumed).take (cut.1 + 1) := by
          rw [show g.consumed + ((plain.drop g.consumed).take (cut.1 + 1)).length - s.taken =
            (g.consumed - s.taken) + ((plain.drop g.consumed).take (cut.1 + 1)).length by omega, List.take_add, hrest,
            (List.prefix_iff_eq_take.mp (List.take_prefix _ _)).symm]
        simp only
        rw [htaken]
        exact hmidway
      · simp only [ArchiveEvent.entries_needData, List.append_nil]
        exact h.output
      · unfold leftToDo
        simp only
        exact Nat.add_lt_add_right (Nat.mul_lt_mul_of_pos_left (by omega) (Nat.succ_pos most)) _

/-- Every feeding of such a parser ends as the one given all that is left. -/
theorem Settles.ends {idle : ρ → Nat} {most : Nat} (hsettles : Settles feed plain start idle most)
    (finish : ρ → Except ε Unit) :
    ∃ s, Place.Leads feed plain { taken := 0, entries := [], parser := start } s ∧ s.next feed plain = none ∧
      ∀ cuts, ∃ e, EndsAs (offered feed finish) plain cuts start e ∧ EndsLike e (s.ending feed finish plain) := by
  have hall : ∀ cuts, ∃ e, EndsAs (offered feed finish) plain cuts start e ∧ OverLike feed finish plain start e := by
    intro cuts
    obtain ⟨n, e, hfeed, he⟩ := ends_of_turns
      (I := fun k g => ∃ s, k = leftToDo idle most plain s g ∧ Under feed plain start s g)
      (Q := OverLike feed finish plain start)
      (by
        rintro k g cut ⟨s, rfl, hunder⟩
        rcases hunder.turn finish hsettles cut with hover | ⟨g', s', hturn, hunder', hless⟩
        · exact .inl hover
        · exact .inr ⟨g', _, hturn, ⟨s', rfl, hunder'⟩, hless⟩)
      _ { state := start, consumed := 0, output := [] } cuts
      ⟨{ taken := 0, entries := [], parser := start }, rfl,
        { leads := .refl
          within := Nat.zero_le _
          ahead := Nat.le_refl _
          midway := .start
          still := fun _ => rfl
          output := rfl }⟩
    exact ⟨e, ⟨n, hfeed⟩, he⟩
  obtain ⟨e, _, s, hleads, hover, _⟩ := hall fun _ => (0, 0)
  refine ⟨s, hleads, hover, fun cuts => ?_⟩
  obtain ⟨e', hends, s', hleads', hover', hlike⟩ := hall cuts
  obtain rfl := hleads'.over hleads hover' hover
  exact ⟨e', hends, hlike⟩

theorem EndsLike.same {a b whole : Ending ε ArchiveEntry} (ha : EndsLike a whole) (hb : EndsLike b whole) :
    EndsLike a b where
  outcome := ha.outcome.trans hb.outcome.symm
  output := ha.output.trans hb.output.symm
  consumed := fun hnone => by
    rw [ha.consumed hnone, hb.consumed (hb.outcome.trans (ha.outcome.symm.trans hnone))]

end
end Iluvatar
