/-
What a decoding stage makes of the byte string it is fed.

A plan fixes one byte string, what the stage makes of it and whether the stage ends
cleanly on it.  `At s c u` says that state `s` stands at byte `c` of the input and byte
`u` of the output.  A stage keeps its plan when every call it can receive either fails,
on a string it does not end cleanly on, or yields the bytes that follow.
-/
import Iluvatar.Compress.Decompressor
import Iluvatar.Library.Feeding
import Iluvatar.Library.Segment

namespace Iluvatar

variable {σ : Type}

/-- A decompressor's `decompress`, given the input slice and the room for output. -/
abbrev Decompress (σ : Type) := σ → List Byte → Nat → Except Fault (DecompressResult × σ)

/-- What a stage makes of one byte string. -/
structure Plan (σ : Type) where
  input : List Byte
  output : List Byte
  clean : Prop
  At : σ → Nat → Nat → Prop

/-- One call at `c`, `u` did what the plan asks. -/
structure Plan.Answers (p : Plan σ) (c u : Nat) (input : List Byte) (room : Nat)
    (r : DecompressResult) (s' : σ) : Prop where
  consumed_le : r.bytesConsumed ≤ input.length
  produced_le : r.produced.length ≤ room
  produced_eq : r.produced <+: p.output.drop u
  stands : p.At s' (c + r.bytesConsumed) (u + r.produced.length)
  ended : r.status = .streamEnd → u + r.produced.length = p.output.length
  progress : r.status = .continue → 0 < r.bytesConsumed ∨ 0 < r.produced.length

/-- The stage keeps the plan: it is called with what follows in the input, with the
empty slice only once that is exhausted, and with room for output. -/
structure Plan.Keeps (p : Plan σ) (D : Decompress σ) : Prop where
  within : ∀ s c u, p.At s c u → c ≤ p.input.length ∧ u ≤ p.output.length
  decompress : ∀ s c u input room, p.At s c u → input <+: p.input.drop c →
    (input = [] → p.input.length ≤ c) → 0 < room →
    (∃ e, D s input room = .error (.error e) ∧ ¬ p.clean) ∨
    ∃ r s', D s input room = .ok (r, s') ∧ p.Answers c u input room r s'

/-- A decompressor as a decoder that is fed. -/
def asCall (D : Decompress σ) : Sansio.Call σ Fault Byte Byte := fun s input room =>
  match D s input room with
  | .error f => .error f
  | .ok (r, s') =>
    .ok ({ consumed := r.bytesConsumed, produced := r.produced, ended := r.status == .streamEnd }, s')

/-- What is done with a decoder that is fed. -/
inductive Move where
  /-- A call with at most `size + 1` bytes of what is left and room for `room + 1`. -/
  | feed (size room : Nat)
  /-- A fresh decoder restored from the checkpoint given here. -/
  | resume

namespace Plan

open Sansio

variable {p : Plan σ} {D : Decompress σ}

/-- A feeding that began at `c`, `u` stands where it should. -/
structure Fed (p : Plan σ) (c u : Nat) (g : Going σ Byte) : Prop where
  stands : p.At g.state (c + g.consumed) (u + g.output.length)
  output : g.output <+: p.output.drop u

/-- How a feeding that began at byte `u` of the output may end. -/
structure EndsWell (p : Plan σ) (u : Nat) (e : Ending Fault Byte) : Prop where
  output : e.output <+: p.output.drop u
  all : e.outcome = none → e.output = p.output.drop u
  clean : p.clean → e.outcome = none
  fault : ∀ f, e.outcome = some f → ∃ err, f = .error err

/-- What is left to read and to make. -/
def left (p : Plan σ) (c u : Nat) : Nat := (p.input.length - c) + (p.output.length - u)

theorem append_prefix_drop {out made : List Byte} {l : List Byte} {u : Nat}
    (hout : out <+: l.drop u) (hmade : made <+: l.drop (u + out.length)) :
    out ++ made <+: l.drop u := by
  obtain ⟨rest, hrest⟩ := hout
  have htail : l.drop (u + out.length) = rest := by
    rw [← List.drop_drop, ← hrest, List.drop_left]
  rw [htail] at hmade
  rw [← hrest]
  exact (List.prefix_append_right_inj out).mpr hmade

/-- One call of a feeding. -/
theorem Keeps.turn (hp : p.Keeps D) {c u : Nat} {g : Going σ Byte} (hg : p.Fed c u g)
    (cut : Nat × Nat) :
    (∃ e, Sansio.turn (asCall D) (p.input.drop c) cut g = .ended e ∧ p.EndsWell u e) ∨
    ∃ g', Sansio.turn (asCall D) (p.input.drop c) cut g = .going g' ∧ p.Fed c u g' ∧
      p.left (c + g'.consumed) (u + g'.output.length) < p.left (c + g.consumed) (u + g.output.length) := by
  have hslice : (((p.input.drop c).drop g.consumed).take (cut.1 + 1)) <+:
      p.input.drop (c + g.consumed) := by
    rw [List.drop_drop]
    exact List.take_prefix _ _
  have hend : ((p.input.drop c).drop g.consumed).take (cut.1 + 1) = [] →
      p.input.length ≤ c + g.consumed := by
    intro hnil
    have hlen := congrArg List.length hnil
    rw [List.length_take, List.length_drop, List.length_drop, List.length_nil] at hlen
    omega
  rcases hp.decompress _ _ _ _ _ hg.stands hslice hend (Nat.succ_pos cut.2) with
    ⟨e, hcall, hdirty⟩ | ⟨r, s', hcall, hanswer⟩
  · left
    refine ⟨{ outcome := some (.error e), consumed := g.consumed, output := g.output }, ?_, ?_⟩
    · rw [Sansio.turn, asCall, hcall]
    · exact ⟨hg.output, (fun h => by cases h), fun h => absurd h hdirty,
        fun f hf => ⟨e, (Option.some.inj hf).symm⟩⟩
  · have hout := append_prefix_drop hg.output hanswer.produced_eq
    cases hstatus : r.status with
    | streamEnd =>
      left
      refine ⟨{ outcome := none, consumed := g.consumed + r.bytesConsumed,
                output := g.output ++ r.produced }, ?_, hout, ?_, fun _ => rfl, fun f hf => by cases hf⟩
      · simp only [Sansio.turn, asCall, hcall, hstatus, beq_self_eq_true, if_true]
      · intro _
        have hall := hanswer.ended hstatus
        refine hout.eq_of_length ?_
        rw [List.length_append, List.length_drop]
        omega
    | «continue» =>
      right
      refine ⟨{ state := s', consumed := g.consumed + r.bytesConsumed,
                output := g.output ++ r.produced }, ?_, ⟨?_, hout⟩, ?_⟩
      · simp only [Sansio.turn, asCall, hcall, hstatus]
        rfl
      · have hstands := hanswer.stands
        rwa [Nat.add_assoc, Nat.add_assoc, ← List.length_append] at hstands
      · have hwithin := hp.within _ _ _ hanswer.stands
        have hmoved := hanswer.progress hstatus
        simp only [left, List.length_append]
        omega

/-- Every feeding ends, with a prefix of what the stage makes, and with all of it where
the end is reported, as it always is on a string the stage ends cleanly on. -/
theorem Keeps.ends (hp : p.Keeps D) {s : σ} {c u : Nat} (hat : p.At s c u)
    (cuts : Nat → Nat × Nat) :
    ∃ e, EndsAs (asCall D) (p.input.drop c) cuts s e ∧ p.EndsWell u e := by
  have hturns : ∀ k (g : Going σ Byte) cut,
      k = p.left (c + g.consumed) (u + g.output.length) ∧ p.Fed c u g →
      (∃ e, Sansio.turn (asCall D) (p.input.drop c) cut g = .ended e ∧ p.EndsWell u e) ∨
      ∃ g' k', Sansio.turn (asCall D) (p.input.drop c) cut g = .going g' ∧
        (k' = p.left (c + g'.consumed) (u + g'.output.length) ∧ p.Fed c u g') ∧ k' < k := by
    rintro k g cut ⟨rfl, hg⟩
    rcases hp.turn hg cut with hended | ⟨g', hturn, hg', hless⟩
    · exact .inl hended
    · exact .inr ⟨g', _, hturn, ⟨rfl, hg'⟩, hless⟩
  obtain ⟨n, e, hfeed, he⟩ := ends_of_turns hturns _ { state := s, consumed := 0, output := [] } cuts
    ⟨rfl, hat, List.nil_prefix⟩
  exact ⟨e, ⟨n, hfeed⟩, he⟩

/-- Where a feeding stands after `n` calls. -/
theorem Keeps.fed (hp : p.Keeps D) {c u : Nat} :
    ∀ n cuts (g : Going σ Byte), p.Fed c u g →
      (∃ g', feed (asCall D) (p.input.drop c) n cuts g = .going g' ∧ p.Fed c u g') ∨
      ∃ e, feed (asCall D) (p.input.drop c) n cuts g = .ended e ∧ p.EndsWell u e := by
  intro n
  induction n with
  | zero =>
    intro cuts g hg
    exact .inl ⟨g, rfl, hg⟩
  | succ n ih =>
    intro cuts g hg
    rcases hp.turn hg (cuts 0) with ⟨e, hturn, he⟩ | ⟨g', hturn, hg', _⟩
    · exact .inr ⟨e, by rw [feed, hturn], he⟩
    · rcases ih (fun i => cuts (i + 1)) g' hg' with ⟨g₁, hfeed, hg₁⟩ | ⟨e, hfeed, he⟩
      · exact .inl ⟨g₁, by rw [feed, hturn]; exact hfeed, hg₁⟩
      · exact .inr ⟨e, by rw [feed, hturn]; exact hfeed, he⟩

end Plan
end Iluvatar
