/-
A reader that requires its full range moves as one that does not.

`requireFull` is read in one place, where `done` is about to be reported: what a reader is
asked for, what it decodes and what it serves do not depend on it.  So what holds of every
run of a reader that was just created holds of the engines, which set the flag.
-/
import Iluvatar.Stream.ReaderServe
import Iluvatar.Stream.ReaderStep

namespace Iluvatar

open Sansio

variable {σ κ : Type}

namespace StreamReader

/-- The reader with its flag set to `full`. -/
def withFull (r : StreamReader σ κ) (full : Bool) : StreamReader σ κ := { r with requireFull := full }

/-- A result with the flag of its reader set to `full`. -/
def carry {α : Type} (full : Bool) (p : α × StreamReader σ κ) : α × StreamReader σ κ := (p.1, p.2.withFull full)

theorem afterDecode_withFull (r : StreamReader σ κ) (full : Bool) (result : DecompressResult) (hadInput : Bool) :
    (r.withFull full).afterDecode result hadInput = carry full (r.afterDecode result hadInput) := by
  have hstate : (r.withFull full).state = r.state := rfl
  unfold afterDecode
  rw [hstate]
  simp only [apply_ite (carry full)]
  cases r.state <;> rfl

theorem skip_withFull (r : StreamReader σ κ) (full : Bool) (remaining : Nat) :
    (r.withFull full).skip remaining = carry full (r.skip remaining) := by
  have hcall : (r.withFull full).codec.decompress (r.withFull full).decompressor (r.withFull full).inputLeft bufSize =
    r.codec.decompress r.decompressor r.inputLeft bufSize := rfl
  unfold skip
  simp only [hcall, apply_ite (carry full)]
  cases r.codec.decompress r.decompressor r.inputLeft bufSize with
  | error e => rfl
  | ok p =>
    simp only [apply_ite (carry full), ← afterDecode_withFull]
    refine if_congr Iff.rfl rfl (if_congr Iff.rfl ?_ rfl)
    split <;> rfl

theorem emit_withFull (r : StreamReader σ κ) (full : Bool) (remaining : Nat) :
    (r.withFull full).emit remaining = carry full (r.emit remaining) := by
  have hcall : (r.withFull full).codec.decompress (r.withFull full).decompressor (r.withFull full).inputLeft
      (min remaining bufSize) = r.codec.decompress r.decompressor r.inputLeft (min remaining bufSize) := rfl
  unfold emit
  simp only [hcall, apply_ite (carry full)]
  cases r.codec.decompress r.decompressor r.inputLeft (min remaining bufSize) with
  | error e => rfl
  | ok p =>
    simp only [apply_ite (carry full), ← afterDecode_withFull]
    refine if_congr Iff.rfl rfl (if_congr Iff.rfl ?_ rfl)
    split <;> rfl

theorem stepOnce_withFull (r : StreamReader σ κ) (full : Bool) :
    (r.withFull full).stepOnce = carry full r.stepOnce := by
  have hstate : (r.withFull full).state = r.state := rfl
  unfold stepOnce
  rw [hstate]
  simp only [apply_ite (carry full)]
  refine if_congr Iff.rfl rfl ?_
  cases r.state with
  | seekToCheckpoint =>
    have hrestore : (r.withFull full).codec.restore (r.withFull full).decompressor (r.withFull full).checkpoint =
      r.codec.restore r.decompressor r.checkpoint := rfl
    simp only [hrestore]
    cases r.codec.restore r.decompressor r.checkpoint <;> rfl
  | needInputSkipping remaining =>
    simp only [apply_ite (carry full), ← skip_withFull]
    rfl
  | needInputEmitting remaining =>
    simp only [apply_ite (carry full), ← emit_withFull]
    rfl
  | skipping remaining => exact skip_withFull r full remaining
  | emitting remaining => exact emit_withFull r full remaining
  | done => rfl

theorem untilSome_withFull (full : Bool) : ∀ (fuel : Nat) (r : StreamReader σ κ),
    untilSome stepOnce fuel (r.withFull full) =
      (untilSome stepOnce fuel r).map fun p => (p.1, p.2.withFull full) := by
  intro fuel
  induction fuel with
  | zero => intro r; rfl
  | succ fuel ih =>
    intro r
    rw [untilSome, untilSome, stepOnce_withFull]
    rcases r.stepOnce with ⟨_ | request, r'⟩
    · exact ih r'
    · rfl

theorem provideData_withFull (r : StreamReader σ κ) (full : Bool) (data : List Byte) :
    (r.withFull full).provideData data = (r.provideData data).withFull full := rfl

theorem signalEof_withFull (r : StreamReader σ κ) (full : Bool) :
    (r.withFull full).signalEof = r.signalEof.withFull full := rfl

theorem readOutput_withFull (r : StreamReader σ κ) (full : Bool) (n : Nat) :
    (r.withFull full).readOutput n = carry full (r.readOutput n) := by
  unfold readOutput
  simp only [apply_ite (carry full)]
  rfl

/-! ## Where the next packed byte is taken from -/

/-- A round that asks for no seek leaves the place where the input goes on. -/
def StaysAt (r : StreamReader σ κ) (p : Option EngineRequest × StreamReader σ κ) : Prop :=
  p.2.started = r.started ∧ p.2.compressedPos = r.compressedPos ∧ ∀ a b, p.1 ≠ some (.seekAndRead a b)

theorem afterDecode_staysAt (r : StreamReader σ κ) (result : DecompressResult) (hadInput : Bool) :
    r.StaysAt (r.afterDecode result hadInput) := by
  unfold afterDecode
  split
  · exact ⟨rfl, rfl, by simp⟩
  · split
    · split
      · split
        · split <;> exact ⟨rfl, rfl, by simp⟩
        · exact ⟨rfl, rfl, by simp⟩
      · split <;> exact ⟨rfl, rfl, by simp⟩
    · split <;> exact ⟨rfl, rfl, by simp⟩

theorem skip_staysAt (r : StreamReader σ κ) (remaining : Nat) : r.StaysAt (r.skip remaining) := by
  unfold skip
  simp only
  split
  · exact ⟨rfl, rfl, by simp⟩
  · split
    · exact ⟨rfl, rfl, by simp⟩
    · split
      · split <;> exact ⟨rfl, rfl, by simp⟩
      · exact afterDecode_staysAt _ _ _

theorem emit_staysAt (r : StreamReader σ κ) (remaining : Nat) : r.StaysAt (r.emit remaining) := by
  unfold emit
  simp only
  split
  · exact ⟨rfl, rfl, by simp⟩
  · split
    · exact ⟨rfl, rfl, by simp⟩
    · split
      · split <;> exact ⟨rfl, rfl, by simp⟩
      · exact afterDecode_staysAt _ _ _

/-- A round leaves the place where the input goes on, or it is the first and asks for the input
from the place it then stands at. -/
theorem stepOnce_place (r : StreamReader σ κ) :
    r.StaysAt r.stepOnce ∨ r.state = .seekToCheckpoint ∧
      r.stepOnce.1 = some (.seekAndRead r.stepOnce.2.compressedPos bufSize) := by
  unfold stepOnce
  split
  · exact .inl ⟨rfl, rfl, by simp⟩
  · split
    · rename_i hstate
      split
      · exact .inl ⟨rfl, rfl, by simp⟩
      · exact .inr ⟨hstate, rfl⟩
    · split
      · exact .inl (skip_staysAt { r with state := .skipping _ } _)
      · exact .inl ⟨rfl, rfl, by simp⟩
    · split
      · exact .inl (emit_staysAt { r with state := .emitting _ } _)
      · exact .inl ⟨rfl, rfl, by simp⟩
    · exact .inl (skip_staysAt r _)
    · exact .inl (emit_staysAt r _)
    · exact .inl ⟨rfl, rfl, by simp⟩

/-- A `step` leaves the place where the input goes on, or asks for the input from the place it
then stands at. -/
theorem step_place {r r' : StreamReader σ κ} {fuel : Nat} {request : EngineRequest}
    (h : untilSome stepOnce fuel r = some (request, r')) :
    r.StaysAt (some request, r') ∨ request = .seekAndRead r'.compressedPos bufSize := by
  refine @untilSome_rule _ _ _ (fun s => s.started = r.started ∧ s.compressedPos = r.compressedPos)
    (fun request s => r.StaysAt (some request, s) ∨ request = .seekAndRead s.compressedPos bufSize)
    ?_ ?_ fuel r request r' ⟨rfl, rfl⟩ h
  · rintro s s' ⟨hstarted, hpos⟩ hsilent
    rcases s.stepOnce_place with hstay | ⟨_, hseek⟩
    · rw [hsilent] at hstay
      exact ⟨hstay.1.trans hstarted, hstay.2.1.trans hpos⟩
    · rw [hsilent] at hseek
      cases hseek
  · rintro s req s' ⟨hstarted, hpos⟩ hreport
    rcases s.stepOnce_place with hstay | ⟨_, hseek⟩
    · rw [hreport] at hstay
      exact .inl ⟨hstay.1.trans hstarted, hstay.2.1.trans hpos, hstay.2.2⟩
    · rw [hreport] at hseek
      exact .inr (Option.some.inj hseek)

variable {codec : Codec σ κ} {packed plain : List Byte} {At : σ → Nat → Nat → Prop}

/-- A reader that was started asks for no more seeks. -/
theorem step_seeks {r r' : StreamReader σ κ} {fuel offset len : Nat} {delivered : List Byte}
    {request : EngineRequest} (hC : Obeys codec packed plain At) (hcodec : r.codec = codec)
    (hrange : Range plain r offset len delivered) (hstage : Stage codec packed plain At r offset len delivered)
    (hstarted : r.started = true) (h : untilSome stepOnce fuel r = some (request, r')) :
    ∀ a b, request ≠ .seekAndRead a b := by
  refine @untilSome_rule _ _ _
    (fun s => Stage codec packed plain At s offset len delivered ∧ Frame r s ∧ s.started = true)
    (fun request _ => ∀ a b, request ≠ .seekAndRead a b) ?_ ?_ fuel r request r'
    ⟨hstage, ⟨rfl, rfl, rfl, rfl, rfl, rfl, rfl, id⟩, hstarted⟩ h
  · rintro s s' ⟨hst, hframe, hgoing⟩ hsilent
    have hout := stepOnce_outcome hC (hframe.codec.trans hcodec) (hrange.frame hframe) hst
    rw [hsilent] at hout
    rcases s.stepOnce_place with hstay | ⟨_, hseek⟩
    · rw [hsilent] at hstay
      exact ⟨hout.stage, hframe.trans hout.frame, hstay.1.trans hgoing⟩
    · rw [hsilent] at hseek
      cases hseek
  · rintro s req s' ⟨hst, _, hgoing⟩ hreport a b
    rcases s.stepOnce_place with hstay | ⟨hstate, _⟩
    · rw [hreport] at hstay
      intro heq
      exact hstay.2.2 a b (congrArg some heq)
    · rcases hst with ⟨hfresh, _⟩ | ⟨c, _, hphase⟩
      · rw [hfresh.started] at hgoing
        cases hgoing
      · simp only [Phase, hstate] at hphase

end StreamReader
end Iluvatar
