/-
What an LZMA2 stream comes to: no counter passes what its chunk declares, and at the end
control byte the totals are the declared ones just where no distance stopped a chunk.
-/
import Iluvatar.Lzma.Lzma2Ledger

namespace Iluvatar

open Sansio

namespace Lzma2Decoder

open SymbolState FrameState

section

variable {ω : Type} [LzmaWindow ω]

/-- Call after call, each with its own input and room. -/
def calls : Lzma2Decoder ω → List (List Byte × Nat) → Except Fault (Lzma2Decoder ω)
  | d, [] => .ok d
  | d, (input, room) :: more => do
    let (_, d) ← d.decode input room
    calls d more

/-- What is counted is no more than the chunk declares. -/
structure Accounted (d : Lzma2Decoder ω) : Prop where
  consumed : d.state = .data → d.stored = false → d.chunkInConsumed ≤ d.packSize
  produced : d.state = .data → d.chunkOutProduced ≤ d.unpackSize

end

theorem sound_accounted {d : Lzma2Decoder SlidingWindow} (h : Sound d) : Accounted d := by
  refine ⟨fun hdata hpacked => (h.good.packed hdata hpacked).within, fun hdata => ?_⟩
  cases hstored : d.stored with
  | true =>
    have hlt := h.good.stored hdata hstored
    rw [framed_stored hdata hstored] at hlt
    exact Nat.le_of_lt hlt
  | false =>
    have hchunk := h.packed hdata hstored
    have hcounted := hchunk.counted
    have hbound : d.decoder.decodedSize + 0 ≤ d.unpackSize :=
      good_fits hchunk.good _ (Lzma2Cursor.packed_size h hdata hstored)
    omega

theorem calls_accounted {d : Lzma2Decoder SlidingWindow} (h : Sound d) (cs : List (List Byte × Nat)) :
    ∃ d', calls d cs = .ok d' ∧ Accounted d' := by
  induction cs generalizing d with
  | nil => exact ⟨d, rfl, sound_accounted h⟩
  | cons c cs ih =>
    obtain ⟨input, room⟩ := c
    obtain ⟨r, d₁, hdecode, hdecoded⟩ := decode_frames h input room
    obtain ⟨d', hcalls, haccounted⟩ := ih hdecoded.along.sound
    refine ⟨d', ?_, haccounted⟩
    rw [calls, hdecode]
    exact hcalls

end Lzma2Decoder

namespace FrameState

open SymbolState Lzma2Decoder

variable {m m' : FrameState} {packed rest out : List Byte}

/-- The run over the stream comes to its end control byte. -/
def Finishes (m : FrameState) (packed : List Byte) : Prop := Meets m packed fun d => d.state = .finished

/-- Whether a run passes such a state, looked for in so many steps. -/
def meetsWithin (P : FrameState → Bool) : Nat → FrameState → List Byte → Bool
  | 0, _, _ => true
  | n + 1, m, input =>
    P m || match step m input with
      | .move m' rest _ => meetsWithin P n m' rest
      | _ => false

theorem Runs.meetsWithin {P : FrameState → Bool} (hrun : frameMachine.Runs m packed out m' rest)
    (h : P m' = true) (n : Nat) : meetsWithin P n m packed = true := by
  induction hrun generalizing n with
  | refl m input =>
    cases n with
    | zero => rfl
    | succ n =>
      rw [FrameState.meetsWithin, h]
      rfl
  | @step m m₁ m' input input₁ rest o o' hstep hrun ih =>
    have hmove : FrameState.step m input = .move m₁ input₁ o := hstep
    cases n with
    | zero => rfl
    | succ n =>
      rw [FrameState.meetsWithin, hmove]
      exact (Bool.or_eq_true _ _).mpr (.inr (ih h n))

theorem finished_halts (h : m.state = .finished) (input : List Byte) :
    frameMachine.step m input = .halt (.ok .finished) := by
  show step m input = _
  unfold step
  rw [h]

/-- At the end control byte the declared sizes are written, if no chunk stopped short. -/
theorem Ledger.finished {taken : List Byte} {broke : Prop} (h : Ledger taken out broke m)
    (hfinished : m.state = .finished) :
    ∃ cs, Framed taken cs ∧ taken.length = packSum cs + 1 ∧ (out.length = unpackSum cs ↔ ¬ broke) := by
  obtain ⟨cs, part, lost, htaken, hwhole, hpart, hbooks⟩ := h.booked
  have houtside : m.state ≠ .data := by
    rw [hfinished]
    simp
  obtain ⟨hsum, hbroke⟩ := hbooks (by rw [hfinished]; simp)
  rw [h.idle houtside] at hsum
  unfold Underway at hpart
  rw [hfinished] at hpart
  obtain rfl : part = [0] := hpart
  refine ⟨cs, ⟨hwhole, htaken⟩, ?_, ?_⟩
  · rw [htaken, List.length_append, chunkBytes_length hwhole]
    rfl
  · rw [← hbroke]
    constructor
    · rintro hlength (hlost | hf)
      · omega
      · exact not_short houtside hf
    · intro hnone
      have : ¬ 0 < lost := fun hf => hnone (.inl hf)
      omega

/-- A state that stops its chunk short leaves its mark in the books of the end. -/
theorem stop_booked (hledger : Ledger [] [] False m) (hgood : FrameGood m)
    (hrun : frameMachine.Runs m packed out m' rest) (hfinished : m'.state = .finished)
    (hstop : Meets m packed fun d => MarkerAhead d ∨ StopAhead d) :
    ∃ taken broke, packed = taken ++ rest ∧ Ledger taken out broke m' ∧ broke := by
  obtain ⟨out₁, m₁, rest₁, hrun₁, hahead⟩ := hstop
  obtain ⟨taken₁, broke₁, hinput₁, hledger₁, _, _⟩ := runs_ledger hrun₁ hledger hgood
  have hgood₁ := hrun₁.good hgood
  obtain ⟨out₂, hrun₂, hout⟩ := hrun₁.to_stop hrun (.inr ⟨_, finished_halts hfinished rest⟩)
  cases hrun₂ with
  | refl => exact absurd hahead (nothing_ahead (by rw [hfinished]; simp))
  | @step _ m₂ _ _ input₂ _ o o' hstep hrun₂ =>
    have hstepLedger := step_ledger hledger₁ hgood₁ rest₁
    have hmove : FrameState.step m₁ rest₁ = .move m₂ input₂ o := hstep
    rw [hmove] at hstepLedger
    obtain ⟨t, hrest₁, hledger₂⟩ := hstepLedger
    have hgood₂ := frameMachine.good _ _ _ _ _ hgood₁ hstep
    obtain ⟨taken₂, broke₂, hinput₂, hledger₃, hkeep, _⟩ := runs_ledger hrun₂ hledger₂ hgood₂
    refine ⟨taken₁ ++ (t ++ taken₂), broke₂, ?_, ?_, hkeep (.inr hahead)⟩
    · rw [hinput₁, hrest₁, hinput₂, List.append_assoc, List.append_assoc]
    · rw [hout, ← List.append_assoc, ← List.append_assoc]
      exact hledger₃

end FrameState

namespace Lzma2Decompressor

open SymbolState FrameState Lzma2Decoder

/-- Where the run over a stream begins. -/
def start (dictSize : UInt32) : FrameState := framed (Lzma2Decoder.new dictSize)

/-- A reported end comes after the bytes the chunks declare, if none holds an end marker. -/
def Exact (dictSize : UInt32) (packed : List Byte) (e : Ending Fault Byte) : Prop :=
  e.outcome = none → ¬ Meets (start dictSize) packed MarkerAhead →
    ∃ cs, Framed (packed.take e.consumed) cs ∧ e.output.length = unpackSum cs ∧
      e.consumed = packSum cs + 1

theorem start_ledger (dictSize : UInt32) : Ledger [] [] False (start dictSize) := by
  have hcontrol : (start dictSize).state = .control := by
    unfold start
    rw [framed_outside (fun hf => by cases hf)]
    rfl
  have hproduced : (start dictSize).chunkOutProduced = 0 := by
    unfold start
    rw [framed_outside (fun hf => by cases hf)]
  refine ⟨⟨[], [], 0, rfl, fun c hmem => absurd hmem List.not_mem_nil, ?_, fun _ => ⟨?_, ?_⟩⟩, fun _ => hproduced⟩
  · unfold Underway
    rw [hcontrol]
  · rw [hproduced]
    rfl
  · constructor
    · rintro (hlost | hf)
      · exact absurd hlost (Nat.lt_irrefl 0)
      · exact not_short (by rw [hcontrol]; simp) hf
    · exact False.elim

/-- No call of a decoder fails or counts past what a chunk declares.  Every feeding of a stream
ends, and an end reported for a stream without end markers comes after the bytes its chunks
declare just where no distance of the stream stops a chunk short. -/
theorem exact_iff (dictSize : UInt32) (packed : List Byte) (cuts : Nat → Nat × Nat) :
    (∀ cs, ∃ d, calls (Lzma2Decoder.new dictSize : Lzma2Decoder SlidingWindow) cs = .ok d ∧ Accounted d) ∧
    ∃ e, EndsAs (asCall decompress) packed cuts (new dictSize : Lzma2Decompressor SlidingWindow) e ∧
      (Exact dictSize packed e ↔
        ¬ (Finishes (start dictSize) packed ∧ ¬ Meets (start dictSize) packed MarkerAhead ∧
          Meets (start dictSize) packed StopAhead)) := by
  refine ⟨calls_accounted (new_sound dictSize), ?_⟩
  have hrep := new_represents dictSize
  have hgood : FrameGood (start dictSize) := hrep.sound.good
  obtain ⟨out, m', rest, hrun, hstops, hall⟩ := resumes.ends hrep packed
  obtain ⟨e, hends, hat⟩ := hall cuts
  refine ⟨e, hends, ?_⟩
  have hrun : frameMachine.Runs (start dictSize) packed out m' rest := hrun
  -- the stream comes to its end control byte just where the end is reported
  have houtcome := hat.outcome
  have hnone : e.outcome = none ↔ m'.state = .finished := by
    constructor
    · intro hnone
      rw [hnone, Machine.outcome] at houtcome
      have hstepGood := frameStep_good (hrun.good hgood) rest
      have hstep : frameMachine.step m' rest = FrameState.step m' rest := rfl
      rw [hstep] at houtcome
      generalize FrameState.step m' rest = next at houtcome hstepGood
      cases next with
      | need => cases houtcome
      | move _ _ _ => cases houtcome
      | halt t =>
        rcases hstepGood with ⟨_, hfinished⟩ | ⟨rfl, _⟩
        · exact hfinished
        · cases houtcome
    · intro hfinished
      rw [houtcome, Machine.outcome, finished_halts hfinished]
      rfl
  -- what the run has taken of the stream is what the feeding has
  have htaken : ∀ taken, e.outcome = none → packed = taken ++ rest → taken = packed.take e.consumed := by
    intro taken hnone hpacked
    obtain ⟨_, hwithin, held, rfl, hrest⟩ := (hat.all hnone)
    rw [List.nil_append] at hrest
    have hwhole := List.take_append_drop e.consumed packed
    rw [← hrest] at hwhole
    exact List.append_cancel_right (hpacked.symm.trans hwhole.symm)
  constructor
  · rintro hexact ⟨⟨out₂, m₂, rest₂, hrun₂, hfinished₂⟩, hunmarked, o, m₁, rest₁, hrun₁, hstop⟩
    have hfinished : m'.state = .finished := by
      obtain ⟨_, hback, _⟩ := hrun₂.to_stop hrun hstops
      cases hback with
      | refl => exact hfinished₂
      | step hstep _ => exact absurd ((finished_halts hfinished₂ rest₂).symm.trans hstep) (by simp)
    obtain ⟨taken, broke, hpacked, hledger, hbroke⟩ := stop_booked (start_ledger dictSize) hgood hrun hfinished
      ⟨o, m₁, rest₁, hrun₁, .inr hstop⟩
    obtain ⟨cs, hframed, _, hsum⟩ := hledger.finished hfinished
    obtain ⟨cs', hframed', hlength, _⟩ := hexact (hnone.mpr hfinished) hunmarked
    rw [htaken taken (hnone.mpr hfinished) hpacked] at hframed
    rw [hframed'.unique hframed, (hat.all (hnone.mpr hfinished)).1] at hlength
    exact hsum.mp hlength hbroke
  · intro hnot hended hunmarked
    have hfinished := hnone.mp hended
    obtain ⟨taken, broke, hpacked, hledger, _, hmet⟩ := runs_ledger hrun (start_ledger dictSize) hgood
    obtain ⟨cs, hframed, hcount, hsum⟩ := hledger.finished hfinished
    have hpacked := htaken taken hended hpacked
    rw [List.nil_append] at hframed hcount
    have hbroke : ¬ broke := by
      intro hf
      rcases hmet hf with hf | ⟨o, m₁, rest₁, hrun₁, hmarker | hstop⟩
      · exact hf
      · exact hunmarked ⟨o, m₁, rest₁, hrun₁, hmarker⟩
      · exact hnot ⟨⟨out, m', rest, hrun, hfinished⟩, hunmarked, o, m₁, rest₁, hrun₁, hstop⟩
    refine ⟨cs, ?_, ?_, ?_⟩
    · rw [← hpacked]
      exact hframed
    · rw [(hat.all hended).1]
      exact hsum.mpr hbroke
    · obtain ⟨_, hwithin, _⟩ := hat.all hended
      rw [← hcount, hpacked, List.length_take, Nat.min_eq_left hwithin]

/-- A chunk of ten bytes whose data is one repeat match ends after none, and the stream with it. -/
theorem exact_repeated : ¬ ∀ (dictSize : UInt32) (packed : List Byte) (cuts : Nat → Nat × Nat)
    (e : Ending Fault Byte),
    EndsAs (asCall decompress) packed cuts (new dictSize : Lzma2Decompressor SlidingWindow) e →
    Exact dictSize packed e := by
  intro hall
  have hends : EndsAs (asCall decompress) [0xE0, 0, 9, 0, 4, 0x5D, 0, 0xFF, 0xFF, 0xFF, 0xF0, 0]
      (fun _ => (11, 0)) (new 4096 : Lzma2Decompressor SlidingWindow)
      { outcome := none, consumed := 12, output := [] } := ⟨1, rfl⟩
  have hunmarked : ¬ Meets (start 4096) [0xE0, 0, 9, 0, 4, 0x5D, 0, 0xFF, 0xFF, 0xFF, 0xF0, 0] MarkerAhead := by
    rintro ⟨out, m', rest, hrun, hmarker⟩
    have hmeets := Runs.meetsWithin (P := fun d => decide (knownDistance d.decoder = some 0xFFFFFFFF)) hrun
      (decide_eq_true hmarker.2.2) 18
    exact absurd hmeets Bool.false_ne_true
  obtain ⟨cs, hframed, hlength, _⟩ := hall 4096 _ _ _ hends rfl hunmarked
  have hknown : Framed [0xE0, 0, 9, 0, 4, 0x5D, 0, 0xFF, 0xFF, 0xFF, 0xF0, 0]
      [{ header := [0xE0, 0, 9, 0, 4, 0x5D], payload := [0, 0xFF, 0xFF, 0xFF, 0xF0] }] := by
    refine ⟨fun c hmem => ?_, rfl⟩
    obtain rfl := List.mem_singleton.mp hmem
    exact ⟨⟨0xE0, [0, 9, 0, 4, 0x5D], rfl, by decide, rfl⟩, rfl⟩
  rw [hframed.unique hknown] at hlength
  have hlength : (0 : Nat) = 10 := hlength
  exact absurd hlength (by decide)

end Lzma2Decompressor
end Iluvatar
