/-
A decode call does some of the symbol machine's steps.

The cursor of a call runs along the machine: what it has written, and what the window still
owes, is what the machine has written.  Each round of the loop keeps that and makes the
weight of the cursor less, so the loop stops within its fuel.
-/
import Iluvatar.Lzma.Resume
import Iluvatar.Lzma.Fast

namespace Iluvatar

open Sansio

namespace SymbolState

open LzmaDecoder LzmaWindow

/-- The decoder with its pending output taken: the machine's state. -/
def settled (d : SymbolState) : SymbolState := { d with window := d.window.flushed }

theorem settled_of_pending {d : SymbolState} (h : d.window.pending = []) : settled d = d := by
  rw [settled, History.flushed_of_pending h]

/-- The cursor of a call has come along the machine's run from `start`. -/
structure Along (start : SymbolState) (input owed : List Byte) (room : Nat) (c : Cursor History) :
    Prop where
  good : Good (settled c.decoder)
  sameRoom : c.room = room
  fits : c.out.length ≤ room
  run : ∃ out, symbolMachine.Runs start input out (settled c.decoder) c.input ∧
    owed ++ out = c.out ++ c.decoder.window.pending

variable {start d : SymbolState} {input owed rest : List Byte} {room : Nat} {c c' : Cursor History}

/-- The machine's next steps bring the cursor on. -/
theorem Along.advance (h : Along start input owed room c) (out : List Byte)
    (hrun : symbolMachine.Runs (settled c.decoder) c.input out (settled c'.decoder) c'.input)
    (hroom : c'.room = c.room) (hfits : c'.out.length ≤ c'.room)
    (hout : c.out ++ c.decoder.window.pending ++ out = c'.out ++ c'.decoder.window.pending) :
    Along start input owed room c' := by
  obtain ⟨out₀, hrun₀, hout₀⟩ := h.run
  refine ⟨hrun.good h.good, hroom.trans h.sameRoom, ?_, out₀ ++ out, hrun₀.trans hrun, ?_⟩
  · rw [hroom, h.sameRoom] at hfits
    exact hfits
  · rw [← List.append_assoc, hout₀, hout]

/-- Draining moves pending bytes to the output. -/
theorem Along.drain (h : Along start input owed room c) :
    Along start input owed room c.drain ∧
      settled c.drain.decoder = settled c.decoder ∧ c.drain.input = c.input ∧
      c.drain.out.length + c.drain.decoder.window.pending.length =
        c.out.length + c.decoder.window.pending.length ∧
      (c.drain.decoder.window.pending = [] ∨ c.drain.out.length = room) := by
  have hout : c.drain.out = c.out ++ c.decoder.window.pending.take (c.room - c.out.length) := rfl
  have hpending : c.drain.decoder.window.pending =
      c.decoder.window.pending.drop (c.room - c.out.length) := rfl
  have hfits := h.fits
  have hroom := h.sameRoom
  have hlen : c.drain.out.length ≤ c.drain.room := by
    show _ ≤ c.room
    rw [hout, List.length_append, List.length_take]
    omega
  refine ⟨h.advance [] (Machine.Runs.refl _ _) rfl hlen ?_, rfl, rfl, ?_, ?_⟩
  · rw [hout, hpending, List.append_nil, List.append_assoc, List.take_append_drop]
  · rw [hout, hpending, List.length_append, List.length_take, List.length_drop]
    omega
  · by_cases hshort : c.decoder.window.pending.length ≤ c.room - c.out.length
    · left
      rw [hpending]
      exact List.drop_eq_nil_of_le hshort
    · right
      rw [hout, List.length_append, List.length_take]
      omega

/-- What a status of the decoder says. -/
inductive Stopped (room : Nat) (c : Cursor History) : LzmaDecodeStatus → Prop where
  | needInput : c.input = [] → c.decoder.window.pending = [] →
      step (settled c.decoder) [] = .need → Stopped room c .needInput
  | full : c.out.length = room → Stopped room c .continue
  | ended {status : LzmaDecodeStatus} : Ends status → c.decoder.window.pending = [] →
      step (settled c.decoder) c.input = .halt (.ok status) → Stopped room c status

/-- The rounds a phase takes at most until a byte is written or the call returns. -/
def stage (d : SymbolState) : Nat :=
  match d.phase with
  | .finished _ => 0
  | .literal _ => 1
  | .matchDistance _ _ => 2
  | .matchLength _ => 3
  | .newSymbol => 4
  | .copyMatch _ 0 => 5
  | .copyMatch _ (_ + 1) => 1
  | _ => 5

/-- A round makes this less. -/
def weight (c : Cursor History) : Nat :=
  6 * (c.room + 1 - c.out.length - c.decoder.window.pending.length) + stage c.decoder

/-- What a round of the decode loop comes to. -/
inductive Round (start : SymbolState) (input owed : List Byte) (room : Nat) (c : Cursor History) :
    Except Fault (Option LzmaDecodeStatus × Cursor History) → Prop where
  | next {c' : Cursor History} : Along start input owed room c' → c'.decoder.rcInitialized = true →
      weight c' < weight c → Round start input owed room c (.ok (none, c'))
  | stop {c' : Cursor History} {status : LzmaDecodeStatus} : Along start input owed room c' →
      Stopped room c' status → Round start input owed room c (.ok (some status, c'))

/-- A running machine keeps running. -/
theorem runs_init {d' : SymbolState} {out : List Byte} (h : Good d) (hinit : d.rcInitialized = true)
    (hrun : symbolMachine.Runs d input out d' rest) : d'.rcInitialized = true := by
  induction hrun with
  | refl => exact hinit
  | @step m m₁ m₂ input input₁ input₂ out₁ out₂ hstep _ ih =>
    have hgood := step_good h input
    have hstep : SymbolState.step m input = .move m₁ input₁ out₁ := hstep
    rw [hstep] at hgood
    exact ih hgood.1 (hgood.2.2.2 hinit).1

/-- A round that calls a resumable function: it returns for want of input, or its value takes
the cursor on to where it weighs less. -/
theorem Along.resume (h : Along start input owed room c) (hpending : c.decoder.window.pending = [])
    (hinit : c.decoder.rcInitialized = true) {α : Type}
    {after : α → SymbolState → SymbolState × List Byte → Prop} {r : Except Fault (Resumed History α)}
    {k : α → Cursor History → Cursor History}
    (hfollows : Follows resumable c.decoder c.input after r)
    (hdone : ∀ a d' d'' rest out, Good d'' → after a d' (d'', out) →
      settled (k a { c with decoder := d', input := rest }).decoder = d'' ∧
      (k a { c with decoder := d', input := rest }).input = rest ∧
      (k a { c with decoder := d', input := rest }).room = c.room ∧
      (k a { c with decoder := d', input := rest }).out.length ≤ room ∧
      (k a { c with decoder := d', input := rest }).out ++
        (k a { c with decoder := d', input := rest }).decoder.window.pending = c.out ++ out ∧
      weight (k a { c with decoder := d', input := rest }) < weight c) :
    Round start input owed room c (do return c.resume (← r) k) := by
  have hgood := h.good
  have hsettled := settled_of_pending hpending
  rw [hsettled] at hgood
  cases hfollows with
  | failed hrun hhalt => exact absurd hhalt (hrun.good hgood).no_fault
  | @suspended d' hrun hneed =>
    have hpending' := (hrun.good hgood).core.pending
    have hsettled' := settled_of_pending hpending'
    have halong : Along start input owed room { c with decoder := d', input := [] } := by
      refine h.advance [] ?_ rfl ?_ ?_
      · rw [hsettled, hsettled']
        exact hrun
      · show c.out.length ≤ c.room
        rw [h.sameRoom]
        exact h.fits
      · rw [List.append_nil, hpending, hpending']
    refine .stop halong (.needInput rfl hpending' ?_)
    rw [hsettled']
    exact hneed
  | @done a d' d'' rest out hafter hrun =>
    obtain ⟨hdecoder, hinput, hroom, hfits, hout, hweight⟩ :=
      hdone a d' d'' rest out (hrun.good hgood) hafter
    show Round start input owed room c (.ok (none, k a { c with decoder := d', input := rest }))
    refine .next (h.advance out ?_ hroom ?_ ?_) ?_ hweight
    · rw [hsettled, hdecoder, hinput]
      exact hrun
    · exact Nat.le_trans hfits (Nat.le_of_eq (hroom.trans h.sameRoom).symm)
    · rw [hpending, List.append_nil, hout]
    · have hinit' := runs_init hgood hinit hrun
      rw [← hdecoder] at hinit'
      exact hinit'

theorem bare_of_fresh (h : Good d) (hphase : d.phase = .newSymbol) : bare d = d := by
  have hgood := h.phase
  rw [hphase] at hgood
  obtain ⟨⟨hlen, hdist⟩, _⟩ := hgood
  rw [bare, ← hphase, ← hlen, ← hdist]

/-- The fast path runs along the machine, symbol by symbol. -/
theorem decodeFast_along :
    ∀ fuel (c : Cursor History), Along start input owed room c → c.decoder.rcInitialized = true →
      c.decoder.window.pending = [] → c.decoder.phase = .newSymbol → room - c.out.length < fuel →
      ∃ c', decodeFast fuel c = .ok c' ∧ Along start input owed room c' ∧
        c'.decoder.rcInitialized = true ∧ c'.decoder.window.pending = [] ∧
        (c'.decoder.phase = .newSymbol ∨ ∃ status, c'.decoder.phase = .finished status) ∧
        c.out.length ≤ c'.out.length := by
  intro fuel
  induction fuel with
  | zero => intro c _ _ _ _ hfuel; exact absurd hfuel (Nat.not_lt_zero _)
  | succ fuel ih =>
    intro c h hinit hpending hphase hfuel
    have hgood := h.good
    rw [settled_of_pending hpending] at hgood
    rw [decodeFast]
    by_cases hmargin : c.input.length < inMargin ∨ c.room < c.out.length + outMargin
    · rw [if_pos hmargin]
      exact ⟨c, rfl, h, hinit, hpending, .inl hphase, Nat.le_refl _⟩
    · rw [if_neg hmargin]
      by_cases hreached : c.decoder.reachedUnpackSize = true
      · rw [if_pos hreached]
        exact ⟨c, rfl, h, hinit, hpending, .inl hphase, Nat.le_refl _⟩
      · rw [if_neg hreached]
        have hfresh : Fresh c.decoder := ⟨hphase, fits_of_not_reached hreached⟩
        have hfollows := fastSymbol_follows (d := c.decoder) hinit (by simpa using hreached) c.input
        rw [bare_of_fresh hgood hphase] at hfollows
        generalize hsymbol : c.decoder.fastSymbol c.input = answer at hfollows
        cases hfollows with
        | failed hrun hhalt => exact absurd hhalt (hrun.good hgood).no_fault
        | suspended hrun hneed =>
          have hbits := (runs_bits hgood hinit hrun rfl).2
          have hsixty : bitsLeft c.decoder = 60 := by rw [bitsLeft, hphase]
          have hinput : inMargin = 64 := rfl
          rw [List.length_nil] at hbits
          omega
        | @done a d' d'' rest out hafter hrun =>
          obtain ⟨hd'', hout⟩ := Prod.mk.inj hafter
          have hwrites := fastSymbol_writes hfresh hsymbol
          have hgood' := hrun.good hgood
          have hpending' : d'.window.pending = [] := by
            have hnone := hgood'.core.pending
            rw [← hd''] at hnone
            unfold finished at hnone
            split at hnone <;> exact hnone
          have hinit' : d'.rcInitialized = true := by
            have hkept := runs_init hgood hinit hrun
            rw [← hd''] at hkept
            unfold finished at hkept
            split at hkept <;> exact hkept
          have hshort : out.length ≤ 273 := by
            rw [← hout]
            exact hwrites.short
          have hroom := h.sameRoom
          have hmargin' : outMargin = 273 := rfl
          have hfit : ¬ c.room < c.out.length + out.length := by omega
          have hwritten : (unchecked.value a d' rest).written = out := hout
          have hnext : ∀ d₁ : SymbolState, d₁ = d'' → d₁.window.pending = [] →
              Along start input owed room
                { c with decoder := d₁, input := rest, out := c.out ++ out } := by
            intro d₁ hd₁ hpending₁
            refine h.advance out ?_ rfl ?_ ?_
            · rw [settled_of_pending hpending, settled_of_pending hpending₁, hd₁]
              exact hrun
            · show (c.out ++ out).length ≤ c.room
              rw [List.length_append]
              omega
            · show _ = c.out ++ out ++ d₁.window.pending
              rw [hpending, hpending₁, List.append_nil, List.append_nil]
          show ∃ c', (if c.room < c.out.length + (unchecked.value a d' rest).written.length then _
            else _) = Except.ok c' ∧ _
          rw [hwritten, if_neg hfit]
          obtain ⟨finish, written⟩ := a
          cases finish with
          | some status =>
            refine ⟨_, rfl, hnext _ hd'' hpending', hinit', hpending', .inr ⟨status, rfl⟩, ?_⟩
            show c.out.length ≤ (c.out ++ out).length
            rw [List.length_append]
            omega
          | none =>
            have hpos : 0 < out.length := by
              rw [← hwritten]
              exact hwrites.some rfl
            obtain ⟨c', hfast, halong, hinit₁, hpending₁, hphase₁, hle⟩ :=
              ih _ (hnext d' hd'' hpending') hinit' hpending' hwrites.phase (by
                show room - (c.out ++ out).length < fuel
                rw [List.length_append]
                omega)
            refine ⟨c', hfast, halong, hinit₁, hpending₁, hphase₁, Nat.le_trans ?_ hle⟩
            show c.out.length ≤ (c.out ++ out).length
            rw [List.length_append]
            omega

/-- A cursor is lighter at an earlier stage. -/
theorem weight_lt {c c' : Cursor History} (hroom : c'.room = c.room)
    (hout : c.out.length + c.decoder.window.pending.length ≤
      c'.out.length + c'.decoder.window.pending.length)
    (hstage : stage c'.decoder < stage c.decoder) : weight c' < weight c := by
  unfold weight
  rw [hroom]
  omega

/-- A byte more makes a cursor lighter. -/
theorem weight_lt_of_byte {c c' : Cursor History} (hroom : c'.room = c.room)
    (hfits : c.out.length + c.decoder.window.pending.length ≤ c.room)
    (hout : c.out.length + c.decoder.window.pending.length <
      c'.out.length + c'.decoder.window.pending.length)
    (hstage : stage c'.decoder ≤ 4) (hpos : 0 < stage c.decoder) : weight c' < weight c := by
  unfold weight
  rw [hroom]
  omega

/-- A cursor that goes on with what a rep function left. -/
theorem weight_lt_of_rep {d' : SymbolState} {rest : List Byte}
    (hpending : c.decoder.window.pending = []) (hfits : c.out.length ≤ c.room)
    (hstage : 4 ≤ stage c.decoder) (hdone : RepDone d') :
    weight { c with decoder := d', input := rest } < weight c := by
  rcases hdone with ⟨matchType, hphase⟩ | ⟨hphase, hbyte⟩ | ⟨status, hphase⟩
  · have hstage' : stage d' = 3 := by rw [stage, hphase]
    apply weight_lt
    · rfl
    · rw [hpending]
      exact Nat.le_add_right _ _
    · show stage d' < _
      omega
  · have hlen := List.length_pos_iff.mpr hbyte
    have hstage' : stage d' = 4 := by rw [stage, hphase]
    apply weight_lt_of_byte
    · rfl
    · rw [hpending]
      exact hfits
    · rw [hpending]
      exact Nat.lt_add_of_pos_right hlen
    · exact Nat.le_of_eq hstage'
    · omega
  · have hstage' : stage d' = 0 := by rw [stage, hphase]
    apply weight_lt
    · rfl
    · rw [hpending]
      exact Nat.le_add_right _ _
    · show stage d' < _
      omega

/-- A round in one of the phases of a rep match. -/
theorem Along.rep (h : Along start input owed room c) (hpending : c.decoder.window.pending = [])
    (hinit : c.decoder.rcInitialized = true) (hstage : 4 ≤ stage c.decoder)
    {r : Except Fault (Resumed History Unit)}
    (hfollows : Follows resumable c.decoder c.input afterRep r) :
    Round start input owed room c (do return c.resume (← r) fun _ c => c) := by
  have hfits : c.out.length ≤ c.room := by
    rw [h.sameRoom]
    exact h.fits
  apply h.resume hpending hinit hfollows
  rintro _ d' d'' rest out _ ⟨hflush, hdone⟩
  obtain ⟨hsettled, hout⟩ := Prod.mk.inj hflush
  refine ⟨hsettled, rfl, rfl, h.fits, ?_, weight_lt_of_rep hpending hfits hstage hdone⟩
  rw [← hout]

/-- The work on a symbol the fast path does not take. -/
def slowSymbol (d : SymbolState) (input : List Byte) : Except Fault (Resumed History Unit) := do
  match ← d.bit (offIsMatch + (d.state * kNumPosStatesMax + d.posState)) input with
  | none => return { value := none, decoder := d, input }
  | some (isMatch, d', input) =>
    if isMatch = 0 then
      let d' ← d'.startLiteralDecode
      return { value := some (), decoder := d', input }
    else d'.decodeIsRep input d.posState

/-- A literal begins, or a match is under way. -/
def afterSlow (_ : Unit) (d : SymbolState) (r : SymbolState × List Byte) : Prop :=
  flush d = r ∧ ((∃ ls, d.phase = .literal ls ∧ d.window.pending = []) ∨ RepDone d)

theorem Follows.slow {d : SymbolState} {r : Except Fault (Resumed History Unit)}
    (h : Follows resumable d input afterRep r) : Follows resumable d input afterSlow r := by
  cases h with
  | failed hrun hhalt => exact .failed hrun hhalt
  | suspended hrun hneed => exact .suspended hrun hneed
  | done hafter hrun => exact .done ⟨hafter.1, .inr hafter.2⟩ hrun

theorem slowSymbol_follows (hinit : d.rcInitialized = true) (hpending : d.window.pending = [])
    (hphase : d.phase = .newSymbol) (hreached : ¬ d.reachedUnpackSize = true) :
    Follows resumable d input afterSlow (slowSymbol d input) := by
  have hstep : SymbolState.step d input = newSymbolStep d input := by
    rw [SymbolState.step, if_pos hinit, hphase]
  unfold newSymbolStep at hstep
  rw [if_neg hreached] at hstep
  refine .ofBit rfl rfl hstep rfl ?_
  intro b rangeDecoder probs rest
  by_cases hlit : b = 0
  · simp only [if_pos hlit]
    cases hstart : LzmaDecoder.startLiteralDecode { d with rangeDecoder, probs } with
    | error f => exact .failed
    | ok d' =>
      obtain ⟨prev, _, h⟩ := Except.bind_eq_ok.mp hstart
      obtain ⟨matchByte, _, h⟩ := Except.bind_eq_ok.mp h
      obtain rfl := Except.ok.inj h
      exact .silent (.here ⟨flush_of_pending hpending, .inl ⟨_, rfl, hpending⟩⟩)
  · simp only [if_neg hlit]
    have hnext := decodeIsRep_follows (d := { d with rangeDecoder, probs }) hinit hpending
      d.posState rest
    exact .silent hnext.slow

theorem Round.mono {r : Except Fault (Option LzmaDecodeStatus × Cursor History)}
    (h : Round start input owed room c' r) (hweight : weight c' ≤ weight c) :
    Round start input owed room c r := by
  cases h with
  | next halong hinit hlt => exact .next halong hinit (Nat.lt_of_lt_of_le hlt hweight)
  | stop halong hstopped => exact .stop halong hstopped

/-- One symbol the resumable way. -/
theorem slowSymbol_round (h : Along start input owed room c)
    (hpending : c.decoder.window.pending = []) (hinit : c.decoder.rcInitialized = true)
    (hphase : c.decoder.phase = .newSymbol) (hreached : ¬ c.decoder.reachedUnpackSize = true) :
    Round start input owed room c
      (do return c.resume (← slowSymbol c.decoder c.input) fun _ c => c) := by
  have hfits : c.out.length ≤ c.room := by
    rw [h.sameRoom]
    exact h.fits
  have hstage : stage c.decoder = 4 := by rw [stage, hphase]
  apply h.resume hpending hinit (slowSymbol_follows hinit hpending hphase hreached)
  rintro _ d' d'' rest out _ ⟨hflush, hdone⟩
  obtain ⟨hsettled, hout⟩ := Prod.mk.inj hflush
  refine ⟨hsettled, rfl, rfl, h.fits, by rw [← hout], ?_⟩
  rcases hdone with ⟨ls, hliteral, hnone⟩ | hdone
  · have hstage' : stage d' = 1 := by rw [stage, hliteral]
    apply weight_lt
    · rfl
    · rw [hpending]
      exact Nat.le_add_right _ _
    · show stage d' < _
      omega
  · exact weight_lt_of_rep hpending hfits (Nat.le_of_eq hstage.symm) hdone

/-- The expected size has been decoded: the stream is finished. -/
theorem finish_round (h : Along start input owed room c) (hpending : c.decoder.window.pending = [])
    (hinit : c.decoder.rcInitialized = true) (hphase : c.decoder.phase = .newSymbol)
    (hreached : c.decoder.reachedUnpackSize = true) :
    Round start input owed room c (.ok (none, { c with
      decoder := { c.decoder with phase := .finished .finishedWithoutMark } })) := by
  have hstep : SymbolState.step c.decoder c.input =
      .move { c.decoder with phase := .finished .finishedWithoutMark } c.input [] := by
    rw [SymbolState.step, if_pos hinit, hphase]
    show newSymbolStep _ _ = _
    rw [newSymbolStep, if_pos hreached]
  have hstage : stage c.decoder = 4 := by rw [stage, hphase]
  refine .next (h.advance [] ?_ rfl ?_ ?_) hinit (weight_lt rfl (Nat.le_refl _) ?_)
  · have hnone : settled { c.decoder with phase := .finished .finishedWithoutMark } =
        { c.decoder with phase := .finished .finishedWithoutMark } :=
      settled_of_pending hpending
    rw [settled_of_pending hpending, hnone]
    exact Machine.Runs.single hstep
  · rw [h.sameRoom]
    exact h.fits
  · rw [List.append_nil]
  · rw [hstage]
    exact Nat.succ_pos 3

theorem decodeNewSymbol_round (h : Along start input owed room c)
    (hpending : c.decoder.window.pending = []) (hinit : c.decoder.rcInitialized = true)
    (hphase : c.decoder.phase = .newSymbol) :
    Round start input owed room c (decodeNewSymbol c) := by
  have hroom := h.sameRoom
  obtain ⟨c', hfast, h', hinit', hpending', hphase', hle⟩ :=
    decodeFast_along (c.room + 1) c h hinit hpending hphase (by omega)
  have hroom' := h'.sameRoom
  have hstage : stage c.decoder = 4 := by rw [stage, hphase]
  have hlen : c.out.length + c.decoder.window.pending.length ≤
      c'.out.length + c'.decoder.window.pending.length := by
    rw [hpending, hpending']
    exact hle
  unfold decodeNewSymbol
  rw [hfast]
  rcases hphase' with hphase' | ⟨status, hphase'⟩
  · have hweight : weight c' ≤ weight c := by
      have hstage' : stage c'.decoder = 4 := by rw [stage, hphase']
      unfold weight
      rw [hroom, hroom']
      omega
    refine Round.mono ?_ hweight
    have hsame : ¬ c'.decoder.phase ≠ .newSymbol := fun hne => hne hphase'
    show Round start input owed room c' (ite _ _ (ite _ _ _))
    rw [if_neg hsame]
    by_cases hreached : c'.decoder.reachedUnpackSize = true
    · rw [if_pos hreached]
      exact finish_round h' hpending' hinit' hphase' hreached
    · rw [if_neg hreached]
      have hslow := slowSymbol_round h' hpending' hinit' hphase' hreached
      refine Eq.subst (motive := Round start input owed room c') ?_ hslow
      unfold slowSymbol
      simp only [bind_assoc]
      generalize c'.decoder.bit
        (offIsMatch + (c'.decoder.state * kNumPosStatesMax + c'.decoder.posState)) c'.input = bit
      rcases bit with f | (_ | ⟨b, d, rest⟩)
      · rfl
      · rfl
      · show (ite _ _ _ : Except Fault _) >>= _ = ite _ _ _
        by_cases hlit : b = 0
        · rw [if_pos hlit, if_pos hlit]
          cases d.startLiteralDecode <;> rfl
        · rw [if_neg hlit, if_neg hlit]
  · have hne : c'.decoder.phase ≠ .newSymbol := by simp [hphase']
    show Round start input owed room c (ite _ _ (ite _ _ _))
    rw [if_pos hne]
    refine .next h' hinit' (weight_lt (hroom'.trans hroom.symm) hlen ?_)
    rw [hstage, stage, hphase']
    exact Nat.succ_pos 3

theorem literal_round (h : Along start input owed room c) (hpending : c.decoder.window.pending = [])
    (hinit : c.decoder.rcInitialized = true) {ls : LiteralState}
    (hphase : c.decoder.phase = .literal ls) :
    Round start input owed room c (do
      return c.resume (← c.decoder.continueLiteralDecode c.input (c.room - c.out.length) ls)
        fun drained c => { c with out := c.out ++ drained }) := by
  have hgood := h.good
  rw [settled_of_pending hpending] at hgood
  have hls : 1 ≤ ls.symbol := by
    have hliteral := hgood.phase
    rw [hphase] at hliteral
    exact hliteral.2.2.symbol_pos
  have hsame : { c.decoder with phase := .literal ls } = c.decoder := by rw [← hphase]
  have hroom := h.sameRoom
  have hfits := h.fits
  have hstage : stage c.decoder = 1 := by rw [stage, hphase]
  have hfollows := continueLiteralDecode_follows (d := c.decoder) hinit hpending
    (c.room - c.out.length) hls c.input
  rw [hsame] at hfollows
  apply h.resume hpending hinit hfollows
  rintro drained d' d'' rest out _ ⟨hflush, hphase', hone, hdrained⟩
  obtain ⟨hsettled, hout⟩ := Prod.mk.inj hflush
  have hlen : drained.length + d'.window.pending.length = 1 := by
    have hlen := congrArg List.length hout
    rw [List.length_append] at hlen
    exact hlen.trans hone
  refine ⟨hsettled, rfl, rfl, ?_, ?_, ?_⟩
  · show (c.out ++ drained).length ≤ room
    rw [List.length_append]
    omega
  · show c.out ++ drained ++ d'.window.pending = c.out ++ out
    rw [List.append_assoc, ← hout]
    rfl
  · have hstage' : stage d' = 4 := by rw [stage, hphase']
    apply weight_lt_of_byte
    · rfl
    · rw [hpending, List.length_nil]
      omega
    · show _ < (c.out ++ drained).length + d'.window.pending.length
      rw [hpending, List.length_append, List.length_nil]
      omega
    · exact Nat.le_of_eq hstage'
    · omega

/-- A match to be copied has a byte at least. -/
theorem stage_startCopyMatch (dist : UInt32) {len : Nat} (hfits : Fits d 1) (hlen : 0 < len) :
    stage (d.startCopyMatch dist len) = 1 := by
  obtain ⟨hpos, _, _⟩ := actualLen_fits hfits hlen
  obtain ⟨n, hn⟩ : ∃ n, d.actualLen len = n + 1 := ⟨d.actualLen len - 1, by omega⟩
  rw [stage, startCopyMatch, hn]

theorem stage_afterLength {matchType : MatchType} {len : Nat} (hfits : Fits d 1) :
    stage (d.afterLength matchType len) ≤ 2 := by
  have hcopy : stage (d.startCopyMatch d.reps.r0 (len + kMatchMinLen)) ≤ 2 := by
    have hone := stage_startCopyMatch d.reps.r0 hfits (Nat.succ_pos (len + 1))
    exact Nat.le_trans (Nat.le_of_eq hone) (Nat.le_succ 1)
  cases matchType with
  | simple => exact Nat.le_refl 2
  | rep0 => exact hcopy
  | rep1 => exact hcopy
  | rep2 => exact hcopy
  | rep3 => exact hcopy

theorem stage_afterDistance {len : Nat} {dist : UInt32} (hfits : Fits d 1) (hlen : 0 < len) :
    stage (d.afterDistance len dist) ≤ 1 := by
  unfold LzmaDecoder.afterDistance
  split
  · exact Nat.zero_le 1
  · split
    · exact Nat.zero_le 1
    · exact Nat.le_of_eq (stage_startCopyMatch dist hfits hlen)

/-- A round that leaves the state `f a d'` for the value `a` of a function that decodes bits. -/
theorem Along.state (h : Along start input owed room c) (hpending : c.decoder.window.pending = [])
    (hinit : c.decoder.rcInitialized = true) {α : Type} {f : α → SymbolState → SymbolState}
    {r : Except Fault (Resumed History α)} {n : Nat} (hn : n < stage c.decoder)
    (hstage : ∀ a d', Fits d' 1 → stage (f a d') ≤ n)
    (hfollows : Follows resumable c.decoder c.input
      (fun a d' r => (f a d', []) = r ∧ Fits d' 1) r) :
    Round start input owed room c (do
      return c.resume (← r) fun a c => { c with decoder := f a c.decoder }) := by
  apply h.resume hpending hinit hfollows
  rintro a d' d'' rest out hgood ⟨hpair, hfits⟩
  obtain ⟨hd'', hout⟩ := Prod.mk.inj hpair
  have hnone : (f a d').window.pending = [] := by
    rw [hd'']
    exact hgood.core.pending
  refine ⟨?_, rfl, rfl, h.fits, ?_, ?_⟩
  · show settled (f a d') = d''
    rw [settled_of_pending hnone, hd'']
  · show c.out ++ (f a d').window.pending = c.out ++ out
    rw [hnone, ← hout]
  · apply weight_lt
    · rfl
    · rw [hpending]
      exact Nat.le_add_right _ _
    · exact Nat.lt_of_le_of_lt (hstage a d' hfits) hn

theorem matchLength_round (h : Along start input owed room c)
    (hpending : c.decoder.window.pending = []) (hinit : c.decoder.rcInitialized = true)
    {matchType : MatchType} (hphase : c.decoder.phase = .matchLength matchType) :
    Round start input owed room c (do
      return c.resume (← c.decoder.decodeLength c.input)
        fun len c => { c with decoder := c.decoder.afterLength matchType len }) := by
  have hgood := h.good.phase
  rw [settled_of_pending hpending, hphase] at hgood
  obtain ⟨_, hfits, lds, hlds, _⟩ := hgood
  have hstage : stage c.decoder = 3 := by rw [stage, hphase]
  exact h.state (f := fun len d => d.afterLength matchType len) hpending hinit (n := 2) (by omega)
    (fun _ _ hfits' => stage_afterLength hfits')
    (decodeLength_follows hinit hphase hlds hfits)

theorem matchDistance_round (h : Along start input owed room c)
    (hpending : c.decoder.window.pending = []) (hinit : c.decoder.rcInitialized = true)
    {len lenState : Nat} (hphase : c.decoder.phase = .matchDistance len lenState) :
    Round start input owed room c (do
      return c.resume (← c.decoder.decodeDistance c.input)
        fun dist c => { c with decoder := c.decoder.afterDistance len dist }) := by
  have hgood := h.good.phase
  rw [settled_of_pending hpending, hphase] at hgood
  obtain ⟨_, hfits, hlen, _, dds, hdds, _⟩ := hgood
  have hstage : stage c.decoder = 2 := by rw [stage, hphase]
  exact h.state (f := fun dist d => d.afterDistance len dist) hpending hinit (n := 1) (by omega)
    (fun _ _ hfits' => stage_afterDistance hfits' (by omega))
    (decodeDistance_follows hinit hphase hdds hfits)

/-- Bytes copied within the dictionary are the machine's. -/
theorem copyBytes_runs (hinit : d.rcInitialized = true) {dist : UInt32} (m : Nat) :
    ∀ n (w : History) k input, dist.toNat < w.size → ∃ w' bs, copyBytes (dist.toNat + 1) n w = .ok w' ∧
      bs.length = n ∧ w'.pending = w.pending ++ bs ∧
      symbolMachine.Runs
        { d with window := w.flushed, decodedSize := k, phase := .copyMatch dist (n + m) } input bs
        { d with window := w'.flushed, decodedSize := k + n, phase := .copyMatch dist m } input := by
  intro n
  induction n with
  | zero =>
    intro w k input _
    refine ⟨w, [], rfl, rfl, by rw [List.append_nil], ?_⟩
    rw [Nat.zero_add]
    exact Machine.Runs.refl _ _
  | succ n ih =>
    intro w k input hdist
    obtain ⟨b, hbyte⟩ := History.getByte_ok (w := w) (Nat.succ_pos dist.toNat) hdist
    obtain ⟨w', bs, hcopy, hlen, hpending, hrun⟩ := ih (w.putByte b) (k + 1) input hdist
    refine ⟨w', b :: bs, ?_, by rw [List.length_cons, hlen], ?_, ?_⟩
    · rw [copyBytes]
      show (w.getByte (dist.toNat + 1) >>= _) = _
      rw [hbyte]
      exact hcopy
    · rw [hpending, History.putByte_pending, List.append_assoc]
      rfl
    · rw [Nat.add_assoc, Nat.add_comm 1 n] at hrun
      have hstep : SymbolState.step
          { d with
            window := w.flushed, decodedSize := k, phase := .copyMatch dist (n + 1 + m) } input =
          .move { d with
            window := (w.putByte b).flushed, decodedSize := k + 1, phase := .copyMatch dist (n + m) }
            input [b] := by
        rw [SymbolState.step, if_pos hinit, Nat.succ_add]
        have hread : LzmaWindow.getByte w.flushed (dist.toNat + 1) = .ok b :=
          (History.getByte_flushed w (dist.toNat + 1)).trans hbyte
        simp only [copyStep, hread]
        rfl
      exact Machine.Runs.step hstep hrun

theorem copyMatch_round (h : Along start input owed room c)
    (hpending : c.decoder.window.pending = []) (hinit : c.decoder.rcInitialized = true)
    {dist : UInt32} {remaining : Nat} (hphase : c.decoder.phase = .copyMatch dist remaining) :
    Round start input owed room c (decodeCopyMatch c dist remaining) := by
  have hgood := h.good
  have hsettled := settled_of_pending hpending
  rw [hsettled] at hgood
  have hroom := h.sameRoom
  have hfits := h.fits
  have hdist : dist.toNat < c.decoder.window.size := by
    have hcopy := hgood.phase
    rw [hphase] at hcopy
    rw [hgood.core.size]
    exact hcopy.2.2
  obtain ⟨toCopy, htoCopy⟩ : ∃ n, n = min remaining (c.room - c.out.length) := ⟨_, rfl⟩
  obtain ⟨w', bs, hcopy, hlen, hpending', hrun⟩ := copyBytes_runs (d := c.decoder)
    hinit (remaining - toCopy) toCopy c.decoder.window c.decoder.decodedSize c.input hdist
  have hsplit : toCopy + (remaining - toCopy) = remaining := by omega
  have hflushed := History.flushed_of_pending hpending
  have hsame : { c.decoder with phase := .copyMatch dist remaining } = c.decoder := by rw [← hphase]
  rw [hsplit, hflushed, hsame] at hrun
  rw [hpending, List.nil_append] at hpending'
  have hdrained : w'.pending.take (c.room - c.out.length) = bs := by
    rw [hpending']
    exact List.take_of_length_le (by omega)
  have hleft : w'.pending.drop (c.room - c.out.length) = [] := by
    rw [hpending']
    exact List.drop_eq_nil_of_le (by omega)
  -- Both branches leave the cursor here, but for the phase.
  have hnext : ∀ (d' : SymbolState), d'.window = { w' with pending := [] } → ∀ out,
      symbolMachine.Runs c.decoder c.input (bs ++ out) d' c.input → out = [] →
      Along start input owed room { c with decoder := d', out := c.out ++ bs } := by
    intro d' hwindow out hrun' hout
    have hnone : d'.window.pending = [] := by rw [hwindow]
    refine h.advance (bs ++ out) ?_ rfl ?_ ?_
    · rw [hsettled, settled_of_pending hnone]
      exact hrun'
    · show (c.out ++ bs).length ≤ c.room
      rw [List.length_append]
      omega
    · show _ = c.out ++ bs ++ d'.window.pending
      rw [hpending, hnone, hout, List.append_nil, List.append_nil, List.append_nil]
  unfold decodeCopyMatch
  rw [← htoCopy]
  show Round start input owed room c (copyBytes (dist.toNat + 1) toCopy c.decoder.window >>= _)
  rw [hcopy]
  show Round start input owed room c (ite _ _ _)
  unfold Cursor.drain
  show Round start input owed room c (ite _
    (.ok (some .continue, { c with
      decoder := { c.decoder with
        window := { w' with pending := w'.pending.drop (c.room - c.out.length) }
        decodedSize := c.decoder.decodedSize + toCopy
        phase := .copyMatch dist (remaining - toCopy) }
      out := c.out ++ w'.pending.take (c.room - c.out.length) }))
    (.ok (none, { c with
      decoder := { c.decoder with
        window := { w' with pending := w'.pending.drop (c.room - c.out.length) }
        decodedSize := c.decoder.decodedSize + toCopy
        phase := .newSymbol }
      out := c.out ++ w'.pending.take (c.room - c.out.length) })))
  rw [hdrained, hleft]
  by_cases hmore : 0 < remaining - toCopy
  · rw [if_pos hmore]
    refine .stop (hnext _ rfl [] ?_ rfl) (.full ?_)
    · rw [List.append_nil]
      exact hrun
    · show (c.out ++ bs).length = room
      rw [List.length_append]
      omega
  · rw [if_neg hmore]
    have hall : remaining - toCopy = 0 := by omega
    rw [hall] at hrun
    have hlast : SymbolState.step
        { c.decoder with
          window := w'.flushed
          decodedSize := c.decoder.decodedSize + toCopy
          phase := .copyMatch dist 0 } c.input =
        .move { c.decoder with
          window := w'.flushed
          decodedSize := c.decoder.decodedSize + toCopy
          phase := .newSymbol } c.input [] := if_pos hinit
    refine .next (hnext _ rfl [] (hrun.trans (Machine.Runs.single hlast)) rfl) hinit ?_
    cases hremaining : remaining with
    | zero =>
      have hstage : stage c.decoder = 5 := by rw [stage, hphase, hremaining]
      apply weight_lt
      · rfl
      · show _ ≤ (c.out ++ bs).length + 0
        rw [hpending, List.length_append, List.length_nil]
        omega
      · rw [hstage]
        exact Nat.lt_succ_self 4
    | succ n =>
      have hstage : stage c.decoder = 1 := by rw [stage, hphase, hremaining]
      apply weight_lt_of_byte
      · rfl
      · rw [hpending, List.length_nil]
        omega
      · show _ < (c.out ++ bs).length + 0
        rw [hpending, List.length_append, List.length_nil]
        omega
      · exact Nat.le_refl 4
      · omega

/-- A round in any phase, once nothing is pending. -/
theorem decodePhase_round (h : Along start input owed room c)
    (hpending : c.decoder.window.pending = []) (hinit : c.decoder.rcInitialized = true) :
    Round start input owed room c (decodePhase c) := by
  have hgood := h.good
  rw [settled_of_pending hpending] at hgood
  have hrep : ∀ {r : Except Fault (Resumed History Unit)} {d : SymbolState}, d = c.decoder →
      stage c.decoder = 5 → Follows resumable d c.input afterRep r →
      Round start input owed room c (do return c.resume (← r) fun _ c => c) := by
    intro r d hd hstage hfollows
    rw [hd] at hfollows
    exact h.rep hpending hinit (by omega) hfollows
  have hsame : ∀ phase, c.decoder.phase = phase → { c.decoder with phase } = c.decoder := by
    intro phase hphase
    rw [← hphase]
  unfold decodePhase
  simp only
  cases hphase : c.decoder.phase with
  | finished status =>
    have hends : Ends status := by
      have hfinished := hgood.phase
      rw [hphase] at hfinished
      exact hfinished.2
    refine .stop h (.ended hends hpending ?_)
    rw [settled_of_pending hpending, SymbolState.step, if_pos hinit, hphase]
  | copyMatch dist remaining => exact copyMatch_round h hpending hinit hphase
  | newSymbol => exact decodeNewSymbol_round h hpending hinit hphase
  | needIsRep posState =>
    exact hrep (hsame _ hphase) (by rw [stage, hphase]) (decodeIsRep_follows hinit hpending posState _)
  | needRepG0 posState =>
    exact hrep (hsame _ hphase) (by rw [stage, hphase]) (decodeRepType_follows hinit hpending posState _)
  | needRep0Long posState =>
    exact hrep (hsame _ hphase) (by rw [stage, hphase]) (decodeRep0Long_follows hinit hpending posState _)
  | needRepG1 posState =>
    exact hrep (hsame _ hphase) (by rw [stage, hphase]) (decodeRepG1_follows hinit hpending posState _)
  | needRepG2 posState =>
    exact hrep (hsame _ hphase) (by rw [stage, hphase]) (decodeRepG2_follows hinit hpending posState _)
  | literal ls => exact literal_round h hpending hinit hphase
  | matchLength matchType => exact matchLength_round h hpending hinit hphase
  | matchDistance len lenState => exact matchDistance_round h hpending hinit hphase

/-- Draining changes nothing of the weight. -/
theorem weight_drain (h : Along start input owed room c) : weight c.drain = weight c := by
  have hsum := h.drain.2.2.2.1
  have hroom : c.drain.room = c.room := rfl
  have hstage : stage c.drain.decoder = stage c.decoder := rfl
  unfold weight
  rw [hroom, hstage]
  omega

theorem decodeOnce_round (h : Along start input owed room c)
    (hinit : c.decoder.rcInitialized = true) : Round start input owed room c (decodeOnce c) := by
  obtain ⟨hdrained, _, _, hsum, hfull⟩ := h.drain
  unfold decodeOnce
  show Round start input owed room c (if 0 < c.decoder.window.pending.length then
    (if 0 < c.drain.decoder.window.pending.length ∨ c.drain.room ≤ c.drain.out.length then _ else _)
    else _)
  by_cases hpending : 0 < c.decoder.window.pending.length
  · rw [if_pos hpending]
    by_cases hleft : 0 < c.drain.decoder.window.pending.length ∨ c.drain.room ≤ c.drain.out.length
    · rw [if_pos hleft]
      refine .stop hdrained (.full ?_)
      have hroom := hdrained.sameRoom
      have hfits := hdrained.fits
      rcases hleft with hleft | hleft
      · exact hfull.resolve_left (List.length_pos_iff.mp hleft)
      · omega
    · rw [if_neg hleft]
      have hnone : c.drain.decoder.window.pending = [] :=
        List.length_eq_zero_iff.mp (by omega)
      exact (decodePhase_round hdrained hnone hinit).mono (Nat.le_of_eq (weight_drain h))
  · rw [if_neg hpending]
    exact decodePhase_round h (List.length_eq_zero_iff.mp (by omega)) hinit

/-- The loop stops, and says where the machine stands. -/
theorem decodeLoop_stops :
    ∀ fuel (c : Cursor History), Along start input owed room c → c.decoder.rcInitialized = true →
      weight c < fuel → ∃ status c', decodeLoop fuel c = .ok (status, c') ∧
        Along start input owed room c' ∧ Stopped room c' status := by
  intro fuel
  induction fuel with
  | zero => intro c _ _ hfuel; exact absurd hfuel (Nat.not_lt_zero _)
  | succ fuel ih =>
    intro c h hinit hfuel
    have hround := decodeOnce_round h hinit
    rw [decodeLoop]
    generalize decodeOnce c = answer at hround
    cases hround with
    | @next c' h' hinit' hlt =>
      obtain ⟨status, c'', hloop, halong, hstopped⟩ := ih c' h' hinit' (by omega)
      exact ⟨status, c'', hloop, halong, hstopped⟩
    | @stop c' status h' hstopped => exact ⟨status, c', rfl, h', hstopped⟩

theorem stage_le (d : SymbolState) : stage d ≤ 5 := by
  unfold stage
  split <;> omega

/-- The bytes of the initialization are taken one by one. -/
theorem init_runs :
    ∀ (input : List Byte) (d : SymbolState), d.rcInitialized = false →
      d.rangeDecoder.initBuf.length < 5 →
      symbolMachine.Runs d input []
        { d with
          rangeDecoder := (d.rangeDecoder.init input).2.1
          rcInitialized := (d.rangeDecoder.init input).1 } (d.rangeDecoder.init input).2.2 ∧
      ((d.rangeDecoder.init input).1 = false → (d.rangeDecoder.init input).2.2 = []) := by
  intro input
  induction input with
  | nil =>
    intro d hinit hshort
    have hnil : d.rangeDecoder.init [] = (false, d.rangeDecoder, []) := by
      unfold RangeDecoder.init
      simp only [List.length_nil, Nat.min_zero, List.take_nil, List.append_nil, List.drop_nil]
      rw [if_pos hshort]
    rw [hnil, ← hinit]
    exact ⟨Machine.Runs.refl _ _, fun _ => rfl⟩
  | cons b rest ih =>
    intro d hinit hshort
    have hstep : SymbolState.step d (b :: rest) = .move
        { d with
          rangeDecoder := (d.rangeDecoder.init [b]).2.1
          rcInitialized := (d.rangeDecoder.init [b]).1 } rest [] := by
      rw [SymbolState.step, if_neg (by simp [hinit])]
      rfl
    rw [RangeDecoder.init_cons hshort]
    by_cases hlast : (d.rangeDecoder.init [b]).1 = true
    · rw [if_pos hlast]
      rw [hlast] at hstep
      exact ⟨Machine.Runs.single hstep, fun hmore => absurd hmore (by simp)⟩
    · rw [if_neg hlast]
      have hmore : (d.rangeDecoder.init [b]).1 = false := by simpa using hlast
      obtain ⟨hrun, hnil⟩ := ih
        { d with
          rangeDecoder := (d.rangeDecoder.init [b]).2.1
          rcInitialized := (d.rangeDecoder.init [b]).1 } hmore (RangeDecoder.init_one_length hmore)
      exact ⟨(Machine.Runs.single hstep).trans hrun, hnil⟩

/-- The cursor a call starts with. -/
theorem along_start (hgood : Good (settled d)) :
    Along (settled d) input d.window.pending room { decoder := d, input, out := [], room } where
  good := hgood
  sameRoom := rfl
  fits := Nat.zero_le _
  run := ⟨[], Machine.Runs.refl _ _, by rw [List.append_nil, List.nil_append]⟩

/-- What a call has consumed is what its cursor has passed. -/
theorem Along.consumed (h : Along start input owed room c) (hgood : Good start) :
    input.length - c.input.length ≤ input.length ∧
      input.drop (input.length - c.input.length) = c.input := by
  obtain ⟨out, hrun, _⟩ := h.run
  obtain ⟨taken, htaken⟩ := hrun.suffix hgood
  refine ⟨Nat.sub_le _ _, ?_⟩
  rw [← htaken, List.length_append, Nat.add_sub_cancel, List.drop_left]

/-- What a decode call does: it goes along the machine, and stops as it says. -/
structure Decoded (d : SymbolState) (input : List Byte) (room : Nat) (r : LzmaDecodeResult)
    (d' : SymbolState) : Prop where
  consumed : r.bytesConsumed ≤ input.length
  along : Along (settled d) input d.window.pending room
    { decoder := d', input := input.drop r.bytesConsumed, out := r.produced, room }
  stopped : Stopped room
    { decoder := d', input := input.drop r.bytesConsumed, out := r.produced, room } r.status

theorem Along.decoded (h : Along (settled d) input d.window.pending room c)
    (hgood : Good (settled d)) {status : LzmaDecodeStatus} (hstopped : Stopped room c status) :
    Decoded d input room
      { bytesConsumed := input.length - c.input.length, produced := c.out, status } c.decoder := by
  obtain ⟨hle, hdrop⟩ := h.consumed hgood
  have hroom := h.sameRoom
  obtain ⟨decoder, rest, out, room'⟩ := c
  obtain rfl : room' = room := hroom
  refine ⟨hle, ?_, ?_⟩
  · rw [hdrop]
    exact h
  · rw [hdrop]
    exact hstopped

/-- A call that returns once it has drained what it could. -/
theorem drained_stopped (h : Along start input owed room c)
    (hfull : 0 < c.decoder.window.pending.length ∨ room ≤ c.out.length)
    (hdrained : c.decoder.window.pending = [] ∨ c.out.length = room) :
    Stopped room c c.drainedStatus := by
  have hgood := h.good
  have hroom : c.out.length = room := by
    have hfits := h.fits
    rcases hfull with hleft | hfull
    · exact hdrained.resolve_left (List.length_pos_iff.mp hleft)
    · omega
  unfold Cursor.drainedStatus
  split
  · rename_i status hphase
    split
    · rename_i hnone
      have hnone : c.decoder.window.pending = [] := List.length_eq_zero_iff.mp hnone
      have hsettled := settled_of_pending hnone
      rw [hsettled] at hgood
      have hends : Ends status := by
        have hfinished := hgood.phase
        rw [hphase] at hfinished
        exact hfinished.2
      have hinit : c.decoder.rcInitialized = true := by
        cases hinit : c.decoder.rcInitialized with
        | true => rfl
        | false => exact absurd (hphase.symm.trans (hgood.starting hinit).2) (by simp)
      refine .ended hends hnone ?_
      rw [hsettled, SymbolState.step, if_pos hinit, hphase]
    · exact .full hroom
  · exact .full hroom

/-- The initialization takes its bytes, and stops the call where there are too few. -/
theorem initRange_spec (h : Along start input owed room c) (hpending : c.decoder.window.pending = []) :
    Along start input owed room c.initRange.2 ∧
      (c.initRange.1 = true → c.initRange.2.decoder.rcInitialized = true) ∧
      (c.initRange.1 = false → Stopped room c.initRange.2 .needInput) := by
  have hgood := h.good
  have hsettled := settled_of_pending hpending
  rw [hsettled] at hgood
  unfold Cursor.initRange
  by_cases hinit : c.decoder.rcInitialized = true
  · rw [if_pos hinit]
    exact ⟨h, fun _ => hinit, fun hfalse => absurd hfalse (by simp)⟩
  · rw [if_neg hinit]
    have hinit : c.decoder.rcInitialized = false := by simpa using hinit
    obtain ⟨hrun, hnil⟩ := init_runs c.input c.decoder hinit (hgood.starting hinit).1
    refine ⟨h.advance [] ?_ rfl ?_ ?_, fun hok => hok, fun hmore => ?_⟩
    · rw [hsettled]
      show symbolMachine.Runs _ _ _ (settled { c.decoder with
        rangeDecoder := (c.decoder.rangeDecoder.init c.input).2.1
        rcInitialized := (c.decoder.rangeDecoder.init c.input).1 }) _
      rw [settled_of_pending (by exact hpending)]
      exact hrun
    · show c.out.length ≤ c.room
      rw [h.sameRoom]
      exact h.fits
    · rw [List.append_nil]
    · refine .needInput (hnil hmore) hpending ?_
      show SymbolState.step (settled { c.decoder with
        rangeDecoder := (c.decoder.rangeDecoder.init c.input).2.1
        rcInitialized := (c.decoder.rangeDecoder.init c.input).1 }) [] = .need
      have hmore : (c.decoder.rangeDecoder.init c.input).1 = false := hmore
      rw [settled_of_pending (by exact hpending), hmore]
      rfl

theorem decodeFrom_stops (h : Along start input owed room c)
    (hpending : c.decoder.window.pending = []) :
    ∃ status c', decodeFrom c = .ok (status, c') ∧ Along start input owed room c' ∧
      Stopped room c' status := by
  obtain ⟨halong, hinit, hstopped⟩ := initRange_spec h hpending
  unfold decodeFrom
  generalize c.initRange = initialized at halong hinit hstopped
  obtain ⟨ok, c'⟩ := initialized
  cases ok with
  | false => exact ⟨_, c', rfl, halong, hstopped rfl⟩
  | true =>
    apply decodeLoop_stops _ c' halong (hinit rfl)
    have hstage := stage_le c'.decoder
    unfold weight decodeFuel
    omega

/-- A call on a good decoder, with whatever pending, does not fail. -/
theorem decode_spec (hgood : Good (settled d)) (input : List Byte) (room : Nat) :
    ∃ r d', decode d input room = .ok (r, d') ∧ Decoded d input room r d' := by
  have hstart : Along (settled d) input d.window.pending room
      { decoder := d, input, out := [], room } := along_start hgood
  have hgoes : ∀ c : Cursor History, Along (settled d) input d.window.pending room c →
      c.decoder.window.pending = [] → ∃ r d',
        (do
          let r ← decodeFrom c
          return r.2.finish input r.1 : Except Fault _) = .ok (r, d') ∧
        Decoded d input room r d' := by
    intro c halong hpending
    obtain ⟨status, c', hfrom, halong', hstopped⟩ := decodeFrom_stops halong hpending
    rw [hfrom]
    exact ⟨_, _, rfl, halong'.decoded hgood hstopped⟩
  unfold decode
  simp only
  by_cases hpending : 0 < pendingLen d.window
  · rw [if_pos hpending]
    obtain ⟨hdrained, _, _, _, hfull⟩ := hstart.drain
    generalize Cursor.drain { decoder := d, input, out := [], room } = c at hdrained hfull
    by_cases hleft : 0 < pendingLen c.decoder.window ∨ room ≤ c.out.length
    · rw [if_pos ⟨hpending, hleft⟩]
      exact ⟨_, _, rfl, hdrained.decoded hgood (drained_stopped hdrained hleft hfull)⟩
    · rw [if_neg fun h => hleft h.2]
      have hnone : c.decoder.window.pending.length = 0 := by
        have : ¬ 0 < c.decoder.window.pending.length := fun h => hleft (.inl h)
        omega
      exact hgoes c hdrained (List.length_eq_zero_iff.mp hnone)
  · rw [if_neg hpending, if_neg fun h => hpending h.1]
    have hnone : d.window.pending.length = 0 := by
      have : ¬ 0 < d.window.pending.length := hpending
      omega
    exact hgoes _ hstart (List.length_eq_zero_iff.mp hnone)

end SymbolState
end Iluvatar
