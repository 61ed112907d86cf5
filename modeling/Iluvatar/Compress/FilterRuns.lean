/-
The filter stage fed in pieces: what it still owes is the conversion of what it holds and of the
input to come.
-/
import Iluvatar.Compress.FilterStage
import Iluvatar.Compress.FilterX86Runs
import Iluvatar.Compress.Stage

namespace Iluvatar

open Sansio Iluvatar.Filter

variable {σ : Type}

/-- A converter's position after a scan. -/
theorem Filter.positional_state {width : Nat} {word : UInt32 → List Byte → List Byte}
    {moves : ∀ pc w, w.length = width → 0 < (word pc w).length ∧ (word pc w).length ≤ width}
    (pc : UInt32) (data : List Byte) : ((positional width word moves).run pc data).state =
      pc + UInt32.ofNat ((positional width word moves).run pc data).done.length := by
  induction pc, data using (positional width word moves).scan_induction with
  | short pc data hshort =>
    rw [(positional width word moves).run_short hshort]
    exact (UInt32.add_zero _).symm
  | step pc data hlong ih =>
    rw [(positional width word moves).run_step hlong]
    simp only
    rw [ih, List.length_append, UInt32.ofNat_add, ← UInt32.add_assoc]
    rfl

namespace FilterState

/-- The states of a filter follow a scanner.  `Rep` relates them, at a position and with the raw
input held there. -/
structure Follows (S : Scanner σ Byte) (Rep : FilterState → UInt32 → σ → List Byte → Prop) : Prop where
  narrow : S.width ≤ 16
  more : ∀ {st now s raw} more, Rep st now s raw → Rep st now s (raw ++ more)
  convert : ∀ {st now s data}, Rep st now s data → data.length ≤ 2 ^ 17 →
    ∃ st', st.convert data now = .ok
        { done := (S.run s data).done, rest := (S.run s data).rest, state := st' } ∧
      Rep st' (now + UInt32.ofNat (S.run s data).done.length) (S.run s data).state (S.run s data).rest

end FilterState

namespace FilterDecompressor

open FilterState

variable {S : Scanner σ Byte} {Rep : FilterState → UInt32 → σ → List Byte → Prop} {d : FilterDecompressor} {s : σ}

/-- The held input that is not converted. -/
def raw (d : FilterDecompressor) : List Byte := d.buf.drop d.filtered

/-- A stage under way. -/
structure Holds (S : Scanner σ Byte) (Rep : FilterState → UInt32 → σ → List Byte → Prop)
    (d : FilterDecompressor) (s : σ) : Prop where
  within : d.filtered ≤ d.buf.length
  short : d.raw.length < S.width
  rep : d.finished = false → Rep d.state (UInt32.ofNat (d.pos + d.filtered)) s d.raw
  ended : d.finished = true → d.filtered = d.buf.length

/-- What the stage will write, of what it holds and of the input to come. -/
def promise (S : Scanner σ Byte) (d : FilterDecompressor) (s : σ) (input : List Byte) : List Byte :=
  d.buf.take d.filtered ++ if d.finished then [] else S.convert s (d.raw ++ input)

theorem emit_raw (d : FilterDecompressor) (room : Nat) : (d.emit room).2.raw = d.raw := by
  show (d.buf.drop (min d.filtered room)).drop (d.filtered - min d.filtered room) = d.buf.drop d.filtered
  rw [List.drop_drop]
  exact congrArg (List.drop · d.buf) (by omega)

theorem emit_holds (h : Holds S Rep d s) (room : Nat) : Holds S Rep (d.emit room).2 s where
  within := by
    show d.filtered - min d.filtered room ≤ (d.buf.drop (min d.filtered room)).length
    have := h.within
    rw [List.length_drop]
    omega
  short := by
    rw [emit_raw d]
    exact h.short
  rep := fun hf => by
    have hrep := h.rep hf
    rw [emit_raw d]
    have hpos : d.pos + min d.filtered room + (d.filtered - min d.filtered room) = d.pos + d.filtered := by omega
    show Rep d.state (UInt32.ofNat (d.pos + min d.filtered room + (d.filtered - min d.filtered room))) s d.raw
    rw [hpos]
    exact hrep
  ended := fun hf => by
    have hall := h.ended hf
    show d.filtered - min d.filtered room = (d.buf.drop (min d.filtered room)).length
    rw [List.length_drop, hall]

theorem emit_length (h : d.filtered ≤ d.buf.length) (room : Nat) :
    (d.emit room).1.length = min d.filtered room := by
  show (d.buf.take (min d.filtered room)).length = _
  rw [List.length_take]
  omega

/-- What is emitted is the first of what was owed. -/
theorem emit_promise (S : Scanner σ Byte) (d : FilterDecompressor) (s : σ) (room : Nat) (input : List Byte) :
    promise S d s input = (d.emit room).1 ++ promise S (d.emit room).2 s input := by
  have hsplit : d.buf.take d.filtered = d.buf.take (min d.filtered room) ++
      (d.buf.drop (min d.filtered room)).take (d.filtered - min d.filtered room) := by
    rw [← List.take_add]
    exact congrArg (List.take · d.buf) (by omega)
  unfold promise
  rw [emit_raw d, hsplit, List.append_assoc]
  rfl

/-- Input taken: the stage owes the same of what follows. -/
theorem take_holds (hF : Follows S Rep) (h : Holds S Rep d s) (hempty : d.filtered = 0)
    (hunfinished : d.finished = false) {input : List Byte} (hinput : input.length ≤ filterChunk) :
    ∃ d' s', ({ d with buf := d.buf ++ input } : FilterDecompressor).run false = .ok d' ∧ Holds S Rep d' s' ∧
      d'.finished = false ∧ ∀ more, promise S d s (input ++ more) = promise S d' s' more := by
  have hraw : d.raw = d.buf := by
    unfold raw
    rw [hempty]
    rfl
  have hrep := hF.more input (h.rep hunfinished)
  have hshort := h.short
  have hnarrow := hF.narrow
  rw [hraw] at hrep hshort
  have hlength : (d.buf ++ input).length ≤ 2 ^ 17 := by
    rw [List.length_append]
    unfold filterChunk at hinput
    omega
  obtain ⟨st', hconvert, hrep'⟩ := hF.convert hrep hlength
  obtain ⟨hrest, hrestShort⟩ := S.run_rest s (d.buf ++ input)
  refine ⟨{ d with
      state := st'
      buf := (S.run s (d.buf ++ input)).done ++ (S.run s (d.buf ++ input)).rest
      filtered := (S.run s (d.buf ++ input)).done.length }, (S.run s (d.buf ++ input)).state, ?_, ?_, hunfinished, ?_⟩
  · unfold run
    simp only [hempty, List.drop_zero, List.take_zero, List.nil_append, Nat.zero_add]
    rw [hempty] at hconvert
    rw [hconvert]
    rfl
  · have hdrop : ((S.run s (d.buf ++ input)).done ++ (S.run s (d.buf ++ input)).rest).drop
        (S.run s (d.buf ++ input)).done.length = (S.run s (d.buf ++ input)).rest := List.drop_left
    refine ⟨?_, ?_, fun _ => ?_, fun hf => ?_⟩
    · rw [List.length_append]
      exact Nat.le_add_right _ _
    · show (((S.run s (d.buf ++ input)).done ++ (S.run s (d.buf ++ input)).rest).drop _).length < S.width
      rw [hdrop]
      exact hrestShort
    · show Rep st' _ _ (((S.run s (d.buf ++ input)).done ++ (S.run s (d.buf ++ input)).rest).drop _)
      rw [hdrop, UInt32.ofNat_add]
      rw [hempty, Nat.add_zero] at hrep'
      exact hrep'
    · rw [hunfinished] at hf
      cases hf
  · intro more
    unfold promise
    simp only [hunfinished, Bool.false_eq_true, if_false]
    rw [hraw, hempty, List.take_zero, List.nil_append, ← List.append_assoc, S.convert_append, List.take_left]
    unfold raw
    rw [List.drop_left]

/-- No more input: what is held is owed as it is. -/
theorem finish_holds (hF : Follows S Rep) (h : Holds S Rep d s) (hempty : d.filtered = 0)
    (hunfinished : d.finished = false) :
    ∃ d', d.run true = .ok d' ∧ Holds S Rep { d' with finished := true } s ∧
      promise S d s [] = promise S { d' with finished := true } s [] := by
  have hraw : d.raw = d.buf := by
    unfold raw
    rw [hempty]
    rfl
  have hrep := h.rep hunfinished
  have hshort := h.short
  have hnarrow := hF.narrow
  rw [hraw] at hrep hshort
  obtain ⟨st', hconvert, _⟩ := hF.convert hrep (by omega)
  rw [S.run_short hshort] at hconvert
  refine ⟨{ d with state := st', buf := d.buf, filtered := d.buf.length }, ?_, ?_, ?_⟩
  · unfold run
    simp only [hempty, List.drop_zero, List.take_zero, List.nil_append]
    rw [hempty] at hconvert
    rw [hconvert]
    rfl
  · refine ⟨Nat.le_refl _, ?_, fun hf => Bool.noConfusion hf, fun _ => rfl⟩
    show (d.buf.drop d.buf.length).length < S.width
    rw [List.length_drop, Nat.sub_self]
    exact S.width_pos s
  · unfold promise
    simp only [hunfinished, Bool.false_eq_true, if_false, if_true]
    rw [hraw, hempty, List.append_nil, List.take_zero, List.nil_append, S.convert_short hshort, List.take_length,
      List.append_nil]

/-- What a call answers, given some of the input to come. -/
structure Served (S : Scanner σ Byte) (Rep : FilterState → UInt32 → σ → List Byte → Prop)
    (d : FilterDecompressor) (s : σ) (input rest : List Byte) (room : Nat) (r : DecompressResult)
    (d' : FilterDecompressor) (s' : σ) : Prop where
  holds : Holds S Rep d' s'
  consumed : r.bytesConsumed ≤ input.length
  last : (d.finished = true → rest = []) → d'.finished = true → rest.drop r.bytesConsumed = []
  stays : d.finished = true → d'.finished = true
  promise : promise S d s rest = r.produced ++ promise S d' s' (rest.drop r.bytesConsumed)
  status : r.status = .streamEnd ↔ d'.finished = true ∧ d'.buf = []
  progress : 0 < room → 0 < r.bytesConsumed ∨ 0 < r.produced.length ∨ (d.finished = false ∧ d'.finished = true) ∨
    r.status = .streamEnd

theorem status_iff {finished : Bool} {buf : List Byte} :
    (if finished = true ∧ buf.isEmpty = true then DecompressStatus.streamEnd else .continue) = .streamEnd ↔
      finished = true ∧ buf = [] := by
  constructor
  · intro h
    split at h
    · next hf => exact ⟨hf.1, List.isEmpty_iff.mp hf.2⟩
    · cases h
  · exact fun h => if_pos ⟨h.1, List.isEmpty_iff.mpr h.2⟩

/-- A call that has room left after what was staged filters more. -/
theorem decompress_going {d d₁ : FilterDecompressor} {input produced : List Byte} {room : Nat}
    (hemit : d.emit room = (produced, d₁)) (hgo : produced.length < room ∧ d₁.finished = false) :
    d.decompress input room = (do
      let (consumed, d) ←
        if input.isEmpty then do
          let d ← d₁.run true
          pure (0, { d with finished := true })
        else do
          let take := min input.length filterChunk
          let d ← { d₁ with buf := d₁.buf ++ input.take take }.run false
          pure (take, d)
      let (more, d) := d.emit (room - produced.length)
      return ({
        bytesConsumed := consumed
        produced := produced ++ more
        status := if d.finished ∧ d.buf.isEmpty then .streamEnd else .continue }, d)) := by
  unfold decompress
  simp only [hemit, if_pos hgo, pure_bind]

/-- No call fails, and each writes the first of what was owed. -/
theorem decompress_served (hF : Follows S Rep) (h : Holds S Rep d s) {rest input : List Byte} (room : Nat)
    (hinput : input <+: rest) (hall : input = [] → rest = []) :
    ∃ r d' s', d.decompress input room = .ok (r, d') ∧ Served S Rep d s input rest room r d' s' := by
  have hemitted := emit_holds h room
  have hlength := emit_length h.within room
  have hpromise := emit_promise S d s room
  generalize hemit : d.emit room = first at hemitted hlength hpromise
  obtain ⟨produced, d₁⟩ := first
  have hfinished : d₁.finished = d.finished := by
    have := congrArg (fun x => x.2.finished) hemit
    exact this.symm
  have hfiltered : d₁.filtered = d.filtered - min d.filtered room := by
    have := congrArg (fun x => x.2.filtered) hemit
    exact this.symm
  have hdropped : d₁.buf = d.buf.drop (min d.filtered room) := by
    have := congrArg (fun x => x.2.buf) hemit
    exact this.symm
  have hlength : produced.length = min d.filtered room := hlength
  by_cases hgo : produced.length < room ∧ d₁.finished = false
  · have hempty : d₁.filtered = 0 := by omega
    rw [decompress_going hemit hgo]
    by_cases hnil : input = []
    · obtain rfl := hall hnil
      subst hnil
      obtain ⟨d₂, hrun, hholds, hsame⟩ := finish_holds hF hemitted hempty hgo.2
      have hlater := emit_holds hholds (room - produced.length)
      have howed := emit_promise S { d₂ with finished := true } s (room - produced.length) []
      rw [hrun]
      refine ⟨_, _, s, rfl, hlater, Nat.le_refl 0, fun _ _ => rfl, fun _ => rfl, ?_, status_iff, fun _ => ?_⟩
      · rw [hpromise, hsame, howed, ← List.append_assoc]
        rfl
      · exact .inr (.inr (.inl ⟨hfinished ▸ hgo.2, rfl⟩))
    · have hchunk : (input.take (min input.length filterChunk)).length ≤ filterChunk := by
        rw [List.length_take]
        omega
      obtain ⟨d₂, s₂, hrun, hholds, hunfinished, hsame⟩ := take_holds hF hemitted hempty hgo.2 hchunk
      have hlater := emit_holds hholds (room - produced.length)
      have hsplit : rest = input.take (min input.length filterChunk) ++ rest.drop (min input.length filterChunk) := by
        obtain ⟨more, rfl⟩ := hinput
        rw [← List.take_append_of_le_length (Nat.min_le_left _ _), List.take_append_drop]
      have howed := emit_promise S d₂ s₂ (room - produced.length) (rest.drop (min input.length filterChunk))
      have hisEmpty : ¬ input.isEmpty = true := fun hf => hnil (List.isEmpty_iff.mp hf)
      simp only [if_neg hisEmpty, hrun]
      refine ⟨_, _, s₂, rfl, hlater, Nat.min_le_left _ _, fun _ hf => ?_, fun hf => ?_, ?_, status_iff, fun _ => .inl ?_⟩
      · have hf : d₂.finished = true := hf
        rw [hunfinished] at hf
        cases hf
      · rw [← hfinished, hgo.2] at hf
        cases hf
      · have howe := hsame (rest.drop (min input.length filterChunk))
        rw [← hsplit] at howe
        rw [hpromise, howe, howed, ← List.append_assoc]
      · have hpos := List.length_pos_of_ne_nil hnil
        show 0 < min input.length filterChunk
        unfold filterChunk
        omega
  · have hcode : d.decompress input room = .ok ({
        bytesConsumed := 0
        produced
        status := if d₁.finished ∧ d₁.buf.isEmpty then .streamEnd else .continue }, d₁) := by
      unfold decompress
      simp only [hemit, if_neg hgo]
      rfl
    refine ⟨_, d₁, s, hcode, hemitted, Nat.zero_le _, fun hlast hf => ?_, fun hf => hfinished ▸ hf,
      hpromise rest, status_iff, fun hroom => ?_⟩
    · exact hlast (hfinished ▸ hf)
    · by_cases hproduced : 0 < produced.length
      · exact .inr (.inl hproduced)
      · have hended : d₁.finished = true := by
          cases hcase : d₁.finished with
          | true => rfl
          | false => exact absurd ⟨by omega, hcase⟩ hgo
        have hbuf : d.buf = [] := by
          have hfull := h.ended (hfinished ▸ hended)
          exact List.eq_nil_of_length_eq_zero (by omega)
        refine .inr (.inr (.inr (status_iff.mpr ⟨hended, ?_⟩)))
        rw [hdropped, hbuf, List.drop_nil]

/-- Where a feeding stands: what is written and what is owed are the whole. -/
structure FeedInv (S : Scanner σ Byte) (Rep : FilterState → UInt32 → σ → List Byte → Prop)
    (packed whole : List Byte) (g : Going FilterDecompressor Byte) (s : σ) : Prop where
  holds : Holds S Rep g.state s
  within : g.consumed ≤ packed.length
  last : g.state.finished = true → packed.drop g.consumed = []
  owed : whole = g.output ++ promise S g.state s (packed.drop g.consumed)

/-- What is left to do: input to take, output to write, and the end to be told. -/
def weight (packed whole : List Byte) (g : Going FilterDecompressor Byte) : Nat :=
  (packed.length - g.consumed) + (whole.length - g.output.length) + if g.state.finished then 0 else 1

variable {packed whole : List Byte} {g : Going FilterDecompressor Byte}

theorem turn_inv (hF : Follows S Rep) (h : FeedInv S Rep packed whole g s) (cut : Nat × Nat) :
    turn (asCall decompress) packed cut g =
        .ended { outcome := none, consumed := packed.length, output := whole } ∨
      ∃ g' s', turn (asCall decompress) packed cut g = .going g' ∧ FeedInv S Rep packed whole g' s' ∧
        weight packed whole g' < weight packed whole g := by
  have hwithin := h.within
  have hinput : (packed.drop g.consumed).take (cut.1 + 1) <+: packed.drop g.consumed := List.take_prefix _ _
  have hall : (packed.drop g.consumed).take (cut.1 + 1) = [] → packed.drop g.consumed = [] := by
    intro hnil
    rcases List.take_eq_nil_iff.mp hnil with hzero | hend
    · omega
    · exact hend
  obtain ⟨r, d', s', hcall, hserved⟩ :=
    decompress_served hF h.holds (cut.2 + 1) hinput hall
  have hconsumed := hserved.consumed
  rw [List.length_take, List.length_drop] at hconsumed
  have howed := h.owed
  rw [hserved.promise, ← List.append_assoc, List.drop_drop] at howed
  rw [turn, asCall, hcall]
  simp only
  by_cases hend : r.status = .streamEnd
  · left
    obtain ⟨hfinished, hbuf⟩ := hserved.status.mp hend
    have hlast := hserved.last h.last hfinished
    rw [List.drop_drop] at hlast
    have hlen := List.drop_eq_nil_iff.mp hlast
    have hnothing : promise S d' s' (packed.drop (g.consumed + r.bytesConsumed)) = [] := by
      unfold promise
      rw [hbuf, List.take_nil, if_pos hfinished]
      rfl
    rw [hnothing, List.append_nil] at howed
    rw [if_pos (beq_iff_eq.mpr hend), ← howed, show g.consumed + r.bytesConsumed = packed.length by omega]
  · right
    rw [if_neg fun hf => hend (beq_iff_eq.mp hf)]
    refine ⟨_, s', rfl, ⟨hserved.holds, by show g.consumed + r.bytesConsumed ≤ packed.length; omega, fun hf => ?_, howed⟩, ?_⟩
    · have hlast := hserved.last h.last hf
      rw [List.drop_drop] at hlast
      exact hlast
    · have hlength := congrArg List.length howed
      rw [List.length_append, List.length_append] at hlength
      have hflag : (if d'.finished then 0 else 1) ≤ if g.state.finished then 0 else 1 := by
        cases hcase : g.state.finished with
        | true => rw [hserved.stays hcase]
        | false => split <;> decide
      unfold weight
      simp only [List.length_append]
      rcases hserved.progress (Nat.succ_pos cut.2) with hprogress | hprogress | ⟨hunfinished, hfinished⟩ | hf
      · omega
      · omega
      · rw [hunfinished, hfinished]
        simp only [Bool.false_eq_true, if_false, if_true]
        omega
      · exact absurd hf hend

theorem feed_ends (hF : Follows S Rep) (h : FeedInv S Rep packed whole g s) (cuts : Nat → Nat × Nat) :
    ∃ n, feed (asCall decompress) packed n cuts g =
      .ended { outcome := none, consumed := packed.length, output := whole } := by
  obtain ⟨n, e, hfeed, he⟩ := ends_of_turns
    (I := fun k g => k = weight packed whole g ∧ ∃ s, FeedInv S Rep packed whole g s)
    (Q := fun e => e = { outcome := none, consumed := packed.length, output := whole })
    (by
      rintro k g cut ⟨rfl, s, hinv⟩
      rcases turn_inv hF hinv cut with hended | ⟨g', s', hgoing, hinv', hless⟩
      · exact .inl ⟨_, hended, rfl⟩
      · exact .inr ⟨g', _, hgoing, ⟨rfl, s', hinv'⟩, hless⟩)
    _ g cuts ⟨rfl, s, h⟩
  rw [he] at hfeed
  exact ⟨n, hfeed⟩

theorem feed_inv (hF : Follows S Rep) (n : Nat) : ∀ {g g' : Going FilterDecompressor Byte} {s : σ} {cuts},
    FeedInv S Rep packed whole g s → feed (asCall decompress) packed n cuts g = .going g' →
    ∃ s', FeedInv S Rep packed whole g' s' := by
  induction n with
  | zero =>
    intro g g' s cuts h hfeed
    injection hfeed with hfeed
    subst hfeed
    exact ⟨s, h⟩
  | succ n ih =>
    intro g g' s cuts h hfeed
    rw [feed] at hfeed
    rcases turn_inv hF h (cuts 0) with hended | ⟨g₁, s₁, hgoing, hinv, _⟩
    · rw [hended] at hfeed
      cases hfeed
    · rw [hgoing] at hfeed
      exact ih hinv hfeed

/-- A checkpoint is restored to the stage it was taken of. -/
theorem restore_checkpoint (h : Holds S Rep d s) (fresh : FilterDecompressor) (a b : Nat) :
    ∃ cp, d.checkpoint a b = .ok (some cp) ∧ fresh.restore cp = .ok d :=
  ⟨_, rfl, if_neg (Nat.not_lt.mpr h.within)⟩

/-- A stage at its start, of any filter. -/
def IsNew (d : FilterDecompressor) : Prop := (∃ arch, d = bcj arch) ∨ ∃ distance, delta distance = .ok d

/-- A filter follows its scanner from the start, and one call of its converter is a whole scan. -/
structure Begins (S : Scanner σ Byte) (Rep : FilterState → UInt32 → σ → List Byte → Prop)
    (d : FilterDecompressor) (s : σ) : Prop where
  follows : Follows S Rep
  rep : Rep d.state 0 s []
  fresh : d = withState d.state
  once : ∀ data : List Byte, data.length < 2 ^ 32 →
    ∃ r, d.state.convert data 0 = .ok r ∧ r.done ++ r.rest = S.convert s data

theorem positioned_begins {S : Scanner UInt32 Byte} {arch : BcjArch} (hwidth : S.width ≤ 16)
    (hstate : ∀ pc data, (S.run pc data).state = pc + UInt32.ofNat (S.run pc data).done.length)
    (hconvert : ∀ data pc, (FilterState.bcj arch 0 (0 - 5)).convert data pc =
      (FilterState.bcj arch 0 (0 - 5)).positioned S data pc) :
    Begins S (fun st now pc _ => st = .bcj arch 0 (0 - 5) ∧ pc = now) (bcj arch) 0 where
  follows :=
    { narrow := hwidth
      more := fun _ h => h
      convert := by
        rintro st now pc data ⟨rfl, rfl⟩ _
        exact ⟨_, hconvert data pc, rfl, hstate pc data⟩ }
  rep := ⟨rfl, rfl⟩
  fresh := rfl
  once := fun data _ => ⟨_, hconvert data 0, rfl⟩

/-- The x86 converter's scanner, its state and the bytes that decided the marks. -/
def X86Rep (st : FilterState) (now : UInt32) (s : UInt32 × Marks) (data : List Byte) : Prop :=
  s.1 = now ∧ s.2.Seen data ∧
    ∃ x : X86State, st = .bcj .x86 x.prevMask x.prevPos ∧ Stands x now s.2 (2 ^ 18)

theorem x86_begins : Begins (x86Scanner (· - ·)) X86Rep (bcj .x86) (0, .clear) where
  follows :=
    { narrow := Nat.le_add_left 5 11
      more := by
        rintro st now s raw more ⟨hnow, hseen, hrest⟩
        exact ⟨hnow, hseen.append more, hrest⟩
      convert := by
        rintro st now ⟨here, m⟩ data ⟨rfl, hseen, x, rfl, hstands⟩ hdata
        obtain ⟨x', hscan, hstands', hseen'⟩ :=
          x86Scan_scans sub_addressing hstands (by decide) (by omega) hseen
        have hposition := x86_position (· - ·) (here, m) data
        refine ⟨.bcj .x86 x'.prevMask x'.prevPos, ?_, hposition, hseen', x', rfl, ?_⟩
        · have hcode : x86 data here { prevMask := x.prevMask, prevPos := x.prevPos } = _ := hscan
          unfold FilterState.convert
          simp only
          rw [hcode]
          rfl
        · rw [← hposition]
          exact hstands'.mono (by omega) }
  rep := ⟨rfl, Marks.seen_clear [], .initial, rfl, stands_initial.mono (by decide)⟩
  fresh := rfl
  once := by
    intro data hdata
    obtain ⟨x', hscan, _⟩ := x86Scan_scans sub_addressing stands_initial (by decide) hdata (Marks.seen_clear data)
    refine ⟨{
      done := ((x86Scanner (· - ·)).run (0, .clear) data).done
      rest := ((x86Scanner (· - ·)).run (0, .clear) data).rest
      state := .bcj .x86 x'.prevMask x'.prevPos }, ?_, rfl⟩
    have hcode : x86 data 0 { prevMask := 0, prevPos := 0 - 5 } = _ := hscan
    show (x86 data 0 { prevMask := 0, prevPos := 0 - 5 } >>= _) = _
    rw [hcode]
    rfl

theorem delta_begins (distance : Nat) {ring : DeltaState} : Begins (Filter.delta distance)
    (fun st _ s _ => st = .delta distance s) (withState (.delta distance ring)) ring where
  follows :=
    { narrow := Nat.le_add_left 1 15
      more := fun _ h => h
      convert := by
        rintro st now s data rfl _
        exact ⟨_, rfl, rfl⟩ }
  rep := rfl
  fresh := rfl
  once := fun data _ => ⟨_, rfl, rfl⟩

/-- Every filter follows a scanner. -/
theorem new_begins (h : d.IsNew) : ∃ (σ : Type) (S : Scanner σ Byte)
    (Rep : FilterState → UInt32 → σ → List Byte → Prop) (s : σ), Begins S Rep d s := by
  rcases h with ⟨arch, rfl⟩ | ⟨distance, h⟩
  · cases arch with
    | x86 => exact ⟨_, _, _, _, x86_begins⟩
    | powerPc => exact ⟨_, powerPc, _, _, positioned_begins (by decide) positional_state fun _ _ => rfl⟩
    | ia64 => exact ⟨_, ia64, _, _, positioned_begins (by decide) positional_state fun _ _ => rfl⟩
    | arm => exact ⟨_, arm, _, _, positioned_begins (by decide) positional_state fun _ _ => rfl⟩
    | armThumb => exact ⟨_, armThumb, _, _, positioned_begins (by decide) positional_state fun _ _ => rfl⟩
    | sparc => exact ⟨_, sparc, _, _, positioned_begins (by decide) positional_state fun _ _ => rfl⟩
    | arm64 => exact ⟨_, arm64, _, _, positioned_begins (by decide) positional_state fun _ _ => rfl⟩
    | riscV => exact ⟨_, riscV, _, _, positioned_begins (by decide) positional_state fun _ _ => rfl⟩
  · unfold delta at h
    split at h
    · injection h with h
      subst h
      exact ⟨_, _, _, _, delta_begins distance⟩
    · cases h

theorem Begins.holds (h : Begins S Rep d s) : Holds S Rep d s := by
  have hfresh := h.fresh
  have hraw : d.raw = [] := by
    rw [hfresh]
    rfl
  refine ⟨?_, ?_, fun _ => ?_, fun _ => ?_⟩
  · rw [hfresh]
    exact Nat.le_refl 0
  · rw [hraw]
    exact S.width_pos s
  · have hrep := h.rep
    rw [hraw, hfresh]
    exact hrep
  · rw [hfresh]
    rfl

/-- A new stage, fed in any cuts, writes the conversion of the whole. -/
theorem Begins.inv (h : Begins S Rep d s) (data : List Byte) :
    FeedInv S Rep data (S.convert s data) { state := d, consumed := 0, output := [] } s := by
  have hfresh := h.fresh
  refine ⟨h.holds, Nat.zero_le _, fun hf => ?_, ?_⟩
  · rw [hfresh] at hf
    cases hf
  · show S.convert s data = [] ++ promise S d s data
    rw [hfresh]
    rfl

/-- Any two ways of feeding a filter give the same output; for a stream of less than 4 GiB it is
that of one call of the converter, and what is left of it follows a restored checkpoint. -/
theorem split_independent (h : d.IsNew) (data : List Byte) :
    ∃ out, (∀ cuts, EndsAs (asCall decompress) data cuts d
        { outcome := none, consumed := data.length, output := out }) ∧
      (data.length < 2 ^ 32 → ∃ r, d.state.convert data 0 = .ok r ∧ out = r.done ++ r.rest) ∧
      ∀ n cuts g, feed (asCall decompress) data n cuts { state := d, consumed := 0, output := [] } = .going g →
        ∀ (fresh : FilterDecompressor) (compressedOffset uncompressedOffset : Nat),
          ∃ cp s left, g.state.checkpoint compressedOffset uncompressedOffset = .ok (some cp) ∧
            fresh.restore cp = .ok s ∧ out = g.output ++ left ∧
            ∀ cuts', EndsAs (asCall decompress) (data.drop g.consumed) cuts' s
              { outcome := none, consumed := data.length - g.consumed, output := left } := by
  obtain ⟨σ, S, Rep, s, hbegins⟩ := new_begins h
  have hinv := hbegins.inv data
  refine ⟨S.convert s data, fun cuts => feed_ends hbegins.follows hinv cuts, fun hdata => ?_, ?_⟩
  · obtain ⟨r, hconvert, hr⟩ := hbegins.once data hdata
    exact ⟨r, hconvert, hr.symm⟩
  · intro n cuts g hfeed fresh a b
    obtain ⟨s', hinv'⟩ := feed_inv hbegins.follows n hinv hfeed
    obtain ⟨cp, hcheckpoint, hrestore⟩ := restore_checkpoint hinv'.holds fresh a b
    refine ⟨cp, g.state, promise S g.state s' (data.drop g.consumed), hcheckpoint, hrestore, hinv'.owed, fun cuts' => ?_⟩
    have hrest : FeedInv S Rep (data.drop g.consumed) (promise S g.state s' (data.drop g.consumed))
        { state := g.state, consumed := 0, output := [] } s' :=
      ⟨hinv'.holds, Nat.zero_le _, hinv'.last, rfl⟩
    have hends := feed_ends hbegins.follows hrest cuts'
    rw [List.length_drop] at hends
    exact hends

/-- A call instruction at the start of a stream. -/
theorem split_independent_call : ∃ out, (∀ cuts, EndsAs (asCall decompress) [0xE8, 5, 0, 0, 0] cuts (bcj .x86)
      { outcome := none, consumed := 5, output := out }) ∧
    (5 < 2 ^ 32 → ∃ r, (bcj .x86).state.convert [0xE8, 5, 0, 0, 0] 0 = .ok r ∧ out = r.done ++ r.rest) ∧
    ∀ n cuts g, feed (asCall decompress) [0xE8, 5, 0, 0, 0] n cuts
        { state := bcj .x86, consumed := 0, output := [] } = .going g →
      ∀ (fresh : FilterDecompressor) (compressedOffset uncompressedOffset : Nat),
        ∃ cp s left, g.state.checkpoint compressedOffset uncompressedOffset = .ok (some cp) ∧
          fresh.restore cp = .ok s ∧ out = g.output ++ left ∧
          ∀ cuts', EndsAs (asCall decompress) (([0xE8, 5, 0, 0, 0] : List Byte).drop g.consumed) cuts' s
            { outcome := none, consumed := 5 - g.consumed, output := left } :=
  split_independent (.inl ⟨.x86, rfl⟩) [0xE8, 5, 0, 0, 0]

/-- Call after call, each with its own input and room. -/
def calls : FilterDecompressor → List (List Byte × Nat) → Except Fault FilterDecompressor
  | d, [] => .ok d
  | d, (input, room) :: more => do
    let (_, d) ← d.decompress input room
    calls d more

theorem calls_hold (hF : Follows S Rep) (h : Holds S Rep d s) (cs : List (List Byte × Nat)) :
    ∃ d' s', calls d cs = .ok d' ∧ Holds S Rep d' s' := by
  induction cs generalizing d s with
  | nil => exact ⟨d, s, rfl, h⟩
  | cons c cs ih =>
    obtain ⟨input, room⟩ := c
    obtain ⟨r, d₁, s₁, hcall, hserved⟩ := decompress_served hF h room (List.prefix_refl input) id
    obtain ⟨d', s', hcalls, hholds⟩ := ih hserved.holds
    refine ⟨d', s', ?_, hholds⟩
    rw [calls, hcall]
    exact hcalls

/-- No call of the x86 filter fails: its address loop ends, in a round or two, its table is read
within its entries and no shift is as wide as the word.  Between calls its mask stands for the
markers passed over, whose bytes are held. -/
theorem x86_calls (cs : List (List Byte × Nat)) : ∃ d, calls (bcj .x86) cs = .ok d ∧
    (d.finished = false → ∃ s, X86Rep d.state (UInt32.ofNat (d.pos + d.filtered)) s d.raw) := by
  obtain ⟨d, s, hcalls, hholds⟩ := calls_hold x86_begins.follows x86_begins.holds cs
  exact ⟨d, hcalls, fun hf => ⟨s, hholds.rep hf⟩⟩

end FilterDecompressor
end Iluvatar
