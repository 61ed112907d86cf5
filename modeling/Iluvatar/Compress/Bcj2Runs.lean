/-
BCJ2 decoding undoes BCJ2 encoding, in any cuts and from any checkpoint.

The decoder of a whole main stream follows the encoder byte by byte; a decoder that is fed owes
what that one has still to write.
-/
import Iluvatar.Library.Fallible
import Iluvatar.Library.Owing
import Iluvatar.Compress.Bcj2Coder
import Iluvatar.Compress.Stage

namespace Iluvatar

open Sansio Iluvatar.Filter

/-! ## Following the encoder -/

namespace Bcj2State

/-- All of a main stream, with room for all that it stands for. -/
def decodeAll (streams : Bcj2Streams) : List Byte → Bcj2State → Except Fault (List Byte × Bcj2State)
  | [], st => .ok ([], st)
  | b :: main, st => do
    let (bytes, st) ← st.byte streams b
    let (out, st) ← decodeAll streams main st
    .ok (b :: bytes ++ out, st)

/-- A target is read back, where the stream has it. -/
theorem target_reads (streams : Bcj2Streams) (st : Bcj2State) (call : Bool) (before after : List Byte) (x : UInt32)
    (hstream : (if call then streams.call else streams.jump) = before ++ store32Be x ++ after)
    (hpos : (if call then st.callPos else st.jumpPos) = before.length) :
    st.target streams call = .ok (x - (st.ip + 4),
      if call then { st with callPos := before.length + 4, ip := st.ip + 4 }
      else { st with jumpPos := before.length + 4, ip := st.ip + 4 }) := by
  have hsrc : ((before ++ store32Be x ++ after).drop before.length).take 4 = store32Be x := by
    rw [List.append_assoc, List.drop_left]
    rfl
  have hlong : ¬ (store32Be x).length < 4 := Nat.lt_irrefl 4
  unfold target
  cases call with
  | true =>
    simp only [if_true] at hstream hpos ⊢
    rw [hstream, hpos, hsrc, load_store_be, if_neg hlong]
  | false =>
    simp only [Bool.false_eq_true, if_false] at hstream hpos ⊢
    rw [hstream, hpos, hsrc, load_store_be, if_neg hlong]

end Bcj2State

namespace Bcj2Encoder

/-- An encoder under way, whose bits so far make up an interval. -/
structure Under (e : Bcj2Encoder) (v : CodeInterval) : Prop where
  at_ : e.rc.At v
  wide : v.Wide
  count : e.probs.length = bcj2NumProbs
  fair : ∀ p ∈ e.probs, FairProb p

/-- A decoder that has read what an encoder has written, with the data up to `i`. -/
structure Tracked (streams : Bcj2Streams) (e : Bcj2Encoder) (v : CodeInterval) (i : Nat) (st : Bcj2State) : Prop where
  probs : st.probs = e.probs
  prev : st.prev = e.prev
  ip : st.ip = UInt32.ofNat i
  callPos : st.callPos = e.call.length
  jumpPos : st.jumpPos = e.jump.length
  reads : ∃ v₀, v₀.scaled = v ∧ st.Reads streams.rc v₀

/-- One byte and the target it is followed by, if that is converted. -/
structure Takes (e : Bcj2Encoder) (v : CodeInterval) (i : Nat) (b : Byte) (taken : List Byte) (e' : Bcj2Encoder)
    (v' : CodeInterval) : Prop where
  under : e'.Under v'
  main_eq : e'.main = e.main ++ [b]
  call_prefix : e.call <+: e'.call
  jump_prefix : e.jump <+: e'.jump
  inside : ∀ ds, v'.Inside ds → v.Inside ds
  decoded : ∀ streams : Bcj2Streams, e'.call <+: streams.call → e'.jump <+: streams.jump → v'.Inside streams.rc →
    ∀ st, Tracked streams e v i st →
      ∃ st', st.byte streams b = .ok (taken, st') ∧ Tracked streams e' v' (i + 1 + taken.length) st'

variable {e : Bcj2Encoder} {v : CodeInterval} {i : Nat} {b : Byte} {rest : List Byte}

theorem next_ip (i n : Nat) : UInt32.ofNat i + UInt32.ofNat n = UInt32.ofNat (i + n) := (UInt32.ofNat_add i n).symm

/-- A byte that is no marker. -/
theorem takes_plain (h : e.Under v) (hplain : bcj2Context b e.prev = none) :
    e.Takes v i b [] { e with main := e.main ++ [b], prev := b } v where
  under := ⟨h.at_, h.wide, h.count, h.fair⟩
  main_eq := rfl
  call_prefix := List.prefix_refl _
  jump_prefix := List.prefix_refl _
  inside := fun _ hin => hin
  decoded := by
    intro streams _ _ _ st hst
    obtain ⟨v₀, hscaled, hreads⟩ := hst.reads
    refine ⟨{ st with ip := st.ip + 1, prev := b }, ?_, hst.probs, rfl, ?_, hst.callPos, hst.jumpPos, v₀, hscaled,
      hreads.digits, hreads.range, hreads.code⟩
    · unfold Bcj2State.byte
      simp only
      rw [hst.prev, hplain]
    · show st.ip + UInt32.ofNat 1 = UInt32.ofNat (i + 1)
      rw [hst.ip, next_ip]

theorem context_lt {b prev : Byte} {context : Nat} (h : bcj2Context b prev = some context) : context < bcj2NumProbs := by
  have hprev := prev.toNat_lt
  unfold bcj2Context at h
  unfold bcj2NumProbs
  split at h
  · obtain rfl := Option.some.inj h
    omega
  · split at h
    · obtain rfl := Option.some.inj h
      decide
    · split at h
      · obtain rfl := Option.some.inj h
        decide
      · cases h

/-- What a marker makes of the encoder, before its target. -/
def marked (e : Bcj2Encoder) (b : Byte) (context : Nat) (bit : Bool) : Bcj2Encoder :=
  { e with
    main := e.main ++ [b]
    rc := (e.rc.encode (e.probs.getD context 0) bit).1
    probs := e.probs.set context (e.rc.encode (e.probs.getD context 0) bit).2 }

/-- The bit of a marker is written, and read back. -/
theorem marked_takes (h : e.Under v) {context : Nat} (hmarker : bcj2Context b e.prev = some context) (bit : Bool) :
    ∃ v', (e.marked b context bit).Under v' ∧ (∀ ds, v'.Inside ds → v.Inside ds) ∧
      ∀ streams : Bcj2Streams, v'.Inside streams.rc → ∀ st, Tracked streams e v i st →
        ∃ st', Bcj2State.bit streams context { st with ip := st.ip + 1, prev := b } = .ok (bit, st') ∧
          Tracked streams { e.marked b context bit with prev := b } v' (i + 1) st' := by
  have hcontext := context_lt hmarker
  rw [← h.count] at hcontext
  obtain ⟨p, hprob⟩ : ∃ p, e.probs[context]? = some p := ⟨_, List.getElem?_eq_getElem hcontext⟩
  have hp : FairProb p := h.fair p (List.mem_of_getElem? hprob)
  have hget : e.probs.getD context 0 = p := by rw [List.getD_eq_getElem?_getD, hprob, Option.getD_some]
  obtain ⟨hat, hmoved⟩ := RangeEncoder.encode_at h.at_ h.wide hp bit
  obtain ⟨_, _, hlow, hhigh⟩ := CodeInterval.half_within h.wide hp bit
  have hunder : (e.marked b context bit).Under (v.half p bit).scaled := by
    unfold marked
    rw [hget, hmoved]
    refine ⟨hat, CodeInterval.scaled_wide hlow hhigh, ?_, fair_set h.fair (hp.moved bit)⟩
    rw [List.length_set]
    exact h.count
  refine ⟨(v.half p bit).scaled, hunder, fun ds hin => hin.of_scaled.of_half h.wide hp, ?_⟩
  intro streams hin st hst
  obtain ⟨v₀, hscaled, hreads⟩ := hst.reads
  rw [← hscaled] at hin
  have hwide := h.wide
  rw [← hscaled] at hwide
  have hat₀ : Bcj2State.Reads streams.rc v₀ { st with ip := st.ip + 1, prev := b } :=
    ⟨hreads.digits, hreads.range, hreads.code⟩
  have hprob₀ : ({ st with ip := st.ip + 1, prev := b } : Bcj2State).probs[context]? = some p := by
    show st.probs[context]? = some p
    rw [hst.probs]
    exact hprob
  obtain ⟨range, code, rcPos, hbit, hreads'⟩ := Bcj2State.bit_reads hat₀ hwide hp hprob₀ hin.of_scaled
  rw [hscaled] at hreads'
  refine ⟨_, hbit, ?_, rfl, ?_, hst.callPos, hst.jumpPos, v.half p bit, rfl, hreads'⟩
  · show st.probs.set context (movedProb p bit) = e.probs.set context _
    rw [hget, hmoved, hst.probs]
  · show st.ip + UInt32.ofNat 1 = UInt32.ofNat (i + 1)
    rw [hst.ip, next_ip]

/-- A marker whose target is kept. -/
theorem takes_kept (h : e.Under v) {context : Nat} (hmarker : bcj2Context b e.prev = some context) :
    ∃ v', e.Takes v i b [] { e.marked b context false with prev := b } v' := by
  obtain ⟨v', hunder, hinside, hbit⟩ := marked_takes (i := i) h hmarker false
  refine ⟨v', ⟨hunder.at_, hunder.wide, hunder.count, hunder.fair⟩, rfl, List.prefix_refl _, List.prefix_refl _, hinside, ?_⟩
  intro streams _ _ hin st hst
  obtain ⟨st', hread, htracked⟩ := hbit streams hin st hst
  refine ⟨st', ?_, htracked⟩
  unfold Bcj2State.byte
  simp only
  rw [hst.prev, hmarker]
  simp only [hread, bind, Except.bind, Bool.false_eq_true, if_false]

/-- A target moved to its stream. -/
def targeted (e : Bcj2Encoder) (b : Byte) (abs : UInt32) (last : Byte) : Bcj2Encoder :=
  let e :=
    if b = 0xE8 then { e with call := e.call ++ store32Be abs } else { e with jump := e.jump ++ store32Be abs }
  { e with prev := last }

/-- A marker whose target is converted. -/
theorem takes_converted (h : e.Under v) {context : Nat} (hmarker : bcj2Context b e.prev = some context)
    (b0 b1 b2 b3 : Byte) : ∃ v', e.Takes v i b [b0, b1, b2, b3]
      ((e.marked b context true).targeted b (load32Le [b0, b1, b2, b3] + UInt32.ofNat (i + 5)) b3) v' := by
  obtain ⟨v', hunder, hinside, hbit⟩ := marked_takes (i := i) h hmarker true
  have hback : ∀ ip : UInt32, ip = UInt32.ofNat (i + 1) →
      load32Le [b0, b1, b2, b3] + UInt32.ofNat (i + 5) - (ip + 4) = load32Le [b0, b1, b2, b3] := by
    rintro ip rfl
    have hip : UInt32.ofNat (i + 1) + 4 = UInt32.ofNat (i + 5) := next_ip (i + 1) 4
    rw [hip, UInt32.add_sub_cancel]
  have hip5 : ∀ ip : UInt32, ip = UInt32.ofNat (i + 1) → ip + 4 = UInt32.ofNat (i + 1 + 4) := by
    rintro ip rfl
    exact next_ip (i + 1) 4
  by_cases hcall : b = 0xE8
  · have heq : (e.marked b context true).targeted b (load32Le [b0, b1, b2, b3] + UInt32.ofNat (i + 5)) b3 =
        { e.marked b context true with
          call := e.call ++ store32Be (load32Le [b0, b1, b2, b3] + UInt32.ofNat (i + 5)), prev := b3 } := by
      unfold targeted
      rw [if_pos hcall]
      rfl
    rw [heq]
    refine ⟨v', ⟨hunder.at_, hunder.wide, hunder.count, hunder.fair⟩, rfl, List.prefix_append _ _, List.prefix_refl _,
      hinside, ?_⟩
    rintro streams ⟨after, hstream⟩ _ hin st hst
    obtain ⟨st', hread, htracked⟩ := hbit streams hin st hst
    have htarget := Bcj2State.target_reads streams st' true e.call after
      (load32Le [b0, b1, b2, b3] + UInt32.ofNat (i + 5)) hstream.symm htracked.callPos
    rw [hback st'.ip htracked.ip] at htarget
    obtain ⟨v₀, hscaled, hreads⟩ := htracked.reads
    refine ⟨{ st' with callPos := e.call.length + 4, ip := st'.ip + 4, prev := b3 }, ?_, htracked.probs, rfl,
      hip5 _ htracked.ip, ?_, htracked.jumpPos, v₀, hscaled, hreads.digits, hreads.range, hreads.code⟩
    · unfold Bcj2State.byte
      simp only
      rw [hst.prev, hmarker]
      simp only [hread, bind, Except.bind, if_true]
      rw [beq_iff_eq.mpr hcall, htarget]
      simp only [if_true]
      rw [store_load]
      rfl
    · show e.call.length + 4 = (e.call ++ _).length
      rw [List.length_append]
      rfl
  · have heq : (e.marked b context true).targeted b (load32Le [b0, b1, b2, b3] + UInt32.ofNat (i + 5)) b3 =
        { e.marked b context true with
          jump := e.jump ++ store32Be (load32Le [b0, b1, b2, b3] + UInt32.ofNat (i + 5)), prev := b3 } := by
      unfold targeted
      rw [if_neg hcall]
      rfl
    rw [heq]
    refine ⟨v', ⟨hunder.at_, hunder.wide, hunder.count, hunder.fair⟩, rfl, List.prefix_refl _, List.prefix_append _ _,
      hinside, ?_⟩
    rintro streams _ ⟨after, hstream⟩ hin st hst
    obtain ⟨st', hread, htracked⟩ := hbit streams hin st hst
    have htarget := Bcj2State.target_reads streams st' false e.jump after
      (load32Le [b0, b1, b2, b3] + UInt32.ofNat (i + 5)) hstream.symm htracked.jumpPos
    rw [hback st'.ip htracked.ip] at htarget
    obtain ⟨v₀, hscaled, hreads⟩ := htracked.reads
    refine ⟨{ st' with jumpPos := e.jump.length + 4, ip := st'.ip + 4, prev := b3 }, ?_, htracked.probs, rfl,
      hip5 _ htracked.ip, htracked.callPos, ?_, v₀, hscaled, hreads.digits, hreads.range, hreads.code⟩
    · unfold Bcj2State.byte
      simp only
      rw [hst.prev, hmarker]
      simp only [hread, bind, Except.bind, if_true]
      rw [beq_eq_false_iff_ne.mpr hcall, htarget]
      simp only [Bool.false_eq_true, if_false]
      rw [store_load]
      rfl
    · show e.jump.length + 4 = (e.jump ++ _).length
      rw [List.length_append]
      rfl

/-- A turn of the encoder. -/
theorem run_takes (convert : Nat → Bool) (fuel : Nat) (h : e.Under v) (b : Byte) (rest : List Byte) :
    ∃ taken rest' e' v', rest = taken ++ rest' ∧ e.Takes v i b taken e' v' ∧
      run convert (fuel + 1) i (b :: rest) e = run convert fuel (i + 1 + taken.length) rest' e' := by
  rw [run]
  simp only
  match hcontext : bcj2Context b e.prev with
  | none => exact ⟨[], rest, _, v, rfl, takes_plain h hcontext, rfl⟩
  | some context =>
    simp only
    cases hbit : decide (4 ≤ rest.length) && convert i with
    | false =>
      obtain ⟨v', htakes⟩ := takes_kept (i := i) h hcontext
      exact ⟨[], rest, _, v', rfl, htakes, rfl⟩
    | true =>
      obtain ⟨hlong, _⟩ := Bool.and_eq_true_iff.mp hbit
      obtain ⟨b0, b1, b2, b3, rest', rfl⟩ := four_of_long (of_decide_eq_true hlong)
      obtain ⟨v', htakes⟩ := takes_converted (i := i) h hcontext b0 b1 b2 b3
      exact ⟨[b0, b1, b2, b3], rest', _, v', rfl, htakes, rfl⟩

/-- A run of the encoder, and that a decoder reads it back. -/
theorem run_decodes (convert : Nat → Bool) (fuel : Nat) : ∀ {i : Nat} {rest : List Byte} {e : Bcj2Encoder} {v : CodeInterval},
    rest.length ≤ fuel → e.Under v → ∃ v' main, (run convert fuel i rest e).Under v' ∧
      (run convert fuel i rest e).main = e.main ++ main ∧ e.call <+: (run convert fuel i rest e).call ∧
      e.jump <+: (run convert fuel i rest e).jump ∧ (∀ ds, v'.Inside ds → v.Inside ds) ∧
      ∀ streams : Bcj2Streams, streams.call = (run convert fuel i rest e).call →
        streams.jump = (run convert fuel i rest e).jump → v'.Inside streams.rc →
        ∀ st, Tracked streams e v i st → ∃ st', st.decodeAll streams main = .ok (rest, st') := by
  induction fuel with
  | zero =>
    intro i rest e v hfuel h
    obtain rfl := List.eq_nil_of_length_eq_zero (Nat.le_zero.mp hfuel)
    exact ⟨v, [], h, (List.append_nil _).symm, List.prefix_refl _, List.prefix_refl _, fun _ hin => hin,
      fun _ _ _ _ st _ => ⟨st, rfl⟩⟩
  | succ fuel ih =>
    intro i rest e v hfuel h
    match rest with
    | [] =>
      exact ⟨v, [], h, (List.append_nil _).symm, List.prefix_refl _, List.prefix_refl _, fun _ hin => hin,
        fun _ _ _ _ st _ => ⟨st, rfl⟩⟩
    | b :: rest =>
      obtain ⟨taken, rest', e₁, v₁, rfl, htakes, hrun⟩ := run_takes (i := i) convert fuel h b rest
      rw [hrun]
      rw [List.length_cons, List.length_append] at hfuel
      obtain ⟨v', main, hunder, hmain, hcall, hjump, hinside, hdecodes⟩ :=
        ih (i := i + 1 + taken.length) (show rest'.length ≤ fuel by omega) htakes.under
      refine ⟨v', b :: main, hunder, ?_, htakes.call_prefix.trans hcall, htakes.jump_prefix.trans hjump,
        fun ds hin => htakes.inside ds (hinside ds hin), ?_⟩
      · rw [hmain, htakes.main_eq, List.append_assoc]
        rfl
      · intro streams hcallEq hjumpEq hin st hst
        rw [← hcallEq] at hcall
        rw [← hjumpEq] at hjump
        obtain ⟨st₁, hbyte, htracked⟩ := htakes.decoded streams hcall hjump (hinside _ hin) st hst
        obtain ⟨st', hrest⟩ := hdecodes streams hcallEq hjumpEq hin st₁ htracked
        refine ⟨st', ?_⟩
        rw [Bcj2State.decodeAll, hbyte]
        show (Bcj2State.decodeAll streams main st₁ >>= _) = _
        rw [hrest]
        rfl

theorem start_under : start.Under .whole where
  at_ := RangeEncoder.new_at
  wide := ⟨by decide, by decide⟩
  count := List.length_replicate
  fair := by
    intro p hp
    rw [List.eq_of_mem_replicate hp]
    exact ⟨by decide, by decide⟩

end Bcj2Encoder

/-- The decoder of the whole main stream gives the data back. -/
theorem bcj2Encode_decodes (data : List Byte) (convert : Nat → Bool) :
    ∃ st st', Bcj2State.initial (bcj2Encode data convert).2 = .ok st ∧ st.pending = [] ∧ st.finished = false ∧
      st.decodeAll (bcj2Encode data convert).2 (bcj2Encode data convert).1 = .ok (data, st') := by
  obtain ⟨v', main, hunder, hmain, _, _, hinside, hdecodes⟩ :=
    Bcj2Encoder.run_decodes convert data.length (i := 0) (Nat.le_refl data.length) Bcj2Encoder.start_under
  have hin : v'.Inside (bcj2Encode data convert).2.rc := RangeEncoder.finish_inside hunder.at_
  obtain ⟨st, hinitial, hreads, hprobs, hcallPos, hjumpPos, hip, hprev, hpending, hfinished⟩ :=
    Bcj2State.initial_reads (hinside _ hin)
  obtain ⟨st', hdecoded⟩ := hdecodes (bcj2Encode data convert).2 rfl rfl hin st
    ⟨hprobs, hprev, hip, hcallPos, hjumpPos, .whole, rfl, hreads⟩
  refine ⟨st, st', hinitial, hpending, hfinished, ?_⟩
  have hmainEq : (bcj2Encode data convert).1 = main := by
    rw [bcj2Encode]
    exact hmain
  rw [hmainEq]
  exact hdecoded

/-! ## Fed in pieces -/

namespace Bcj2State

variable {streams : Bcj2Streams} {st st' : Bcj2State}

/-- A state that fits its side streams. -/
structure Fits (streams : Bcj2Streams) (st : Bcj2State) : Prop where
  probs : st.probs.length = bcj2NumProbs
  rcPos : st.rcPos ≤ streams.rc.length
  callPos : st.callPos ≤ streams.call.length
  jumpPos : st.jumpPos ≤ streams.jump.length

/-- What reading from the side streams keeps. -/
structure Keeps (streams : Bcj2Streams) (st st' : Bcj2State) : Prop where
  fits : Fits streams st → Fits streams st'
  pending : st'.pending = st.pending
  finished : st'.finished = st.finished

theorem Keeps.trans {st'' : Bcj2State} (h : Keeps streams st st') (h' : Keeps streams st' st'') : Keeps streams st st'' :=
  ⟨fun hfits => h'.fits (h.fits hfits), h'.pending.trans h.pending, h'.finished.trans h.finished⟩

theorem initial_fits (h : initial streams = .ok st) : Fits streams st := by
  unfold initial at h
  split at h
  · next hrc =>
    simp only at h
    split at h
    · cases h
    · obtain rfl := Except.ok.inj h
      refine ⟨List.length_replicate, ?_, Nat.zero_le _, Nat.zero_le _⟩
      rw [hrc]
      simp only [List.length_cons]
      omega
  · cases h

theorem normalize_keeps (h : st.normalize streams = .ok st') : Keeps streams st st' := by
  unfold normalize at h
  split at h
  · match hbyte : streams.rc[st.rcPos]? with
    | none =>
      rw [hbyte] at h
      cases h
    | some byte =>
      rw [hbyte] at h
      obtain rfl := Except.ok.inj h
      exact ⟨fun hfits => ⟨hfits.probs, (List.getElem?_eq_some_iff.mp hbyte).1, hfits.callPos, hfits.jumpPos⟩, rfl, rfl⟩
  · obtain rfl := Except.ok.inj h
    exact ⟨id, rfl, rfl⟩

theorem bit_keeps {context : Nat} {b : Bool} (h : st.bit streams context = .ok (b, st')) : Keeps streams st st' := by
  unfold Bcj2State.bit at h
  obtain ⟨st₁, hnormal, h⟩ := Except.bind_eq_ok.mp h
  refine (normalize_keeps hnormal).trans ?_
  split at h
  · cases h
  · simp only at h
    split at h
    · obtain ⟨rfl, rfl⟩ := Prod.mk.inj (Except.ok.inj h)
      exact ⟨fun hfits => ⟨(List.length_set).trans hfits.probs, hfits.rcPos, hfits.callPos, hfits.jumpPos⟩, rfl, rfl⟩
    · obtain ⟨rfl, rfl⟩ := Prod.mk.inj (Except.ok.inj h)
      exact ⟨fun hfits => ⟨(List.length_set).trans hfits.probs, hfits.rcPos, hfits.callPos, hfits.jumpPos⟩, rfl, rfl⟩

theorem target_keeps {call : Bool} {rel : UInt32} (h : st.target streams call = .ok (rel, st')) : Keeps streams st st' := by
  unfold target at h
  cases call with
  | true =>
    simp only [if_true] at h
    split at h
    · cases h
    next hlong =>
    obtain ⟨rfl, rfl⟩ := Prod.mk.inj (Except.ok.inj h)
    rw [List.length_take, List.length_drop] at hlong
    exact ⟨fun hfits => ⟨hfits.probs, hfits.rcPos, by show st.callPos + 4 ≤ _; omega, hfits.jumpPos⟩, rfl, rfl⟩
  | false =>
    simp only [Bool.false_eq_true, if_false] at h
    split at h
    · cases h
    next hlong =>
    obtain ⟨rfl, rfl⟩ := Prod.mk.inj (Except.ok.inj h)
    rw [List.length_take, List.length_drop] at hlong
    exact ⟨fun hfits => ⟨hfits.probs, hfits.rcPos, hfits.callPos, by show st.jumpPos + 4 ≤ _; omega⟩, rfl, rfl⟩

theorem byte_keeps {b : Byte} {bytes : List Byte} (h : st.byte streams b = .ok (bytes, st')) : Keeps streams st st' := by
  have hfirst : Keeps streams st { st with ip := st.ip + 1, prev := b } :=
    ⟨fun hfits => ⟨hfits.probs, hfits.rcPos, hfits.callPos, hfits.jumpPos⟩, rfl, rfl⟩
  unfold byte at h
  simp only at h
  split at h
  · obtain ⟨rfl, rfl⟩ := Prod.mk.inj (Except.ok.inj h)
    exact hfirst
  · obtain ⟨⟨converted, st₁⟩, hbit, h⟩ := Except.bind_eq_ok.mp h
    have hsecond := hfirst.trans (bit_keeps hbit)
    simp only at h
    split at h
    · obtain ⟨⟨rel, st₂⟩, htarget, h⟩ := Except.bind_eq_ok.mp h
      have hthird := hsecond.trans (target_keeps htarget)
      obtain ⟨rfl, rfl⟩ := Prod.mk.inj (Except.ok.inj h)
      exact ⟨fun hfits => ⟨(hthird.fits hfits).probs, (hthird.fits hfits).rcPos, (hthird.fits hfits).callPos,
        (hthird.fits hfits).jumpPos⟩, hthird.pending, hthird.finished⟩
    · obtain ⟨rfl, rfl⟩ := Prod.mk.inj (Except.ok.inj h)
      exact hsecond

/-- The state stands for the output `out` of the main stream `rest` to come. -/
structure Stands (streams : Bcj2Streams) (st : Bcj2State) (rest out : List Byte) : Prop where
  fits : Fits streams st
  decoded : ∃ more st', decodeAll streams rest { st with pending := [] } = .ok (more, st') ∧ out = st.pending ++ more

theorem stands_nil {out : List Byte} (h : Stands streams st [] out) : out = st.pending := by
  obtain ⟨more, st', hdecoded, hout⟩ := h.decoded
  obtain ⟨rfl, _⟩ := Prod.mk.inj (Except.ok.inj hdecoded)
  rw [hout, List.append_nil]

/-- The loop of a call: what it writes is the first of what the state stands for. -/
theorem loop_stands (input : List Byte) : ∀ (room : Nat) {st : Bcj2State} {tail out : List Byte},
    Stands streams st (input ++ tail) out →
    ∃ n produced st' out', st.loop streams input room = .ok (n, produced, st') ∧ n ≤ input.length ∧
      Stands streams st' ((input ++ tail).drop n) out' ∧ out = produced ++ out' ∧ st'.finished = st.finished ∧
      (st.pending = [] → 0 < room → input ≠ [] → 0 < n) := by
  induction input with
  | nil =>
    intro room st tail out h
    exact ⟨0, [], st, out, rfl, Nat.le_refl 0, h, rfl, rfl, fun _ _ hne => absurd rfl hne⟩
  | cons b input ih =>
    intro room st tail out h
    rw [loop]
    by_cases hgo : st.pending = [] ∧ 0 < room
    · obtain ⟨hpending, hroom⟩ := hgo
      rw [if_pos ⟨hpending, hroom⟩]
      obtain ⟨more, last, hdecoded, hout⟩ := h.decoded
      have hsame : ({ st with pending := [] } : Bcj2State) = st := by rw [← hpending]
      rw [hsame, List.cons_append, decodeAll] at hdecoded
      obtain ⟨⟨bytes, st₁⟩, hbyte, hdecoded⟩ := Except.bind_eq_ok.mp hdecoded
      obtain ⟨⟨out₁, last'⟩, hmore, hdecoded⟩ := Except.bind_eq_ok.mp hdecoded
      obtain ⟨rfl, rfl⟩ := Prod.mk.inj (Except.ok.inj hdecoded)
      have hkeeps := byte_keeps hbyte
      have hfits := hkeeps.fits h.fits
      have hclear : ({ st₁ with pending := [] } : Bcj2State) = st₁ := by rw [← hpending, ← hkeeps.pending]
      have hstands : Stands streams { st₁ with pending := bytes.drop (room - 1) } (input ++ tail)
          (bytes.drop (room - 1) ++ out₁) :=
        ⟨⟨hfits.probs, hfits.rcPos, hfits.callPos, hfits.jumpPos⟩, out₁, last', by
          show decodeAll streams (input ++ tail) { st₁ with pending := [] } = _
          rw [hclear]
          exact hmore, rfl⟩
      obtain ⟨n, produced, st', out', hloop, hn, hstands', hpaid, hfinished, _⟩ :=
        ih (room - 1 - bytes.length) hstands
      refine ⟨n + 1, b :: bytes.take (room - 1) ++ produced, st', out', ?_, Nat.succ_le_succ hn, hstands', ?_,
        hfinished.trans hkeeps.finished, fun _ _ _ => Nat.succ_pos n⟩
      · rw [hbyte]
        show (loop streams input (room - 1 - bytes.length) { st₁ with pending := bytes.drop (room - 1) } >>= _) = _
        rw [hloop]
        rfl
      · rw [hout, hpending, List.append_assoc, ← hpaid, List.nil_append, List.cons_append, ← List.append_assoc,
          List.cons_append, List.take_append_drop]
        rfl
    · rw [if_neg hgo]
      exact ⟨0, [], st, out, rfl, Nat.zero_le _, h, rfl, rfl, fun hpending hroom _ => absurd ⟨hpending, hroom⟩ hgo⟩

end Bcj2State

namespace Bcj2Decompressor

variable {streams : Bcj2Streams}

/-- A decoder that is fed, with the rest of the main stream and what it owes. -/
structure Owed (streams : Bcj2Streams) (d : Bcj2Decompressor) (rest out : List Byte) : Prop where
  streams_eq : d.streams = streams
  stands : Bcj2State.Stands streams d.state rest out
  last : d.state.finished = true → rest = []

/-- The end is still to be told. -/
def untold (d : Bcj2Decompressor) : Nat := if d.state.finished then 0 else 1

/-- The call that is given no input: none is left. -/
theorem decompress_last {d : Bcj2Decompressor} {out : List Byte} {room : Nat} (h : Owed streams d [] out) (hroom : 0 < room) :
    ∃ r d' out', asCall decompress d [] room = .ok (r, d') ∧ Pays (Owed streams) untold d [] [] out r d' out' := by
  obtain rfl := Bcj2State.stands_nil h.stands
  have hfits := h.stands.fits
  refine ⟨_, _, d.state.pending.drop (min d.state.pending.length room), rfl, Nat.le_refl 0, ?_, fun hended => ⟨?_, rfl⟩,
    fun _ => ⟨h.streams_eq, ⟨⟨hfits.probs, hfits.rcPos, hfits.callPos, hfits.jumpPos⟩, [], _, rfl, ?_⟩, fun _ => rfl⟩,
    ?_, fun hended => .inr (.inl ?_)⟩
  · simp only [List.append_nil]
    exact (List.take_append_drop _ _).symm
  · simp only [List.isEmpty_nil, if_true, true_and] at hended
    split at hended
    · next hnothing => exact hnothing
    · cases hended
  · exact (List.append_nil _).symm
  · exact Nat.zero_le _
  · simp only [List.isEmpty_nil, if_true, true_and] at hended
    split at hended
    · cases hended
    next hsome =>
    rw [List.drop_eq_nil_iff] at hsome
    simp only [List.append_nil, List.length_take]
    omega

/-- A call that is given input. -/
theorem decompress_input {d : Bcj2Decompressor} {input tail out : List Byte} {room : Nat}
    (h : Owed streams d (input ++ tail) out) (hinput : input ≠ []) (hroom : 0 < room) :
    ∃ r d' out', asCall decompress d input room = .ok (r, d') ∧
      Pays (Owed streams) untold d (input ++ tail) input out r d' out' := by
  have hfits := h.stands.fits
  have hrunning : d.state.finished = false := by
    cases hf : d.state.finished with
    | false => rfl
    | true => exact absurd (List.append_eq_nil_iff.mp (h.last hf)).1 hinput
  obtain ⟨more, last, hdecoded, hout⟩ := h.stands.decoded
  have hwritten : Bcj2State.Stands streams { d.state with pending := d.state.pending.drop (min d.state.pending.length room) }
      (input ++ tail) (d.state.pending.drop (min d.state.pending.length room) ++ more) :=
    ⟨⟨hfits.probs, hfits.rcPos, hfits.callPos, hfits.jumpPos⟩, more, last, hdecoded, rfl⟩
  obtain ⟨n, produced, st, out', hloop, hn, hstands, hpaid, hfinished, hprogress⟩ :=
    Bcj2State.loop_stands input (room - min d.state.pending.length room) hwritten
  have hgoing : st.finished = false := hfinished.trans hrunning
  have hcall : asCall decompress d input room = .ok ({
      consumed := n
      produced := d.state.pending.take (min d.state.pending.length room) ++ produced
      ended := false }, { d with state := st }) := by
    unfold asCall decompress
    simp only
    rw [h.streams_eq, hloop]
    simp only [bind, Except.bind, List.isEmpty_iff, hinput, if_false, hgoing, Bool.false_eq_true, false_and]
    rfl
  refine ⟨_, _, out', hcall, hn, ?_, fun hended => absurd hended Bool.false_ne_true,
    fun _ => ⟨h.streams_eq, hstands, fun hf => Bool.noConfusion (hf.symm.trans hgoing)⟩, ?_, fun _ => ?_⟩
  · rw [hout, List.append_assoc, ← hpaid, ← List.append_assoc, List.take_append_drop]
  · unfold untold
    rw [hgoing, hrunning]
  · by_cases hfull : d.state.pending.length < room
    · have hnothing : d.state.pending.drop (min d.state.pending.length room) = [] := List.drop_eq_nil_iff.mpr (by omega)
      exact .inl (hprogress hnothing (by omega) hinput)
    · refine .inr (.inl ?_)
      simp only [List.length_append, List.length_take]
      omega

/-- Every call writes the first of what is owed. -/
theorem decompress_owes : Owes (asCall decompress) (Owed streams) untold := by
  rintro d rest input out room h ⟨tail, rfl⟩ hall hroom
  by_cases hinput : input = []
  · have hrest := hall hinput
    obtain ⟨rfl, rfl⟩ := List.append_eq_nil_iff.mp hrest
    exact decompress_last h hroom
  · exact decompress_input h hinput hroom

/-- A checkpoint is restored to the state it was taken of. -/
theorem restore_checkpoint {d : Bcj2Decompressor} {rest out : List Byte} (h : Owed streams d rest out)
    (fresh : Bcj2Decompressor) (hfresh : fresh.streams = streams) (a b : Nat) :
    ∃ cp, d.checkpoint a b = .ok (some cp) ∧ fresh.restore cp = .ok d := by
  have hfits := h.stands.fits
  refine ⟨_, rfl, ?_⟩
  have hsame : ({ streams, state := d.state } : Bcj2Decompressor) = d := by rw [← h.streams_eq]
  unfold restore
  simp only
  rw [hfresh, if_neg, hsame]
  rintro (hbad | hbad | hbad | hbad)
  · exact hbad hfits.probs
  · exact Nat.not_lt.mpr hfits.rcPos hbad
  · exact Nat.not_lt.mpr hfits.callPos hbad
  · exact Nat.not_lt.mpr hfits.jumpPos hbad

/-- What a test encoder makes of any data, converting the targets it is told to, is decoded to the
data, in any cuts; and so is what is left of it after a checkpoint that is restored at any time. -/
theorem bcj2_round_trip (data : List Byte) (convert : Nat → Bool) :
    ∃ d, new (bcj2Encode data convert).2 = .ok d ∧
      (∀ cuts, EndsAs (asCall decompress) (bcj2Encode data convert).1 cuts d
        { outcome := none, consumed := (bcj2Encode data convert).1.length, output := data }) ∧
      ∀ n cuts g, feed (asCall decompress) (bcj2Encode data convert).1 n cuts
          { state := d, consumed := 0, output := [] } = .going g →
        ∀ compressedOffset uncompressedOffset : Nat,
          ∃ cp s left, g.state.checkpoint compressedOffset uncompressedOffset = .ok (some cp) ∧
            d.restore cp = .ok s ∧ data = g.output ++ left ∧
            ∀ cuts', EndsAs (asCall decompress) ((bcj2Encode data convert).1.drop g.consumed) cuts' s
              { outcome := none, consumed := (bcj2Encode data convert).1.length - g.consumed, output := left } := by
  obtain ⟨st, st', hinitial, hpending, hfinished, hdecoded⟩ := bcj2Encode_decodes data convert
  generalize bcj2Encode data convert = encoded at hinitial hdecoded ⊢
  obtain ⟨main, streams⟩ := encoded
  simp only at hinitial hdecoded ⊢
  have hnew : new streams = .ok { streams, state := st } := by
    unfold new
    rw [hinitial]
    rfl
  have hclear : ({ st with pending := [] } : Bcj2State) = st := by rw [← hpending]
  have hstands : Bcj2State.Stands streams st main data := by
    refine ⟨Bcj2State.initial_fits hinitial, data, st', ?_, ?_⟩
    · rw [hclear]
      exact hdecoded
    · rw [hpending, List.nil_append]
  have howing : Owing (Owed streams) main data { state := { streams, state := st }, consumed := 0, output := [] } :=
    ⟨Nat.zero_le _, data, ⟨rfl, hstands, fun hf => Bool.noConfusion (hf.symm.trans hfinished)⟩, rfl⟩
  refine ⟨_, hnew, fun cuts => decompress_owes.ends howing cuts, ?_⟩
  intro n cuts g hfeed a b
  have hg := decompress_owes.going n howing hfeed
  obtain ⟨left, howed, hdata⟩ := hg.owed
  obtain ⟨cp, hcheckpoint, hrestore⟩ := restore_checkpoint howed { streams, state := st } rfl a b
  refine ⟨cp, g.state, left, hcheckpoint, hrestore, hdata, fun cuts' => ?_⟩
  have hrest : Owing (Owed streams) (main.drop g.consumed) left { state := g.state, consumed := 0, output := [] } :=
    ⟨Nat.zero_le _, left, howed, rfl⟩
  have hends := decompress_owes.ends hrest cuts'
  rw [List.length_drop] at hends
  exact hends

end Bcj2Decompressor
end Iluvatar
