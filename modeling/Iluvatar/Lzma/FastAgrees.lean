/-
The fast path does what the resumable decoder does, symbol by symbol.

A symbol of the fast path is up to four rounds of the loop without it.  They pass through
decoders that differ from the fast one's in the phase and in what is half decoded, and end
in its own.
-/
import Iluvatar.Lzma.Slow
import Iluvatar.Lzma.Decode

namespace Iluvatar

open Except Buffer

namespace SlidingWindow

variable {w : SlidingWindow}

/-- A byte put and drained is a byte put directly. -/
theorem drainOutput_putByte (hpending : w.pendingOut = []) (b : Byte) {n : Nat} (hn : 0 < n) :
    (w.putByte b).drainOutput n = ([b], w.putByteDirect b) := by
  have hdirect : (w.putByteDirect b).pendingOut = [] := by
    rw [putByteDirect, advance_pendingOut]
    exact hpending
  have hput : (w.putByte b).pendingOut = [b] := by
    show w.pendingOut ++ [b] = [b]
    rw [hpending]
    rfl
  have hmin : min ([b] : List Byte).length n = 1 := Nat.min_eq_left hn
  rw [drainOutput, hput, hmin]
  show ([b], { w.putByteDirect b with pendingOut := [] }) = ([b], w.putByteDirect b)
  rw [← hdirect]

theorem copyBytes_eq (dist : Nat) :
    ∀ n (w : SlidingWindow), LzmaDecoder.copyBytes dist n w = copyMatch dist n w := by
  intro n
  induction n with
  | zero => intro w; rfl
  | succ n ih =>
    intro w
    rw [LzmaDecoder.copyBytes, copyMatch]
    simp only [ih]
    rfl

/-- A match copied byte by byte and drained is a match copied directly. -/
theorem Placed.copyBytes_drained (h : w.Placed) (hpending : w.pendingOut = []) {dist len n : Nat}
    (hpos : 0 < dist) (hdist : dist ≤ w.size) {bs : List Byte} {w' : SlidingWindow}
    (hcopy : w.copyMatchTo dist len = .ok (bs, w')) (hn : bs.length ≤ n) :
    ∃ w'', LzmaDecoder.copyBytes dist len w = .ok w'' ∧ w''.drainOutput n = (bs, w') ∧
      bs.length = len ∧ w'.Placed ∧ w'.size = w.size ∧ w'.pendingOut = [] := by
  obtain ⟨bytes, w₁, hbytewise, hinto⟩ := h.copyMatchInto_eq hpos hdist len
    (Nat.le_of_eq (List.length_replicate (n := len) (a := (0 : Byte))).symm)
  obtain ⟨bytes', w₂, hbytewise', hlen, hplaced, hsize⟩ := h.bytewise_ok hpos len hdist
  obtain ⟨rfl, rfl⟩ := Prod.mk.inj (Except.ok.inj (hbytewise.symm.trans hbytewise'))
  have hwhole : splice (List.replicate len 0) 0 bytes = bytes := by
    rw [splice, List.take_zero, List.nil_append, List.drop_eq_nil_of_le, List.append_nil]
    rw [List.length_replicate]
    omega
  have hsame : (bytes, w₁) = (bs, w') := by
    rw [hwhole] at hinto
    exact Except.ok.inj (hinto.symm.trans hcopy)
  obtain ⟨rfl, rfl⟩ := Prod.mk.inj hsame
  have hnone : w₁.pendingOut = [] := (bytewise_pendingOut dist len hbytewise).trans hpending
  have hwith : w.withPending [] = w := by
    rw [withPending, List.append_nil]
  have hmatch := copyMatch_eq dist len [] hbytewise
  rw [hwith, List.nil_append] at hmatch
  refine ⟨_, (copyBytes_eq dist len w).trans hmatch, ?_, hlen, hplaced, hsize, hnone⟩
  have hall : (w₁.withPending bytes).pendingOut = bytes := by
    show w₁.pendingOut ++ bytes = bytes
    rw [hnone, List.nil_append]
  rw [drainOutput, hall, hlen, Nat.min_eq_left (by omega), List.take_of_length_le (Nat.le_of_eq hlen),
    List.drop_eq_nil_of_le (Nat.le_of_eq hlen)]
  show (bytes, { w₁ with pendingOut := [] }) = (bytes, w₁)
  rw [← hnone]

end SlidingWindow

namespace LzmaDecoder

open LzmaWindow

/-- A decoder at the start of a symbol, what it copies from being in its window. -/
structure AtSymbol (d : LzmaDecoder SlidingWindow) : Prop where
  placed : d.window.Placed
  size : d.window.size = d.dictSize.toNat
  reps : d.reps.Below d.dictSize
  pending : d.window.pendingOut = []
  phase : d.phase = .newSymbol
  lenDecodeState : d.lenDecodeState = none
  distDecodeState : d.distDecodeState = none

theorem AtSymbol.coded {d : LzmaDecoder SlidingWindow} (h : d.AtSymbol) (rangeDecoder : RangeDecoder)
    (probs : List UInt16) : (d.coded rangeDecoder probs).AtSymbol :=
  ⟨h.placed, h.size, h.reps, h.pending, h.phase, h.lenDecodeState, h.distDecodeState⟩

/-- The decoder in another phase, with other parts half decoded. -/
def dress {ω : Type} (d : LzmaDecoder ω) (phase : DecodePhase) (lenDecodeState : Option LenDecodeState)
    (distDecodeState : Option DistDecodeState) : LzmaDecoder ω :=
  { d with phase, lenDecodeState, distDecodeState }

theorem AtSymbol.dress {d : LzmaDecoder SlidingWindow} (h : d.AtSymbol) :
    d.dress .newSymbol none none = d := by
  rw [LzmaDecoder.dress, ← h.phase]
  have hlen := h.lenDecodeState
  have hdist := h.distDecodeState
  cases d
  cases hlen
  cases hdist
  rfl

/-- The loop comes from `c` to `c'` in `k` rounds, as far as what comes after can tell. -/
def Leads {ω : Type} [LzmaWindow ω] (k : Nat) (c c' : Cursor ω) : Prop :=
  ∀ n, decodeLoopSlow (k + (n + 1)) c = decodeLoopSlow (n + 1) c'

theorem Leads.refl {ω : Type} [LzmaWindow ω] (c : Cursor ω) : Leads 0 c c := by
  intro n
  rw [Nat.zero_add]

theorem Leads.trans {ω : Type} [LzmaWindow ω] {k k' : Nat} {c c' c'' : Cursor ω} (h : Leads k c c')
    (h' : Leads k' c' c'') : Leads (k + k') c c'' := by
  intro n
  have hrest := h' n
  rw [← hrest, ← Nat.add_assoc k' n 1, ← h (k' + n), Nat.add_assoc k k', Nat.add_assoc k' n 1]

/-- A round that goes on. -/
theorem Leads.round {c c' : Cursor SlidingWindow} (hpending : c.decoder.window.pendingOut = [])
    (h : decodePhaseSlow c = .ok (none, c')) : Leads 1 c c' := by
  intro n
  rw [Nat.add_comm 1, decodeLoopSlow, decodeOnceSlow]
  have hnone : ¬ 0 < pendingLen c.decoder.window := by
    show ¬ 0 < c.decoder.window.pendingOut.length
    rw [hpending]
    exact Nat.lt_irrefl 0
  rw [if_neg hnone, h]
  rfl

/-- A round begins with draining; where there is room left, it goes on as from there. -/
theorem Leads.drain {c : Cursor SlidingWindow} (hsome : 0 < c.decoder.window.pendingOut.length)
    (hdrained : c.drain.decoder.window.pendingOut = []) (hroom : c.drain.out.length < c.drain.room) :
    Leads 0 c c.drain := by
  intro n
  have hnone : ¬ 0 < pendingLen c.drain.decoder.window := by
    show ¬ 0 < c.drain.decoder.window.pendingOut.length
    rw [hdrained]
    exact Nat.lt_irrefl 0
  have hsome : 0 < pendingLen c.decoder.window := hsome
  have hsame : decodeOnceSlow c = decodeOnceSlow c.drain := by
    rw [decodeOnceSlow, decodeOnceSlow, if_neg hnone, if_pos hsome]
    simp only
    rw [if_neg (by omega)]
  rw [Nat.zero_add, decodeLoopSlow, decodeLoopSlow, hsame]

/-! ## The copies -/

section

variable {d : LzmaDecoder SlidingWindow} {input out : List Byte} {room : Nat}

/-- What a symbol of the fast path leaves, its status being the phase. -/
def finished {ω : Type} (s : FastSymbol ω) : LzmaDecoder ω :=
  match s.finish with
  | some status => { s.decoder with phase := .finished status }
  | none => s.decoder

/-- A symbol of the fast path that the slow loop gets to in up to four rounds. -/
structure Reaches (c : Cursor SlidingWindow) (s : FastSymbol SlidingWindow) : Prop where
  leads : ∃ k, Leads k c { c with decoder := finished s, input := s.input, out := c.out ++ s.written }
  atSymbol : s.decoder.AtSymbol

theorem Reaches.before {c c' : Cursor SlidingWindow} {s : FastSymbol SlidingWindow} {k : Nat}
    (hround : Leads k c c') (h : Reaches c' s) (hout : c'.out = c.out) (hroom : c'.room = c.room) :
    Reaches c s := by
  obtain ⟨k', hleads⟩ := h.leads
  refine ⟨⟨k + k', hround.trans ?_⟩, h.atSymbol⟩
  rw [hout, hroom] at hleads
  exact hleads

/-- The copy of a match. -/
theorem emitMatch_reaches (h : d.AtSymbol) {dist : UInt32} {len : Nat} {s : FastSymbol SlidingWindow}
    (hdist : dist.toNat < d.dictSize.toNat) (hemit : d.emitMatch input dist len = .ok s)
    (hfits : out.length + s.written.length ≤ room) :
    Reaches { decoder := d.dress (.copyMatch dist (d.actualLen len)) none none, input, out, room } s := by
  obtain ⟨⟨bs, w'⟩, hcopy, hs⟩ := bind_eq_ok.mp hemit
  obtain rfl := Except.ok.inj hs
  have hsize := h.size
  have hbs : out.length + bs.length ≤ room := hfits
  obtain ⟨w'', hbytes, hdrain, hlen, hplaced, hsize', hnone⟩ := h.placed.copyBytes_drained h.pending
    (Nat.succ_pos dist.toNat) (by omega) hcopy (by omega : bs.length ≤ room - out.length)
  have hafter : AtSymbol { d with window := w', decodedSize := d.decodedSize + d.actualLen len } :=
    ⟨hplaced, hsize'.trans hsize, h.reps, hnone, h.phase, h.lenDecodeState, h.distDecodeState⟩
  refine ⟨⟨1, Leads.round h.pending ?_⟩, hafter⟩
  have hmin : min (d.actualLen len) (room - out.length) = d.actualLen len := Nat.min_eq_left (by omega)
  show decodeCopyMatch { decoder := d.dress (.copyMatch dist (d.actualLen len)) none none, input, out, room }
    dist (d.actualLen len) = _
  unfold decodeCopyMatch
  have hdrain : LzmaWindow.drainOutput w'' (room - out.length) = (bs, w') := hdrain
  have hbytes : copyBytes (dist.toNat + 1) (d.actualLen len)
      (d.dress (.copyMatch dist (d.actualLen len)) none none).window = .ok w'' := hbytes
  simp only [hmin, hbytes, bind, Except.bind, Nat.sub_self, Cursor.drain, hdrain]
  rw [if_neg (Nat.lt_irrefl 0)]
  have hself := hafter.dress
  show Except.ok (none, Cursor.mk
    (LzmaDecoder.dress { d with window := w', decodedSize := d.decodedSize + d.actualLen len }
      .newSymbol none none) input (out ++ bs) room) = _
  rw [hself]
  rfl

/-- The length and the copy of a rep match. -/
theorem fastRepMatch_reaches (h : d.AtSymbol) {posState : Nat} {matchType : MatchType}
    (hrep : matchType ≠ .simple) {s : FastSymbol SlidingWindow}
    (hfast : d.fastRepMatch posState input = .ok s) (hfits : out.length + s.written.length ≤ room) :
    Reaches { decoder := d.startRepLength matchType posState, input, out, room } s := by
  obtain ⟨⟨len, d₁, rest⟩, hlen, hemit⟩ := bind_eq_ok.mp hfast
  obtain ⟨rangeDecoder, probs, rfl, hslow⟩ := fastLen_codedAs true hlen
  have hd : AtSymbol { d with state := updateStateRep d.state } :=
    ⟨h.placed, h.size, h.reps, h.pending, h.phase, h.lenDecodeState, h.distDecodeState⟩
  have hafter := hd.coded rangeDecoder probs
  refine Reaches.before (k := 1) (Leads.round h.pending ?_) (emitMatch_reaches hafter hafter.reps.r0 hemit hfits)
    rfl rfl
  have hchoice := hslow (LzmaDecoder.dress { d with state := updateStateRep d.state }
    (.matchLength matchType) none d.distDecodeState) ⟨rfl, rfl⟩
  have hlength : (d.startRepLength matchType posState).decodeLength input =
      .ok (Resumed.mk (some len) ((LzmaDecoder.dress { d with state := updateStateRep d.state }
        (.matchLength matchType) none d.distDecodeState).coded rangeDecoder probs) rest) := hchoice
  show (do
    return Cursor.resume { decoder := d.startRepLength matchType posState, input, out, room }
      (← (d.startRepLength matchType posState).decodeLength input)
      fun len c => { c with decoder := c.decoder.afterLength matchType len }) = _
  rw [hlength]
  have hdist := h.distDecodeState
  cases matchType with
  | simple => exact absurd rfl hrep
  | _ =>
    rw [hdist]
    rfl

theorem AtSymbol.withPhase (h : d.AtSymbol) (phase : DecodePhase) :
    d.dress phase none none = { d with phase } := by
  rw [LzmaDecoder.dress]
  have hlen := h.lenDecodeState
  have hdist := h.distDecodeState
  cases d
  cases hlen
  cases hdist
  rfl

/-- A new distance at the front. -/
theorem AtSymbol.withDistance (h : d.AtSymbol) {dist : UInt32} (hdist : dist.toNat < d.dictSize.toNat) :
    AtSymbol { d with reps := { d.reps with r0 := dist } } :=
  ⟨h.placed, h.size, ⟨hdist, h.reps.r1, h.reps.r2, h.reps.r3⟩, h.pending, h.phase, h.lenDecodeState,
    h.distDecodeState⟩

/-- A match with a distance of its own. -/
theorem fastMatch_reaches (h : d.AtSymbol) {posState : Nat} {s : FastSymbol SlidingWindow}
    (hfast : d.fastMatch posState input = .ok s) (hfits : out.length + s.written.length ≤ room) :
    Reaches (Cursor.mk { d with
      reps := d.reps.shift
      state := updateStateMatch d.state
      phase := .matchLength .simple
      lenDecodeState := some { isRep := false, posState, phase := .choice } } input out room) s := by
  obtain ⟨⟨len, d₁, rest₁⟩, hlen, hfast⟩ := bind_eq_ok.mp hfast
  obtain ⟨⟨dist, d₂, rest₂⟩, hdistance, hfast⟩ := bind_eq_ok.mp hfast
  obtain ⟨rangeDecoder₁, probs₁, rfl, hlenSlow⟩ := fastLen_codedAs false hlen
  obtain ⟨rangeDecoder₂, probs₂, rfl, hdistSlow⟩ := fastDistance_codedAs hdistance
  have hd : AtSymbol { d with reps := d.reps.shift, state := updateStateMatch d.state } :=
    ⟨h.placed, h.size, h.reps.shift, h.pending, h.phase, h.lenDecodeState, h.distDecodeState⟩
  generalize hd' : { d with reps := d.reps.shift, state := updateStateMatch d.state } = d' at *
  have hd₁ := hd.coded rangeDecoder₁ probs₁
  have hd₂ := hd₁.coded rangeDecoder₂ probs₂
  have hstate : (if kNumLenToPosStates ≤ len then kNumLenToPosStates - 1 else len) =
      min len (kNumLenToPosStates - 1) := by
    rw [kNumLenToPosStates]
    split <;> omega
  generalize min len (kNumLenToPosStates - 1) = lenState at *
  -- The length.
  have hchoice := hlenSlow (d'.dress (.matchLength .simple) none none) ⟨rfl, rfl⟩
  have hfirst : Leads 1
      (Cursor.mk (d'.dress (.matchLength .simple) (some { isRep := false, posState, phase := .choice }) none)
        input out room)
      (Cursor.mk ((d'.coded rangeDecoder₁ probs₁).dress (.matchDistance (len + kMatchMinLen) lenState) none
        (some { lenState, phase := .posSlot 1 6 })) rest₁ out room) := by
    refine Leads.round hd.pending ?_
    have hlength : (d'.dress (.matchLength .simple) (some { isRep := false, posState, phase := .choice })
        none).decodeLength input = .ok (Resumed.mk (some len)
          ((d'.dress (.matchLength .simple) none none).coded rangeDecoder₁ probs₁) rest₁) := hchoice
    show (do
      return Cursor.resume (Cursor.mk (d'.dress (.matchLength .simple)
          (some { isRep := false, posState, phase := .choice }) none) input out room)
        (← (d'.dress (.matchLength .simple) (some { isRep := false, posState, phase := .choice })
          none).decodeLength input)
        fun len c => { c with decoder := c.decoder.afterLength MatchType.simple len }) = _
    rw [hlength, ← hstate]
    rfl
  -- The distance.
  have hslot := hdistSlow ((d'.coded rangeDecoder₁ probs₁).dress
    (.matchDistance (len + kMatchMinLen) lenState) none none) ⟨rfl, rfl⟩
  have hsecond : Leads 1
      (Cursor.mk ((d'.coded rangeDecoder₁ probs₁).dress (.matchDistance (len + kMatchMinLen) lenState) none
        (some { lenState, phase := .posSlot 1 6 })) rest₁ out room)
      (Cursor.mk ((((d'.coded rangeDecoder₁ probs₁).coded rangeDecoder₂ probs₂).dress
        (.matchDistance (len + kMatchMinLen) lenState) none none).afterDistance (len + kMatchMinLen) dist)
        rest₂ out room) := by
    refine Leads.round hd.pending ?_
    show (do
      return Cursor.resume (Cursor.mk ((d'.coded rangeDecoder₁ probs₁).dress
          (.matchDistance (len + kMatchMinLen) lenState) none (some { lenState, phase := .posSlot 1 6 }))
          rest₁ out room)
        (← ((d'.coded rangeDecoder₁ probs₁).dress (.matchDistance (len + kMatchMinLen) lenState) none
          (some { lenState, phase := .posSlot 1 6 })).decodeDistance rest₁)
        fun dist c => { c with decoder := c.decoder.afterDistance (len + kMatchMinLen) dist }) = _
    have hdecode : ((d'.coded rangeDecoder₁ probs₁).dress (.matchDistance (len + kMatchMinLen) lenState) none
        (some { lenState, phase := .posSlot 1 6 })).decodeDistance rest₁ =
        .ok (Resumed.mk (some dist) (((d'.coded rangeDecoder₁ probs₁).dress
          (.matchDistance (len + kMatchMinLen) lenState) none none).coded rangeDecoder₂ probs₂) rest₂) := hslot
    rw [hdecode]
    rfl
  have hstart : ({ d with
      reps := d.reps.shift
      state := updateStateMatch d.state
      phase := .matchLength .simple
      lenDecodeState := some { isRep := false, posState, phase := .choice } } : LzmaDecoder SlidingWindow) =
      d'.dress (.matchLength .simple) (some { isRep := false, posState, phase := .choice }) none := by
    have hdist := h.distDecodeState
    rw [← hd', LzmaDecoder.dress, ← hdist]
  rw [hstart]
  refine Reaches.before (hfirst.trans hsecond) ?_ rfl rfl
  -- What the distance means.
  generalize hlast : (d'.coded rangeDecoder₁ probs₁).coded rangeDecoder₂ probs₂ = d₂ at *
  simp only at hfast
  have hends : ∀ s' : FastSymbol SlidingWindow, s' =
        { decoder := d₂, input := rest₂, written := [], finish := some .finishedWithMark } →
      Reaches (Cursor.mk { d₂.dress (.matchDistance (len + kMatchMinLen) lenState) none none with
        phase := .finished .finishedWithMark } rest₂ out room) s' := by
    rintro _ rfl
    refine ⟨⟨0, ?_⟩, hd₂⟩
    have hphase := hd₂.withPhase (.finished .finishedWithMark)
    show Leads 0 (Cursor.mk (d₂.dress (.finished .finishedWithMark) none none) rest₂ out room)
      (Cursor.mk { d₂ with phase := .finished .finishedWithMark } rest₂ (out ++ []) room)
    rw [hphase, List.append_nil]
    exact Leads.refl _
  unfold afterDistance
  by_cases hmark : dist = 0xFFFFFFFF
  · rw [if_pos hmark] at hfast ⊢
    exact hends _ (Except.ok.inj hfast).symm
  · rw [if_neg hmark] at hfast ⊢
    have hsame : (d₂.dress (.matchDistance (len + kMatchMinLen) lenState) none none).dictSize ≤ dist ∨
        ¬ checkDistance (d₂.dress (.matchDistance (len + kMatchMinLen) lenState) none none).window
          dist.toNat = true ↔ d₂.dictSize ≤ dist ∨ ¬ checkDistance d₂.window dist.toNat = true := Iff.rfl
    by_cases hfar : d₂.dictSize ≤ dist ∨ ¬ checkDistance d₂.window dist.toNat = true
    · rw [if_pos hfar] at hfast
      rw [if_pos (hsame.mpr hfar)]
      exact hends _ (Except.ok.inj hfast).symm
    · rw [if_neg hfar] at hfast
      rw [if_neg (fun hf => hfar (hsame.mp hf))]
      have hnear : dist.toNat < d₂.dictSize.toNat := by
        have hle : ¬ d₂.dictSize ≤ dist := fun hle => hfar (.inl hle)
        rw [UInt32.le_iff_toNat_le] at hle
        omega
      exact emitMatch_reaches (hd₂.withDistance hnear) hnear hfast hfits

/-- A byte put directly. -/
theorem AtSymbol.withByte (h : d.AtSymbol) (b : Byte) (state : Nat) :
    AtSymbol { d with
      window := putByteDirect d.window b
      state
      decodedSize := d.decodedSize + 1 } := by
  have hsize : (d.window.putByteDirect b).size = d.window.size := SlidingWindow.advance_size _ 1
  have hpending : (d.window.putByteDirect b).pendingOut = d.window.pendingOut :=
    SlidingWindow.advance_pendingOut _ 1
  exact ⟨h.placed.putByteDirect b, hsize.trans h.size, h.reps, hpending.trans h.pending, h.phase,
    h.lenDecodeState, h.distDecodeState⟩

/-- A rep match, from its first bit on. -/
theorem fastRep_reaches (h : d.AtSymbol) (hreached : d.reachedUnpackSize = false) {posState : Nat}
    {s : FastSymbol SlidingWindow} (hfast : d.fastRep posState input = .ok s)
    (hfits : out.length + s.written.length ≤ room) (hmargin : out.length + 1 < room) :
    ∃ e rest, d.decodeRepType input posState = .ok (Resumed.mk (some ()) e rest) ∧
      Reaches (Cursor.mk e rest out room) s := by
  unfold fastRep at hfast
  unfold decodeRepType
  rw [hreached, if_neg Bool.false_ne_true]
  by_cases hempty : isEmpty d.window = true
  · rw [if_pos hempty] at hfast ⊢
    obtain rfl := Except.ok.inj hfast
    refine ⟨_, _, rfl, ⟨0, ?_⟩, h⟩
    rw [List.append_nil]
    exact Leads.refl _
  rw [if_neg hempty] at hfast ⊢
  obtain ⟨⟨b, d₁, rest₁⟩, hg0, hfast⟩ := bind_eq_ok.mp hfast
  obtain ⟨rangeDecoder₁, probs₁, rfl, hg0Slow⟩ := fastBit_codedAs hg0
  have hg0Bit := hg0Slow d ⟨rfl, rfl⟩
  have h₁ := h.coded rangeDecoder₁ probs₁
  simp only at hfast
  simp only [hg0Bit, bind, Except.bind]
  generalize hd₁ : d.coded rangeDecoder₁ probs₁ = d₁ at *
  have hstate₁ : d₁.state = d.state := by rw [← hd₁]; rfl
  by_cases hb : b = 0
  · rw [if_pos hb] at hfast ⊢
    obtain ⟨⟨isLong, d₂, rest₂⟩, hlong, hfast⟩ := bind_eq_ok.mp hfast
    obtain ⟨rangeDecoder₂, probs₂, rfl, hlongSlow⟩ := fastBit_codedAs hlong
    have hlongBit := hlongSlow d₁ ⟨rfl, rfl⟩
    have h₂ := h₁.coded rangeDecoder₂ probs₂
    rw [← hstate₁] at hlongBit
    unfold decodeRep0Long
    simp only at hfast
    simp only [hlongBit, bind, Except.bind]
    generalize d₁.coded rangeDecoder₂ probs₂ = d₂ at *
    by_cases hshort : isLong = 0
    · -- The byte of a short rep match stays in the window until the next round drains it.
      rw [if_pos hshort] at hfast ⊢
      obtain ⟨byte, hbyte, hfast⟩ := bind_eq_ok.mp hfast
      obtain rfl := Except.ok.inj hfast
      rw [hbyte]
      have hafter := h₂.withByte byte (updateStateShortRep d₂.state)
      have hroom : 0 < room - out.length := by omega
      have hdrain : LzmaWindow.drainOutput (putByte d₂.window byte) (room - out.length) =
          ([byte], putByteDirect d₂.window byte) :=
        SlidingWindow.drainOutput_putByte h₂.pending byte hroom
      have hput : (d₂.window.putByte byte).pendingOut = [byte] := by
        show d₂.window.pendingOut ++ [byte] = [byte]
        rw [h₂.pending]
        rfl
      refine ⟨_, _, rfl, ⟨0, ?_⟩, hafter⟩
      have hself := hafter.dress
      have hdrained : (Cursor.mk (LzmaDecoder.dress { d₂ with
          window := putByte d₂.window byte
          state := updateStateShortRep d₂.state
          decodedSize := d₂.decodedSize + 1 } .newSymbol none none) rest₂ out room).drain =
          Cursor.mk { d₂ with
            window := putByteDirect d₂.window byte
            state := updateStateShortRep d₂.state
            decodedSize := d₂.decodedSize + 1 } rest₂ (out ++ [byte]) room := by
        rw [← hself]
        unfold Cursor.drain
        have hdrain' : LzmaWindow.drainOutput (LzmaDecoder.dress { d₂ with
            window := putByte d₂.window byte
            state := updateStateShortRep d₂.state
            decodedSize := d₂.decodedSize + 1 } .newSymbol none none).window (room - out.length) =
            ([byte], putByteDirect d₂.window byte) := hdrain
        simp only [hdrain']
        rfl
      have hleads := @Leads.drain (Cursor.mk (LzmaDecoder.dress { d₂ with
          window := putByte d₂.window byte
          state := updateStateShortRep d₂.state
          decodedSize := d₂.decodedSize + 1 } .newSymbol none none) rest₂ out room)
        (by
          show 0 < (d₂.window.putByte byte).pendingOut.length
          rw [hput]
          exact Nat.one_pos)
        (by rw [hdrained]; exact hafter.pending)
        (by
          rw [hdrained]
          show (out ++ [byte]).length < room
          rw [List.length_append]
          exact hmargin)
      rw [hdrained] at hleads
      have hundress : LzmaDecoder.dress { d₂ with
          window := putByte d₂.window byte
          state := updateStateShortRep d₂.state
          decodedSize := d₂.decodedSize + 1 } .newSymbol none none = { d₂ with
          state := updateStateShortRep d₂.state
          window := putByte d₂.window byte
          decodedSize := d₂.decodedSize + 1
          phase := .newSymbol } := by
        have hlen := h₂.lenDecodeState
        have hdist := h₂.distDecodeState
        rw [LzmaDecoder.dress]
        cases d₂
        cases hlen
        cases hdist
        rfl
      rw [hundress] at hleads
      exact hleads
    · rw [if_neg hshort] at hfast ⊢
      exact ⟨_, _, rfl, fastRepMatch_reaches h₂ (by decide) hfast hfits⟩
  · rw [if_neg hb] at hfast ⊢
    obtain ⟨⟨b', d₂, rest₂⟩, hg1, hfast⟩ := bind_eq_ok.mp hfast
    obtain ⟨rangeDecoder₂, probs₂, rfl, hg1Slow⟩ := fastBit_codedAs hg1
    have hg1Bit := hg1Slow d₁ ⟨rfl, rfl⟩
    have h₂ := h₁.coded rangeDecoder₂ probs₂
    rw [← hstate₁] at hg1Bit
    unfold decodeRepG1
    simp only at hfast
    simp only [hg1Bit, bind, Except.bind]
    generalize hd₂ : d₁.coded rangeDecoder₂ probs₂ = d₂ at *
    have hstate₂ : d₂.state = d₁.state := by rw [← hd₂]; rfl
    have htake : ∀ {e : LzmaDecoder SlidingWindow} (f : Reps → Reps), e.AtSymbol →
        (f e.reps).Below e.dictSize → AtSymbol { e with reps := f e.reps } := fun f he hf =>
      ⟨he.placed, he.size, hf, he.pending, he.phase, he.lenDecodeState, he.distDecodeState⟩
    by_cases hb' : b' = 0
    · rw [if_pos hb'] at hfast ⊢
      exact ⟨_, _, rfl,
        fastRepMatch_reaches (htake Reps.takeRep1 h₂ h₂.reps.takeRep1) (by decide) hfast hfits⟩
    · rw [if_neg hb'] at hfast ⊢
      obtain ⟨⟨b'', d₃, rest₃⟩, hg2, hfast⟩ := bind_eq_ok.mp hfast
      obtain ⟨rangeDecoder₃, probs₃, rfl, hg2Slow⟩ := fastBit_codedAs hg2
      have hg2Bit := hg2Slow d₂ ⟨rfl, rfl⟩
      have h₃ := h₂.coded rangeDecoder₃ probs₃
      rw [← hstate₁, ← hstate₂] at hg2Bit
      unfold decodeRepG2
      simp only at hfast
      simp only [hg2Bit, bind, Except.bind]
      by_cases hb'' : b'' = 0
      · rw [if_pos hb''] at hfast
        simp only [if_pos hb'']
        exact ⟨_, _, rfl,
          fastRepMatch_reaches (htake Reps.takeRep2 h₃ h₃.reps.takeRep2) (by decide) hfast hfits⟩
      · rw [if_neg hb''] at hfast
        simp only [if_neg hb'']
        exact ⟨_, _, rfl,
          fastRepMatch_reaches (htake Reps.takeRep3 h₃ h₃.reps.takeRep3) (by decide) hfast hfits⟩

/-- The matched part of a literal, where there is a match byte. -/
theorem fastMatchedPart_codedAs {offset symbol : Nat} {d' : LzmaDecoder SlidingWindow} {rest : List Byte}
    (h : d.fastMatchedPart offset input = .ok (symbol, d', rest)) :
    ∃ matchByte, d.matchByte = .ok matchByte ∧ ∀ ls : LiteralState, ls.symbol = 1 →
      ls.matched = decide (7 ≤ d.state) → ls.matchByte = matchByte →
      CodedAs d d' fun e e' => ∃ ls', ls'.symbol = symbol ∧
        matchedPart offset ls e input = .ok { value := some ls', decoder := e', input := rest } := by
  unfold fastMatchedPart at h
  by_cases hstate : 7 ≤ d.state
  · rw [if_pos hstate] at h
    obtain ⟨matchByte, hbyte, h⟩ := bind_eq_ok.mp h
    refine ⟨matchByte, ?_, ?_⟩
    · unfold LzmaDecoder.matchByte
      rw [if_pos hstate]
      exact hbyte
    · intro ls hone hmatched hsame
      rw [← hone] at h
      refine (fastMatched_codedAs 9 _ hsame h).mono ?_
      rintro e e' ⟨ls', hsymbol, hslow⟩
      refine ⟨ls', hsymbol, ?_⟩
      have hpart : ls.matched = true ∧ ls.symbol < 0x100 := by
        rw [hmatched, hone]
        exact ⟨decide_eq_true hstate, by decide⟩
      rw [matchedPart, if_pos hpart]
      exact hslow
  · rw [if_neg hstate] at h
    simp only [Except.ok.injEq, Prod.mk.injEq] at h
    obtain ⟨rfl, rfl, rfl⟩ := h
    refine ⟨0, ?_, ?_⟩
    · unfold LzmaDecoder.matchByte
      rw [if_neg hstate]
    · intro ls hone hmatched _
      refine CodedAs.refl d fun e => ⟨ls, hone, ?_⟩
      have hpart : ¬ (ls.matched = true ∧ ls.symbol < 0x100) := by
        rw [hmatched, decide_eq_false hstate]
        exact fun hf => Bool.false_ne_true hf.1
      rw [matchedPart, if_neg hpart]

/-- A literal, once it is known to be one. -/
theorem fastLiteral_reaches (out : List Byte) (room : Nat) (h : d.AtSymbol) {s : FastSymbol SlidingWindow}
    (hfast : d.fastLiteral input = .ok s) (hmargin : out.length < room) :
    ∃ e, d.startLiteralDecode = .ok e ∧ e.window = d.window ∧ Reaches (Cursor.mk e input out room) s := by
  obtain ⟨prev, hprev, hfast⟩ := bind_eq_ok.mp hfast
  obtain ⟨⟨symbol, d₁, rest₁⟩, hmatched, hfast⟩ := bind_eq_ok.mp hfast
  obtain ⟨⟨symbol', d₂, rest₂⟩, hplain, hfast⟩ := bind_eq_ok.mp hfast
  obtain rfl := Except.ok.inj hfast
  obtain ⟨matchByte, hbyte, hpart⟩ := fastMatchedPart_codedAs hmatched
  let ls : LiteralState :=
    { symbol := 1
      litState := d.litState prev
      matched := 7 ≤ d.state
      matchByte
      offs := if 7 ≤ d.state then 0x100 else 0 }
  obtain ⟨rangeDecoder₁, probs₁, rfl, hpartSlow⟩ := hpart ls rfl rfl rfl
  have hliteral : d.startLiteralDecode = .ok (d.dress (.literal ls) none none) := by
    unfold startLiteralDecode
    rw [hprev, hbyte]
    exact congrArg Except.ok (h.withPhase (.literal ls)).symm
  obtain ⟨ls', rfl, hpartOk⟩ := hpartSlow (d.dress (.literal ls) none none) ⟨rfl, rfl⟩
  obtain ⟨rangeDecoder₂, probs₂, rfl, hplainSlow⟩ := fastPlain_codedAs 9 _ hplain
  have hplainOk := hplainSlow ((d.dress (.literal ls) none none).coded rangeDecoder₁ probs₁) ⟨rfl, rfl⟩
  have h₂ := (h.coded rangeDecoder₁ probs₁).coded rangeDecoder₂ probs₂
  have hafter := h₂.withByte (UInt8.ofNat (symbol' - 0x100)) (updateStateLiteral d.state)
  refine ⟨_, hliteral, rfl, ⟨1, Leads.round h.pending ?_⟩, hafter⟩
  have hdrain : LzmaWindow.drainOutput (putByte d.window (UInt8.ofNat (symbol' - 0x100)))
      (room - out.length) = ([UInt8.ofNat (symbol' - 0x100)], putByteDirect d.window
        (UInt8.ofNat (symbol' - 0x100))) :=
    SlidingWindow.drainOutput_putByte h.pending _ (by omega)
  show (do
    return Cursor.resume (Cursor.mk (d.dress (.literal ls) none none) input out room)
      (← (d.dress (.literal ls) none none).continueLiteralDecode input (room - out.length) ls)
      fun drained c => { c with out := c.out ++ drained }) = _
  have hcontinue : (d.dress (.literal ls) none none).continueLiteralDecode input (room - out.length) ls =
      .ok (putLiteral (((d.dress (.literal ls) none none).coded rangeDecoder₁ probs₁).coded rangeDecoder₂
        probs₂) rest₂ (room - out.length) { ls' with symbol := symbol' }) := by
    unfold continueLiteralDecode
    have hoffset : ls.litState = d.litState prev := rfl
    rw [hoffset]
    simp only [bind, Except.bind, hpartOk, hplainOk]
    rfl
  rw [hcontinue]
  have hself := hafter.dress
  unfold putLiteral
  have hdrain' : LzmaWindow.drainOutput (putByte (((d.dress (.literal ls) none none).coded rangeDecoder₁
      probs₁).coded rangeDecoder₂ probs₂).window (UInt8.ofNat (symbol' - 0x100))) (room - out.length) =
      ([UInt8.ofNat (symbol' - 0x100)], putByteDirect d.window (UInt8.ofNat (symbol' - 0x100))) := hdrain
  simp only [bind, Except.bind, hdrain']
  exact congrArg (fun e => Except.ok (none, Cursor.mk e rest₂ (out ++ [UInt8.ofNat (symbol' - 0x100)]) room))
    hself

/-- A symbol. -/
theorem fastSymbol_reaches (out : List Byte) (room : Nat) (h : d.AtSymbol) (hreached : d.reachedUnpackSize = false)
    {s : FastSymbol SlidingWindow} (hfast : d.fastSymbol input = .ok s)
    (hfits : out.length + s.written.length ≤ room) (hmargin : out.length + 1 < room) :
    Reaches (Cursor.mk d input out room) s := by
  obtain ⟨⟨b, d₁, rest₁⟩, hmatch, hfast⟩ := bind_eq_ok.mp hfast
  obtain ⟨rangeDecoder₁, probs₁, rfl, hmatchSlow⟩ := fastBit_codedAs hmatch
  have hbit := hmatchSlow d ⟨rfl, rfl⟩
  have h₁ := h.coded rangeDecoder₁ probs₁
  have hround : decodePhaseSlow (Cursor.mk d input out room) = decodeNewSymbolSlow (Cursor.mk d input out room) := by
    unfold decodePhaseSlow
    simp only [h.phase]
  have hunreached : ¬ d.reachedUnpackSize = true := by rw [hreached]; exact Bool.false_ne_true
  simp only at hfast
  by_cases hb : b = 0
  · rw [if_pos hb] at hfast
    obtain ⟨e, hliteral, _, hreaches⟩ := fastLiteral_reaches out room h₁ hfast (by omega)
    refine Reaches.before (Leads.round h.pending ?_) hreaches rfl rfl
    rw [hround]
    unfold decodeNewSymbolSlow
    simp only
    rw [if_neg hunreached, hbit]
    simp only [bind, Except.bind]
    rw [if_pos hb, hliteral]
    rfl
  · rw [if_neg hb] at hfast
    obtain ⟨⟨b', d₂, rest₂⟩, hrep, hfast⟩ := bind_eq_ok.mp hfast
    obtain ⟨rangeDecoder₂, probs₂, rfl, hrepSlow⟩ := fastBit_codedAs hrep
    have hrepBit : (d.coded rangeDecoder₁ probs₁).bit (offIsRep + (d.coded rangeDecoder₁ probs₁).state) rest₁ =
        _ := hrepSlow (d.coded rangeDecoder₁ probs₁) ⟨rfl, rfl⟩
    have h₂ := h₁.coded rangeDecoder₂ probs₂
    have hnext : ∀ e rest, (d.coded rangeDecoder₁ probs₁).decodeIsRep rest₁ d.posState =
        .ok (Resumed.mk (some ()) e rest) →
        Leads 1 (Cursor.mk d input out room) (Cursor.mk e rest out room) := by
      intro e rest hisRep
      refine Leads.round h.pending ?_
      rw [hround]
      unfold decodeNewSymbolSlow
      simp only
      rw [if_neg hunreached, hbit]
      simp only [bind, Except.bind]
      rw [if_neg hb, hisRep]
      rfl
    simp only at hfast
    by_cases hb' : b' = 0
    · rw [if_pos hb'] at hfast
      refine Reaches.before (hnext _ rest₂ ?_) (fastMatch_reaches h₂ hfast hfits) rfl rfl
      unfold decodeIsRep
      rw [hrepBit]
      simp only [bind, Except.bind]
      rw [if_pos hb']
      rfl
    · rw [if_neg hb'] at hfast
      obtain ⟨e, rest, htype, hreaches⟩ := fastRep_reaches h₂ (by exact hreached) hfast hfits hmargin
      refine Reaches.before (hnext e rest ?_) hreaches rfl rfl
      unfold decodeIsRep
      rw [hrepBit]
      simp only [bind, Except.bind]
      rw [if_neg hb']
      exact htype

/-- The fast path comes where the slow loop comes to. -/
theorem decodeFast_leads :
    ∀ fuel {c c' : Cursor SlidingWindow}, c.decoder.AtSymbol → decodeFast fuel c = .ok c' →
      (∃ k, Leads k c c') ∧ c'.decoder.window.pendingOut = [] := by
  intro fuel
  induction fuel with
  | zero => intro c c' _ h; cases h
  | succ fuel ih =>
    intro c c' h hfast
    rw [decodeFast] at hfast
    by_cases hmargin : c.input.length < inMargin ∨ c.room < c.out.length + outMargin
    · rw [if_pos hmargin] at hfast
      obtain rfl := Except.ok.inj hfast
      exact ⟨⟨0, Leads.refl c⟩, h.pending⟩
    rw [if_neg hmargin] at hfast
    by_cases hreached : c.decoder.reachedUnpackSize = true
    · rw [if_pos hreached] at hfast
      obtain rfl := Except.ok.inj hfast
      exact ⟨⟨0, Leads.refl c⟩, h.pending⟩
    rw [if_neg hreached] at hfast
    obtain ⟨s, hsymbol, hfast⟩ := bind_eq_ok.mp hfast
    by_cases hlong : c.room < c.out.length + s.written.length
    · rw [if_pos hlong] at hfast
      cases hfast
    rw [if_neg hlong] at hfast
    have hout : outMargin = 273 := rfl
    obtain ⟨⟨k, hleads⟩, hafter⟩ := fastSymbol_reaches c.out c.room h
      (by simpa using hreached) hsymbol (by omega) (by omega)
    simp only at hfast
    unfold finished at hleads
    cases hfinish : s.finish with
    | some status =>
      rw [hfinish] at hfast hleads
      obtain rfl := Except.ok.inj hfast
      exact ⟨⟨k, hleads⟩, hafter.pending⟩
    | none =>
      rw [hfinish] at hfast hleads
      obtain ⟨⟨k', hmore⟩, hnone⟩ := ih (by exact hafter) hfast
      exact ⟨⟨k + k', hleads.trans hmore⟩, hnone⟩

end

/-! ## The loop -/

open SymbolState

/-- A call under way on a sliding window, its history going along the machine. -/
def Underway (start : SymbolState) (input owed : List Byte) (room : Nat) (c : Cursor SlidingWindow) : Prop :=
  ∃ v, c.Shows v ∧ Along start input owed room v ∧ v.decoder.rcInitialized = true

/-- A new symbol on the window. -/
theorem Underway.atSymbol {start : SymbolState} {input owed : List Byte} {room : Nat}
    {c : Cursor SlidingWindow} (h : Underway start input owed room c)
    (hpending : c.decoder.window.pendingOut = []) (hphase : c.decoder.phase = .newSymbol) :
    c.decoder.AtSymbol := by
  obtain ⟨v, ⟨⟨hwf, hview⟩, _⟩, halong, _⟩ := h
  have hgood := halong.good
  have hnone : v.decoder.window.pending = [] := by
    rw [← hview]
    exact hpending
  rw [settled_of_pending hnone, ← hview] at hgood
  have hidle := hgood.phase
  have hphase' : c.decoder.view.phase = .newSymbol := hphase
  rw [hphase'] at hidle
  exact ⟨hwf.toPlaced, hgood.core.size, hgood.core.reps, hpending, hphase, hidle.1.lenDecodeState,
    hidle.1.distDecodeState⟩

/-- What a loop that stops has come to, given any fuel from some number on. -/
def SlowStops (c : Cursor SlidingWindow) (r : LzmaDecodeStatus × Cursor SlidingWindow) : Prop :=
  ∃ k, ∀ n, decodeLoopSlow (k + n) c = .ok r

theorem SlowStops.of_leads {c c' : Cursor SlidingWindow} {r : LzmaDecodeStatus × Cursor SlidingWindow}
    {k : Nat} (hleads : Leads k c c') (h : SlowStops c' r) : SlowStops c r := by
  obtain ⟨k', hstops⟩ := h
  refine ⟨k + (k' + 1), fun n => ?_⟩
  have hmore := hstops (n + 1)
  have hled := hleads (k' + n)
  rw [show k + (k' + 1) + n = k + (k' + n + 1) by omega, hled, Nat.add_assoc]
  exact hmore

/-- A round like the slow one's, and what follows. -/
theorem SlowStops.of_round {c : Cursor SlidingWindow} {r : LzmaDecodeStatus × Cursor SlidingWindow}
    (status : Option LzmaDecodeStatus) (c' : Cursor SlidingWindow) (hround : decodeOnceSlow c = .ok (status, c'))
    (hstop : ∀ s, status = some s → r = (s, c')) (hnext : status = none → SlowStops c' r) :
    SlowStops c r := by
  cases status with
  | some s =>
    refine ⟨1, fun n => ?_⟩
    rw [Nat.add_comm 1 n, decodeLoopSlow, hround, hstop s rfl]
    rfl
  | none =>
    obtain ⟨k, hstops⟩ := hnext rfl
    refine ⟨k + 1, fun n => ?_⟩
    rw [show k + 1 + n = k + n + 1 by omega, decodeLoopSlow, hround]
    exact hstops n

/-- The loop stops where the loop without the fast path does. -/
theorem decodeLoop_slow {start : SymbolState} {input owed : List Byte} {room : Nat} :
    ∀ fuel {c : Cursor SlidingWindow} {r : LzmaDecodeStatus × Cursor SlidingWindow},
      Underway start input owed room c → decodeLoop fuel c = .ok r → SlowStops c r := by
  intro fuel
  induction fuel with
  | zero => intro c r _ h; cases h
  | succ fuel ih =>
    intro c r h hloop
    rw [decodeLoop] at hloop
    obtain ⟨⟨status, c₁⟩, honce, hmore⟩ := bind_eq_ok.mp hloop
    have hstop : ∀ s, status = some s → r = (s, c₁) := by
      rintro s rfl
      exact (Except.ok.inj hmore).symm
    have hnext : status = none → SlowStops c₁ r := by
      rintro rfl
      refine ih ?_ hmore
      obtain ⟨v, hshows, halong, hinit⟩ := h
      have hround := decodeOnce_round halong hinit
      revert hround
      cases hv : decodeOnce v with
      | error e => intro hround; cases hround
      | ok r' =>
        intro hround
        obtain ⟨r'', honce', hsame, hshows'⟩ := decodeOnce_shows hshows r' hv
        obtain rfl := Except.ok.inj (honce'.symm.trans honce)
        obtain ⟨status', v'⟩ := r'
        obtain rfl : none = status' := hsame
        cases hround with
        | next halong' hinit' _ => exact ⟨v', hshows', halong', hinit'⟩
    -- The work of the round, nothing being pending.
    have hwork : ∀ e : Cursor SlidingWindow, Underway start input owed room e →
        e.decoder.window.pendingOut = [] → decodePhase e = .ok (status, c₁) → SlowStops e r := by
      intro e he hpending hphase
      have hnone : ¬ 0 < pendingLen e.decoder.window := by
        show ¬ 0 < e.decoder.window.pendingOut.length
        rw [hpending]
        exact Nat.lt_irrefl 0
      by_cases hnew : e.decoder.phase = .newSymbol
      · unfold decodePhase at hphase
        simp only [hnew] at hphase
        unfold decodeNewSymbol at hphase
        obtain ⟨e', hfast, hphase⟩ := bind_eq_ok.mp hphase
        obtain ⟨⟨k, hleads⟩, hpending'⟩ := decodeFast_leads _ (he.atSymbol hpending hnew) hfast
        have hnone' : ¬ 0 < pendingLen e'.decoder.window := by
          show ¬ 0 < e'.decoder.window.pendingOut.length
          rw [hpending']
          exact Nat.lt_irrefl 0
        refine SlowStops.of_leads hleads ?_
        by_cases hover : e'.decoder.phase ≠ .newSymbol
        · simp only [if_pos hover] at hphase
          obtain ⟨rfl, rfl⟩ := Prod.mk.inj (Except.ok.inj hphase)
          exact hnext rfl
        · simp only [if_neg hover] at hphase
          have hsame : e'.decoder.phase = .newSymbol := Decidable.not_not.mp hover
          refine SlowStops.of_round status c₁ ?_ hstop hnext
          rw [decodeOnceSlow, if_neg hnone']
          unfold decodePhaseSlow
          simp only [hsame]
          exact hphase
      · refine SlowStops.of_round status c₁ ?_ hstop hnext
        rw [decodeOnceSlow, if_neg hnone]
        unfold decodePhaseSlow
        cases hcase : e.decoder.phase with
        | newSymbol => exact absurd hcase hnew
        | _ => exact hphase
    by_cases hpending : 0 < pendingLen c.decoder.window
    · have honce' := honce
      rw [decodeOnce, if_pos hpending] at honce'
      simp only at honce'
      by_cases hfull : 0 < pendingLen c.drain.decoder.window ∨ c.drain.room ≤ c.drain.out.length
      · rw [if_pos hfull] at honce'
        refine SlowStops.of_round status c₁ ?_ hstop hnext
        rw [decodeOnceSlow, if_pos hpending]
        simp only
        rw [if_pos hfull]
        exact honce'
      · rw [if_neg hfull] at honce'
        have hempty : c.drain.decoder.window.pendingOut = [] := by
          have hle : ¬ 0 < c.drain.decoder.window.pendingOut.length := fun hlt => hfull (.inl hlt)
          exact List.length_eq_zero_iff.mp (by omega)
        have hroom : c.drain.out.length < c.drain.room := by omega
        refine SlowStops.of_leads (Leads.drain hpending hempty hroom) (hwork _ ?_ hempty honce')
        obtain ⟨v, hshows, halong, hinit⟩ := h
        exact ⟨v.drain, hshows.drain, halong.drain.1, hinit⟩
    · rw [decodeOnce, if_neg hpending] at honce
      have hempty : c.decoder.window.pendingOut = [] := by
        have hle : ¬ 0 < c.decoder.window.pendingOut.length := hpending
        exact List.length_eq_zero_iff.mp (by omega)
      exact hwork c h hempty honce

/-! ## The call -/

/-- A decoder at the start of a symbol, its range coder initialized: what it keeps in memory is
well formed, nothing is pending, and what was decoded is within the unpack size. -/
structure StartsSymbol (d : LzmaDecoder SlidingWindow) : Prop where
  wf : d.window.Wf
  good : Good d.view
  phase : d.phase = .newSymbol
  initialized : d.rcInitialized = true

/-- The state of a new decoder keeps the invariant. -/
theorem new_good (props : LzmaProperties) (dictSize : UInt32) (hlc : props.lc ≤ 8)
    (hlp : props.lp ≤ 4) (hpb : props.pb ≤ 4) :
    Good (LzmaDecoder.new props dictSize : LzmaDecoder SlidingWindow).view := by
  have hmax : (max dictSize kDicMin).toNat = max dictSize.toNat 4096 := SlidingWindow.toNat_max _ _
  have hpos : 0 < (max dictSize kDicMin).toNat := by omega
  have hzero : (0 : UInt32).toNat < (max dictSize kDicMin).toNat := hpos
  refine ⟨⟨List.length_replicate, ?_, hlc, hlp, hpb, Nat.zero_lt_succ 11, ?_, hpos, rfl, ?_⟩, ?_, ?_⟩
  · intro p hp
    rw [List.eq_of_mem_replicate hp]
    exact RangeDecoder.prob_init
  · show (SlidingWindow.new (max dictSize kDicMin)).size = (max dictSize kDicMin).toNat
    rw [SlidingWindow.new_size, hmax]
    omega
  · exact ⟨hzero, hzero, hzero, hzero⟩
  · refine ⟨⟨rfl, rfl⟩, fun unpack hunpack => ?_⟩
    cases hunpack
  · exact fun _ => ⟨Nat.zero_lt_succ 4, rfl⟩

/-- A new decoder starts a symbol once its range coder is initialized. -/
theorem new_startsSymbol (props : LzmaProperties) (dictSize : UInt32) (hlc : props.lc ≤ 8)
    (hlp : props.lp ≤ 4) (hpb : props.pb ≤ 4) :
    StartsSymbol { (LzmaDecoder.new props dictSize : LzmaDecoder SlidingWindow) with rcInitialized := true } := by
  have hnew := new_good props dictSize hlc hlp hpb
  obtain ⟨⟨hlength, hprobs, _, _, _, hstate, hsize, hdict, hpending, hreps⟩, hphase, _⟩ := hnew
  refine ⟨SlidingWindow.new_wf _, ⟨⟨hlength, hprobs, hlc, hlp, hpb, hstate, hsize, hdict, hpending, hreps⟩,
    ?_, fun h => by cases h⟩, rfl, rfl⟩
  exact ⟨⟨rfl, rfl⟩, hphase.2⟩

/-- A byte that is put in its window leaves it at the start of a symbol. -/
theorem StartsSymbol.filled {d : LzmaDecoder SlidingWindow} (h : d.StartsSymbol) (b : Byte) :
    StartsSymbol { d with window := d.window.putByteDirect b } := by
  have hview := h.wf.view_putByteDirect b
  obtain ⟨⟨hlength, hprobs, hlc, hlp, hpb, hstate, hsize, hdict, hpending, hreps⟩, hphase, hstarting⟩ := h.good
  refine ⟨h.wf.putByteDirect b, ⟨⟨hlength, hprobs, hlc, hlp, hpb, hstate, ?_, hdict, ?_, hreps⟩, ?_, hstarting⟩,
    h.phase, h.initialized⟩
  · show (d.window.putByteDirect b).view.size = d.dictSize.toNat
    rw [hview]
    exact hsize
  · show (d.window.putByteDirect b).view.pending = []
    rw [hview]
    exact hpending
  · have hnew : d.view.phase = .newSymbol := h.phase
    rw [hnew] at hphase
    show PhaseGood _ d.phase
    rw [h.phase]
    obtain ⟨⟨hlen, hdist⟩, hfits⟩ := hphase
    exact ⟨⟨hlen, hdist⟩, hfits⟩

/-- A decode call comes to the very same without its fast path, in which no read is past the
input and no write past the output. -/
theorem decode_without_fast (d : LzmaDecoder SlidingWindow) (h : d.StartsSymbol) (input : List Byte)
    (room : Nat) :
    (∃ r, d.decode input room = .ok r ∧ ∃ k, ∀ n, d.decodeSlow (k + n) input room = .ok r) ∧
      ∃ c, decodeFast (room + 1) { decoder := d, input, out := [], room } = .ok c ∧
        (∃ taken, taken ++ c.input = input) ∧ c.out.length ≤ room := by
  have hpending : d.window.pendingOut = [] := h.good.core.pending
  have hsettled : settled d.view = d.view := settled_of_pending hpending
  have hgood : Good (settled d.view) := by
    rw [hsettled]
    exact h.good
  have hshows : d.Shows d.view := ⟨h.wf, rfl⟩
  have halong : Along (settled d.view) input d.view.window.pending room
      { decoder := d.view, input, out := [], room } := along_start hgood
  have hcursor : Cursor.Shows { decoder := d, input, out := [], room }
      { decoder := d.view, input, out := [], room } := ⟨hshows, rfl, rfl, rfl⟩
  have hnone : ¬ 0 < pendingLen d.window := by
    show ¬ 0 < d.window.pendingOut.length
    rw [hpending]
    exact Nat.lt_irrefl 0
  constructor
  · obtain ⟨r, v', hdecode, _⟩ := decode_spec hgood input room
    obtain ⟨r', hdecode', _⟩ := decode_shows hshows input room _ hdecode
    refine ⟨r', hdecode', ?_⟩
    have hready : Cursor.initRange { decoder := d, input, out := [], room } =
        (true, { decoder := d, input, out := [], room }) := by
      unfold Cursor.initRange
      exact if_pos h.initialized
    have hnot : ¬ (0 < pendingLen d.window ∧ (0 < pendingLen d.window ∨ room ≤ ([] : List Byte).length)) :=
      fun hf => hnone hf.1
    unfold decode at hdecode'
    simp only at hdecode'
    rw [if_neg hnone, if_neg hnot] at hdecode'
    obtain ⟨⟨status, c⟩, hfrom, hfinish⟩ := bind_eq_ok.mp hdecode'
    unfold decodeFrom at hfrom
    rw [hready] at hfrom
    obtain ⟨k, hstops⟩ := decodeLoop_slow _ ⟨_, hcursor, halong, h.initialized⟩ hfrom
    refine ⟨k, fun n => ?_⟩
    unfold decodeSlow
    simp only
    rw [if_neg hnone, if_neg hnot]
    refine bind_eq_ok.mpr ⟨(status, c), ?_, hfinish⟩
    unfold decodeFromSlow
    rw [hready]
    exact hstops n
  · obtain ⟨v, hfast, halong', _⟩ := decodeFast_along (room + 1) _ halong h.initialized hpending h.phase
      (Nat.lt_succ_of_le (Nat.sub_le _ _))
    obtain ⟨c, hfast', hshows'⟩ := decodeFast_shows (room + 1) hcursor _ hfast
    obtain ⟨out, hrun, _⟩ := halong'.run
    refine ⟨c, hfast', ?_, ?_⟩
    · rw [hshows'.2.1]
      exact hrun.suffix hgood
    · rw [hshows'.2.2.1]
      exact halong'.fits

/-- From a window with a byte in it, with input and room enough for the fast path. -/
theorem decode_without_fast_filled :
    ∃ d : LzmaDecoder SlidingWindow, d.StartsSymbol ∧ d.window.isEmpty = false ∧
      (∃ r, d.decode (List.replicate 80 0x20) 300 = .ok r ∧
        ∃ k, ∀ n, d.decodeSlow (k + n) (List.replicate 80 0x20) 300 = .ok r) ∧
      ∃ c, decodeFast 301 { decoder := d, input := List.replicate 80 0x20, out := [], room := 300 } = .ok c ∧
        (∃ taken, taken ++ c.input = List.replicate 80 0x20) ∧ c.out.length ≤ 300 := by
  have hnew := new_startsSymbol { lc := 3, lp := 0, pb := 2 } 4096 (by decide) (by decide) (by decide)
  obtain ⟨hslow, hfast⟩ := decode_without_fast _ (hnew.filled 7) (List.replicate 80 0x20) 300
  exact ⟨_, hnew.filled 7, rfl, hslow, hfast⟩

end LzmaDecoder
end Iluvatar
