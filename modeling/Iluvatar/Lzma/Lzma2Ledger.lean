/-
What the chunks of an LZMA2 stream declare, and what is decoded of them.

The run of the frame machine is kept in a ledger: the whole chunks taken so far, the part of
the chunk under way, and how many bytes the chunks declared and did not hold.
-/
import Iluvatar.Lzma.Lzma2Decompressor

namespace Iluvatar

open Sansio

/-- The length of a chunk's header, by its control byte. -/
def headerSize (control : Byte) : Nat :=
  if control < 0x80 then 3 else if control &&& 0x40 ≠ 0 then 6 else 5

/-- The unpacked size a header declares. -/
def declaredUnpack : List Byte → Nat
  | control :: b₀ :: b₁ :: _ => (FrameState.sizeBase control ||| b₀.toNat <<< 8 ||| b₁.toNat) + 1
  | _ => 0

/-- The packed size a header declares. -/
def declaredPack (header : List Byte) : Nat :=
  match header with
  | control :: _ :: _ :: rest =>
    if control < 0x80 then declaredUnpack header
    else
      match rest with
      | b₀ :: b₁ :: _ => (b₀.toNat <<< 8 ||| b₁.toNat) + 1
      | _ => 0
  | _ => 0

/-- A chunk of a stream. -/
structure Lzma2Chunk where
  header : List Byte
  payload : List Byte

namespace Lzma2Chunk

/-- The header is complete and the payload as long as it declares. -/
structure Whole (c : Lzma2Chunk) : Prop where
  control : ∃ control rest, c.header = control :: rest ∧ control ≠ 0 ∧
    c.header.length = headerSize control
  payload : c.payload.length = declaredPack c.header

end Lzma2Chunk

/-- The bytes of chunks one after the other. -/
def chunkBytes (cs : List Lzma2Chunk) : List Byte := cs.flatMap fun c => c.header ++ c.payload

/-- The unpacked sizes that chunks declare, together. -/
def unpackSum (cs : List Lzma2Chunk) : Nat := (cs.map fun c => declaredUnpack c.header).sum

/-- The sizes of the headers and the packed sizes that chunks declare, together. -/
def packSum (cs : List Lzma2Chunk) : Nat :=
  (cs.map fun c => c.header.length + declaredPack c.header).sum

/-- A stream of whole chunks and the end control byte. -/
structure Framed (bytes : List Byte) (cs : List Lzma2Chunk) : Prop where
  whole : ∀ c ∈ cs, c.Whole
  bytes : bytes = chunkBytes cs ++ [0]

theorem chunkBytes_length {cs : List Lzma2Chunk} (h : ∀ c ∈ cs, c.Whole) :
    (chunkBytes cs).length = packSum cs := by
  induction cs with
  | nil => rfl
  | cons c cs ih =>
    have hc := (h c List.mem_cons_self).payload
    have hcs := ih fun c' hmem => h c' (List.mem_cons_of_mem c hmem)
    unfold chunkBytes packSum at hcs ⊢
    rw [List.flatMap_cons, List.length_append, List.length_append, hcs, hc, List.map_cons, List.sum_cons]

/-- A stream is framed in one way. -/
theorem Framed.unique : ∀ {bytes : List Byte} {cs cs' : List Lzma2Chunk},
    Framed bytes cs → Framed bytes cs' → cs = cs' := by
  have hsplit : ∀ (c : Lzma2Chunk) (cs : List Lzma2Chunk), chunkBytes (c :: cs) ++ [0] =
      c.header ++ (c.payload ++ (chunkBytes cs ++ [0])) := by
    intro c cs
    unfold chunkBytes
    rw [List.flatMap_cons, List.append_assoc, List.append_assoc]
  intro bytes cs
  induction cs generalizing bytes with
  | nil =>
    rintro (_ | ⟨c, cs'⟩) h h'
    · rfl
    · obtain ⟨control, rest, hheader, hzero, _⟩ := (h'.whole c List.mem_cons_self).control
      have hbytes := h'.bytes
      rw [h.bytes, hsplit, hheader] at hbytes
      exact absurd (List.cons.inj hbytes).1.symm hzero
  | cons c cs ih =>
    rintro (_ | ⟨c', cs'⟩) h h'
    · obtain ⟨control, rest, hheader, hzero, _⟩ := (h.whole c List.mem_cons_self).control
      have hbytes := h.bytes
      rw [h'.bytes, hsplit, hheader] at hbytes
      exact absurd (List.cons.inj hbytes).1.symm hzero
    · have hwhole := h.whole c List.mem_cons_self
      have hwhole' := h'.whole c' List.mem_cons_self
      obtain ⟨control, rest, hheader, _, hlength⟩ := hwhole.control
      obtain ⟨control', rest', hheader', _, hlength'⟩ := hwhole'.control
      have hbytes := h.bytes.symm.trans h'.bytes
      rw [hsplit, hsplit] at hbytes
      have hcontrol : control = control' := by
        have hfirst := hbytes
        rw [hheader, hheader'] at hfirst
        exact (List.cons.inj hfirst).1
      have hsame : c.header.length = c'.header.length := by rw [hlength, hlength', hcontrol]
      obtain ⟨hhead, hbytes⟩ := List.append_inj hbytes hsame
      have hpayload : c.payload.length = c'.payload.length := by
        rw [hwhole.payload, hwhole'.payload, hhead]
      obtain ⟨htail, hbytes⟩ := List.append_inj hbytes hpayload
      have hrest : cs = cs' := by
        have hframed : Framed (chunkBytes cs ++ [0]) cs :=
          ⟨fun c hmem => h.whole c (List.mem_cons_of_mem _ hmem), rfl⟩
        exact ih hframed ⟨fun c hmem => h'.whole c (List.mem_cons_of_mem _ hmem), hbytes⟩
      obtain ⟨header, payload⟩ := c
      obtain ⟨header', payload'⟩ := c'
      obtain rfl : header = header' := hhead
      obtain rfl : payload = payload' := htail
      rw [hrest]

namespace FrameState

open SymbolState Lzma2Decoder

/-- The header of the chunk under way. -/
structure Heads (m : FrameState) (header : List Byte) : Prop where
  control : ∃ rest, header = m.control :: rest
  nonzero : m.control ≠ 0
  length : header.length = headerSize m.control
  unpack : declaredUnpack header = m.unpackSize
  pack : declaredPack header = if m.stored then m.unpackSize else m.packSize

/-- The part taken of the chunk under way. -/
def Underway (m : FrameState) (part : List Byte) : Prop :=
  match m.state with
  | .control => part = []
  | .unpack0 => m.control ≠ 0 ∧ part = [m.control] ∧ m.unpackSize = sizeBase m.control
  | .unpack1 => m.control ≠ 0 ∧ ∃ b₀ : Byte, part = [m.control, b₀] ∧
    m.unpackSize = sizeBase m.control ||| b₀.toNat <<< 8
  | .pack0 => m.control ≠ 0 ∧ m.stored = false ∧ ∃ b₀ b₁ : Byte, part = [m.control, b₀, b₁] ∧
    m.unpackSize = (sizeBase m.control ||| b₀.toNat <<< 8 ||| b₁.toNat) + 1
  | .pack1 => m.control ≠ 0 ∧ m.stored = false ∧ ∃ b₀ b₁ b₂ : Byte, part = [m.control, b₀, b₁, b₂] ∧
    m.unpackSize = (sizeBase m.control ||| b₀.toNat <<< 8 ||| b₁.toNat) + 1 ∧
    m.packSize = b₂.toNat <<< 8
  | .prop => m.control ≠ 0 ∧ m.stored = false ∧ m.control &&& 0x40 ≠ 0 ∧ ∃ b₀ b₁ b₂ b₃ : Byte,
    part = [m.control, b₀, b₁, b₂, b₃] ∧
    m.unpackSize = (sizeBase m.control ||| b₀.toNat <<< 8 ||| b₁.toNat) + 1 ∧
    m.packSize = (b₂.toNat <<< 8 ||| b₃.toNat) + 1
  | .data => ∃ header payload, part = header ++ payload ∧ Heads m header ∧
    payload.length = if m.stored then m.chunkOutProduced else m.chunkInConsumed
  | .finished => part = [0]
  | .error => True

/-- The chunk's data has stopped before its declared size. -/
def Short (m : FrameState) : Prop :=
  m.state = .data ∧ m.stored = false ∧ (∃ status, m.decoder.phase = .finished status) ∧
    m.decoder.decodedSize < m.unpackSize

/-- The chunk's data is about to stop before its declared size. -/
def MarkerAhead (m : FrameState) : Prop := m.state = .data ∧ m.stored = false ∧ Marker m.decoder

/-- A distance of the chunk is about to stop it. -/
def StopAhead (m : FrameState) : Prop := m.state = .data ∧ m.stored = false ∧ StopsShort m.decoder

/-- What is taken, what is written, and whether some chunk stopped short. -/
structure Ledger (taken out : List Byte) (broke : Prop) (m : FrameState) : Prop where
  booked : ∃ cs part lost, taken = chunkBytes cs ++ part ∧ (∀ c ∈ cs, c.Whole) ∧ Underway m part ∧
    (m.state ≠ .error → out.length + lost = unpackSum cs + m.chunkOutProduced ∧
      ((0 < lost ∨ Short m) ↔ broke))
  idle : m.state ≠ .data → m.chunkOutProduced = 0

/-- What a step adds to the ledger. -/
def StepLedger (taken out : List Byte) (broke : Prop) (m : FrameState) (input : List Byte) :
    FrameNext → Prop
  | .move m' rest o => ∃ t, input = t ++ rest ∧
    Ledger (taken ++ t) (out ++ o) (broke ∨ MarkerAhead m ∨ StopAhead m) m'
  | _ => True

variable {taken out : List Byte} {broke : Prop} {m : FrameState}

theorem not_short {m : FrameState} (h : m.state ≠ .data) : ¬ Short m := fun hf => h hf.1

theorem nothing_ahead {m : FrameState} (h : m.state ≠ .data) : ¬ (MarkerAhead m ∨ StopAhead m) := by
  rintro (hf | hf)
  · exact h hf.1
  · exact h hf.1

/-- A step within the framing that adds a byte to the part under way. -/
theorem framing_ledger (h : Ledger taken out broke m) (houtside : m.state ≠ .data)
    (hlive : m.state ≠ .error) {m' : FrameState} {b : Byte}
    (hpart : ∀ part, Underway m part → Underway m' (part ++ [b]))
    (hproduced : m'.chunkOutProduced = m.chunkOutProduced) (hshort : ¬ Short m') :
    Ledger (taken ++ [b]) (out ++ []) (broke ∨ MarkerAhead m ∨ StopAhead m) m' := by
  obtain ⟨cs, part, lost, htaken, hwhole, hhere, hbooks⟩ := h.booked
  obtain ⟨hsum, hbroke⟩ := hbooks hlive
  refine ⟨⟨cs, part ++ [b], lost, ?_, hwhole, hpart part hhere, fun _ => ⟨?_, ?_⟩⟩, fun _ => ?_⟩
  · rw [htaken, List.append_assoc]
  · rw [List.append_nil, hproduced]
    exact hsum
  · constructor
    · rintro (hlost | hf)
      · exact .inl (hbroke.mp (.inl hlost))
      · exact absurd hf hshort
    · rintro (hf | hf)
      · exact .inl ((hbroke.mpr hf).resolve_right (not_short houtside))
      · exact absurd hf (nothing_ahead houtside)
  · rw [hproduced]
    exact h.idle houtside

theorem byteStep_ledger (h : Ledger taken out broke m) (houtside : m.state ≠ .data)
    (hlive : m.state ≠ .error) (f : Byte → FrameState → FrameState)
    (hpart : ∀ b part, Underway m part → Underway (f b m) (part ++ [b]))
    (hproduced : ∀ b, (f b m).chunkOutProduced = m.chunkOutProduced) (hshort : ∀ b, ¬ Short (f b m))
    (input : List Byte) : StepLedger taken out broke m input (byteStep m f input) := by
  cases input with
  | nil => trivial
  | cons b rest => exact ⟨[b], rfl, framing_ledger h houtside hlive (hpart b) (hproduced b) (hshort b)⟩

theorem onControl_part (hstate : m.state = .control) (b : Byte) (part : List Byte) (h : Underway m part) :
    Underway (onControl b m) (part ++ [b]) := by
  obtain ⟨hcontrol, _, _, hnext⟩ := onControl_controlled b m
  unfold Underway at h ⊢
  rw [hstate] at h
  obtain rfl : part = [] := h
  rcases hnext with ⟨hzero, hnext⟩ | ⟨hsome, hnext⟩ | ⟨hsome, hnext, hsize⟩ <;> rw [hnext]
  · show [b] = [0]
    rw [hzero]
  · trivial
  · rw [hcontrol]
    exact ⟨hsome, rfl, hsize⟩

theorem onUnpack0_part (hstate : m.state = .unpack0) (b : Byte) (part : List Byte) (h : Underway m part) :
    Underway (onUnpack0 b m) (part ++ [b]) := by
  unfold Underway at h
  rw [hstate] at h
  obtain ⟨hsome, rfl, hsize⟩ := h
  refine ⟨hsome, b, rfl, ?_⟩
  show m.unpackSize ||| b.toNat <<< 8 = _
  rw [hsize]
  rfl

theorem onUnpack1_part (hstate : m.state = .unpack1) (b : Byte)
    (part : List Byte) (h : Underway m part) : Underway (onUnpack1 b m) (part ++ [b]) := by
  unfold Underway at h
  rw [hstate] at h
  obtain ⟨hsome, b₀, rfl, hsize⟩ := h
  by_cases hstored : m.stored = true
  · have hall : onUnpack1 b m = { m with
        unpackSize := (m.unpackSize ||| b.toNat) + 1, chunkOutProduced := 0, state := .data } := if_pos hstored
    have hcontrol : m.control < 0x80 := of_decide_eq_true hstored
    rw [hall]
    refine ⟨[m.control, b₀, b], [], (List.append_nil _).symm,
      ⟨⟨[b₀, b], rfl⟩, hsome, (if_pos hcontrol).symm, ?_, ?_⟩, ?_⟩
    · show _ = (m.unpackSize ||| b.toNat) + 1
      rw [hsize]
      rfl
    · have hpack : declaredPack [m.control, b₀, b] = declaredUnpack [m.control, b₀, b] := if_pos hcontrol
      refine hpack.trans (Eq.trans ?_ (if_pos hstored).symm)
      show _ = (m.unpackSize ||| b.toNat) + 1
      rw [hsize]
      rfl
    · exact (if_pos hstored).symm
  · have hall : onUnpack1 b m = { m with
        unpackSize := (m.unpackSize ||| b.toNat) + 1, state := .pack0 } := if_neg hstored
    rw [hall]
    refine ⟨hsome, Bool.eq_false_iff.mpr hstored, b₀, b, rfl, ?_⟩
    show (m.unpackSize ||| b.toNat) + 1 = _
    rw [hsize]

theorem onPack0_part (hstate : m.state = .pack0) (b : Byte) (part : List Byte) (h : Underway m part) :
    Underway (onPack0 b m) (part ++ [b]) := by
  unfold Underway at h
  rw [hstate] at h
  obtain ⟨hsome, hpacked, b₀, b₁, rfl, hsize⟩ := h
  exact ⟨hsome, hpacked, b₀, b₁, b, rfl, hsize, rfl⟩

/-- The chunk's data begins after its header. -/
theorem prepared_part {m : FrameState} (hpacked : m.stored = false) {header : List Byte}
    (hheads : Heads m header) (propsReset : Bool) :
    Underway { m.prepareLzmaChunk propsReset with state := .data } header := by
  have hnot : ¬ m.stored = true := by
    rw [hpacked]
    exact Bool.false_ne_true
  exact ⟨header, [], (List.append_nil _).symm,
    ⟨hheads.control, hheads.nonzero, hheads.length, hheads.unpack, hheads.pack⟩, (if_neg hnot).symm⟩

theorem not_stored_control {m : FrameState} (h : m.stored = false) : ¬ m.control < 0x80 :=
  of_decide_eq_false h

theorem onPack1_part (hstate : m.state = .pack1) (b : Byte) (part : List Byte) (h : Underway m part) :
    Underway (onPack1 b m) (part ++ [b]) := by
  unfold Underway at h
  rw [hstate] at h
  obtain ⟨hsome, hpacked, b₀, b₁, b₂, rfl, hunpack, hpack⟩ := h
  have hcontrol := not_stored_control hpacked
  by_cases hprop : m.control &&& 0x40 ≠ 0
  · have hall : onPack1 b m = { m with packSize := (m.packSize ||| b.toNat) + 1, state := .prop } :=
      if_pos hprop
    rw [hall]
    refine ⟨hsome, hpacked, hprop, b₀, b₁, b₂, b, rfl, hunpack, ?_⟩
    show (m.packSize ||| b.toNat) + 1 = _
    rw [hpack]
  · unfold onPack1
    simp only [if_neg hprop]
    split
    · refine prepared_part (m := { m with packSize := (m.packSize ||| b.toNat) + 1 }) hpacked
        ⟨⟨[b₀, b₁, b₂, b], rfl⟩, hsome, ?_, ?_, ?_⟩ false
      · show _ = headerSize m.control
        unfold headerSize
        rw [if_neg hcontrol, if_neg hprop]
        rfl
      · exact hunpack.symm
      · have hnot : ¬ m.stored = true := by
          rw [hpacked]
          exact Bool.false_ne_true
        have hdeclared : declaredPack [m.control, b₀, b₁, b₂, b] = (b₂.toNat <<< 8 ||| b.toNat) + 1 :=
          if_neg hcontrol
        refine hdeclared.trans (Eq.trans ?_ (if_neg hnot).symm)
        show _ = (m.packSize ||| b.toNat) + 1
        rw [hpack]
    · trivial

theorem onProp_part (hstate : m.state = .prop) (b : Byte) (part : List Byte) (h : Underway m part) :
    Underway (onProp b m) (part ++ [b]) := by
  unfold Underway at h
  rw [hstate] at h
  obtain ⟨hsome, hpacked, hprop, b₀, b₁, b₂, b₃, rfl, hunpack, hpack⟩ := h
  have hcontrol := not_stored_control hpacked
  have hnot : ¬ m.stored = true := by
    rw [hpacked]
    exact Bool.false_ne_true
  unfold onProp
  cases LzmaProperties.fromByte b with
  | none => trivial
  | some props =>
    simp only
    split
    · trivial
    · refine prepared_part (m := { m with
          decoder := m.decoder.resetStateAndProps props, propsSet := true, stateInitialized := true })
        hpacked ⟨⟨[b₀, b₁, b₂, b₃, b], rfl⟩, hsome, ?_, ?_, ?_⟩ true
      · show _ = headerSize m.control
        unfold headerSize
        rw [if_neg hcontrol, if_pos hprop]
        rfl
      · exact hunpack.symm
      · have hdeclared : declaredPack [m.control, b₀, b₁, b₂, b₃, b] =
            (b₂.toNat <<< 8 ||| b₃.toNat) + 1 := if_neg hcontrol
        exact hdeclared.trans (hpack.symm.trans (if_neg hnot).symm)

/-- A chunk that is over is booked. -/
theorem chunk_whole {m : FrameState} {header payload : List Byte} (hheads : Heads m header)
    (hpayload : payload.length = if m.stored then m.unpackSize else m.packSize) :
    Lzma2Chunk.Whole { header, payload } := by
  obtain ⟨rest, hheader⟩ := hheads.control
  exact ⟨⟨m.control, rest, hheader, hheads.nonzero, hheads.length⟩, hpayload.trans hheads.pack.symm⟩

theorem chunkBytes_snoc (cs : List Lzma2Chunk) (c : Lzma2Chunk) :
    chunkBytes (cs ++ [c]) = chunkBytes cs ++ (c.header ++ c.payload) := by
  unfold chunkBytes
  rw [List.flatMap_append, List.flatMap_cons, List.flatMap_nil, List.append_nil]

theorem unpackSum_snoc (cs : List Lzma2Chunk) (c : Lzma2Chunk) :
    unpackSum (cs ++ [c]) = unpackSum cs + declaredUnpack c.header := by
  unfold unpackSum
  rw [List.map_append, List.sum_append, List.map_singleton, List.sum_singleton]

theorem whole_snoc {cs : List Lzma2Chunk} {c : Lzma2Chunk} (h : ∀ c ∈ cs, c.Whole) (hc : c.Whole) :
    ∀ c' ∈ cs ++ [c], c'.Whole := by
  intro c' hmem
  rcases List.mem_append.mp hmem with hmem | hmem
  · exact h c' hmem
  · obtain rfl := List.mem_singleton.mp hmem
    exact hc

/-- No chunk of stored bytes stops short. -/
theorem stored_ahead {m : FrameState} (hstored : m.stored = true) :
    ¬ Short m ∧ ¬ (MarkerAhead m ∨ StopAhead m) := by
  have hnot : ¬ m.stored = false := by
    rw [hstored]
    exact Bool.noConfusion
  refine ⟨fun hf => hnot hf.2.1, ?_⟩
  rintro (hf | hf)
  · exact hnot hf.2.1
  · exact hnot hf.2.1

theorem storedStep_ledger (h : Ledger taken out broke m) (hgood : FrameGood m) (hdata : m.state = .data)
    (hstored : m.stored = true) (input : List Byte) :
    StepLedger taken out broke m input (storedStep m input) := by
  cases input with
  | nil => trivial
  | cons b rest =>
    obtain ⟨cs, part, lost, htaken, hwhole, hhere, hbooks⟩ := h.booked
    obtain ⟨hsum, hbroke⟩ := hbooks (by rw [hdata]; simp)
    unfold Underway at hhere
    rw [hdata] at hhere
    obtain ⟨header, payload, rfl, hheads, hlength⟩ := hhere
    rw [if_pos hstored] at hlength
    have hlt := hgood.stored hdata hstored
    obtain ⟨hnotShort, hnotAhead⟩ := stored_ahead hstored
    have hsame : (0 < lost) ↔ broke ∨ MarkerAhead m ∨ StopAhead m := by
      constructor
      · exact fun hlost => .inl (hbroke.mp (.inl hlost))
      · rintro (hf | hf)
        · exact (hbroke.mpr hf).resolve_right hnotShort
        · exact absurd hf hnotAhead
    refine ⟨[b], rfl, ?_⟩
    by_cases hdone : m.unpackSize ≤ m.chunkOutProduced + 1
    · have hall : putStored b m = { m with
          decoder := { m.decoder with window := m.decoder.window.put b }
          state := .control, stateInitialized := true, chunkOutProduced := 0 } := if_pos hdone
      have hchunk : Lzma2Chunk.Whole { header, payload := payload ++ [b] } := by
        refine chunk_whole hheads ?_
        rw [if_pos hstored, List.length_append, hlength]
        show m.chunkOutProduced + 1 = m.unpackSize
        omega
      rw [hall]
      refine ⟨⟨cs ++ [{ header, payload := payload ++ [b] }], [], lost, ?_, whole_snoc hwhole hchunk, rfl,
        fun _ => ⟨?_, ?_⟩⟩, fun _ => rfl⟩
      · rw [htaken, chunkBytes_snoc, List.append_nil, List.append_assoc, List.append_assoc]
      · rw [unpackSum_snoc, List.length_append, hheads.unpack]
        show out.length + 1 + lost = unpackSum cs + m.unpackSize + 0
        omega
      · constructor
        · rintro (hlost | hf)
          · exact hsame.mp hlost
          · exact absurd hf.1 (fun hf => by cases hf)
        · exact fun hf => .inl (hsame.mpr hf)
    · have hall : putStored b m = { m with
          decoder := { m.decoder with window := m.decoder.window.put b }
          chunkOutProduced := m.chunkOutProduced + 1 } := if_neg hdone
      rw [hall]
      refine ⟨⟨cs, header ++ (payload ++ [b]), lost, ?_, hwhole, ?_, fun _ => ⟨?_, ?_⟩⟩,
        fun hf => absurd hdata hf⟩
      · rw [htaken, List.append_assoc, List.append_assoc]
      · unfold Underway
        rw [hdata]
        refine ⟨header, payload ++ [b], rfl,
          ⟨hheads.control, hheads.nonzero, hheads.length, hheads.unpack, hheads.pack⟩, ?_⟩
        refine Eq.trans ?_ (if_pos hstored).symm
        rw [List.length_append, hlength]
        rfl
      · rw [List.length_append]
        show out.length + 1 + lost = unpackSum cs + (m.chunkOutProduced + 1)
        omega
      · constructor
        · rintro (hlost | hf)
          · exact hsame.mp hlost
          · exact absurd hf (stored_ahead hstored).1
        · exact fun hf => .inl (hsame.mpr hf)

/-- Nothing is ahead in a chunk whose decoder is finished. -/
theorem finished_ahead {m : FrameState} {status : LzmaDecodeStatus} (hphase : m.decoder.phase = .finished status) :
    ¬ (MarkerAhead m ∨ StopAhead m) := by
  have hknown : ∀ {dist : UInt32}, SymbolState.knownDistance m.decoder = some dist → False := by
    intro dist hdist
    obtain ⟨len, lenState, hf, _⟩ := knownDistance_phase hdist
    rw [hphase] at hf
    cases hf
  rintro (hf | hf)
  · exact hknown hf.2.2
  · cases hf.2.2 with
    | simple hdist _ _ => exact hknown hdist
    | repeated hf _ =>
      rw [hphase] at hf
      cases hf

theorem skipStep_ledger (h : Ledger taken out broke m) (hgood : FrameGood m) (hdata : m.state = .data)
    (hpacked : m.stored = false) {status : LzmaDecodeStatus} (hphase : m.decoder.phase = .finished status)
    (input : List Byte) : StepLedger taken out broke m input (skipStep m input) := by
  have hchunk := hgood.packed hdata hpacked
  have hnot : ¬ m.stored = true := by
    rw [hpacked]
    exact Bool.false_ne_true
  obtain ⟨cs, part, lost, htaken, hwhole, hhere, hbooks⟩ := h.booked
  obtain ⟨hsum, hbroke⟩ := hbooks (by rw [hdata]; simp)
  unfold Underway at hhere
  rw [hdata] at hhere
  obtain ⟨header, payload, rfl, hheads, hlength⟩ := hhere
  rw [if_neg hnot] at hlength
  have hnotAhead := finished_ahead hphase
  have hwithin := hchunk.within
  have hcounted := hchunk.counted
  have hbound : m.decoder.decodedSize + 0 ≤ m.unpackSize := good_fits hchunk.good _ hchunk.size
  unfold skipStep
  split
  · next hdone =>
    have hwholeChunk : Lzma2Chunk.Whole { header, payload } := by
      refine chunk_whole hheads ?_
      rw [if_neg hnot, hlength]
      omega
    have hshort : Short m ↔ m.decoder.decodedSize < m.unpackSize :=
      ⟨fun hf => hf.2.2.2, fun hf => ⟨hdata, hpacked, ⟨status, hphase⟩, hf⟩⟩
    refine ⟨[], rfl, ⟨cs ++ [{ header, payload }], [], lost + (m.unpackSize - m.chunkOutProduced), ?_,
      whole_snoc hwhole hwholeChunk, rfl, fun _ => ⟨?_, ?_⟩⟩, fun _ => rfl⟩
    · rw [htaken, chunkBytes_snoc, List.append_nil]
    · rw [unpackSum_snoc, List.append_nil, hheads.unpack]
      show out.length + (lost + (m.unpackSize - m.chunkOutProduced)) = unpackSum cs + m.unpackSize + 0
      omega
    · rw [hshort] at hbroke
      constructor
      · rintro (hlost | hf)
        · left
          refine hbroke.mp ?_
          omega
        · exact absurd hf.1 (fun hf => by cases hf)
      · rintro (hf | hf)
        · left
          have := hbroke.mpr hf
          omega
        · exact absurd hf hnotAhead
  · next hmore =>
    cases input with
    | nil => trivial
    | cons b rest =>
      refine ⟨[b], rfl, ⟨cs, header ++ (payload ++ [b]), lost, ?_, hwhole, ?_, fun _ => ⟨?_, ?_⟩⟩,
        fun hf => absurd hdata hf⟩
      · rw [htaken, List.append_assoc, List.append_assoc]
      · unfold Underway
        rw [hdata]
        refine ⟨header, payload ++ [b], rfl,
          ⟨hheads.control, hheads.nonzero, hheads.length, hheads.unpack, hheads.pack⟩, ?_⟩
        refine Eq.trans ?_ (if_neg hnot).symm
        rw [List.length_append, hlength]
        rfl
      · rw [List.append_nil]
        exact hsum
      · have hsame : Short { m with chunkInConsumed := m.chunkInConsumed + 1 } ↔ Short m := Iff.rfl
        rw [hsame, hbroke]
        exact ⟨.inl, fun hf => hf.resolve_right hnotAhead⟩

/-- A chunk's decoder stops short just where something is ahead that stops it. -/
theorem inChunk_short {d : FrameState} (hgood : FrameGood d) (hdata : d.state = .data)
    (hpacked : d.stored = false) (hphase : ∀ status, d.decoder.phase ≠ .finished status)
    {slice rest out : List Byte} {e : SymbolState}
    (hstep : SymbolState.step d.decoder slice = .move e rest out) (k : Nat) :
    Short (d.inChunk e k) ↔ MarkerAhead d ∨ StopAhead d := by
  have hchunk := hgood.packed hdata hpacked
  have hkeeps := step_keeps hchunk.good slice
  rw [hstep] at hkeeps
  have hkeeps : Keeps d.decoder e out := hkeeps
  have hsize : e.unpackSize = some d.unpackSize := hkeeps.unpackSize.trans hchunk.size
  have hreachedIff : e.reachedUnpackSize = true ↔ d.unpackSize ≤ e.decodedSize := by
    unfold LzmaDecoder.reachedUnpackSize
    rw [hsize]
    exact decide_eq_true_iff
  obtain ⟨phase, hsame, _⟩ := complete_same e
  constructor
  · rintro ⟨_, _, ⟨status, hfinished⟩, hlt⟩
    have hlt : (complete e).decodedSize < d.unpackSize := hlt
    rw [hsame] at hlt
    have hlt : e.decodedSize < d.unpackSize := hlt
    have hnot : ¬ e.reachedUnpackSize = true := fun hf => Nat.not_le.mpr hlt (hreachedIff.mp hf)
    have hfinished : (complete e).phase = .finished status := hfinished
    rw [complete_of_not hnot] at hfinished
    rcases hkeeps.ends status hfinished with ⟨_, hreached⟩ | hmarker | hstop
    · obtain ⟨status', hf⟩ := hchunk.completed hreached
      exact absurd hf (hphase status')
    · exact .inl ⟨hdata, hpacked, hmarker⟩
    · exact .inr ⟨hdata, hpacked, hstop⟩
  · intro hahead
    have hboth : Breaks d.decoder ∧ Fits d.decoder 1 := by
      have hphaseGood := hchunk.good.phase
      rcases hahead with ⟨_, _, hmarker⟩ | ⟨_, _, hstop⟩
      · refine ⟨known_breaks hchunk.good hmarker (.inl rfl), ?_⟩
        obtain ⟨len, lenState, hf, _⟩ := knownDistance_phase hmarker
        rw [hf] at hphaseGood
        exact hphaseGood.2.1
      · refine ⟨stopsShort_breaks hchunk.good hstop, ?_⟩
        cases hstop with
        | simple hknown _ _ =>
          obtain ⟨len, lenState, hf, _⟩ := knownDistance_phase hknown
          rw [hf] at hphaseGood
          exact hphaseGood.2.1
        | repeated hf _ =>
          rw [hf] at hphaseGood
          exact hphaseGood.2.1
    obtain ⟨hbreaks, hfits⟩ := hboth
    obtain ⟨d', hmove, _, hfinished⟩ := hbreaks slice
    rw [hstep] at hmove
    injection hmove with hd hrest hout
    subst hd hrest hout
    have hone := hfits _ hchunk.size
    have hdecoded : e.decodedSize = d.decoder.decodedSize + 0 := hkeeps.decoded
    have hlt : e.decodedSize < d.unpackSize := by omega
    have hnot : ¬ e.reachedUnpackSize = true := fun hf => Nat.not_le.mpr hlt (hreachedIff.mp hf)
    refine ⟨hdata, hpacked, ⟨.finishedWithMark, ?_⟩, ?_⟩
    · show (complete e).phase = _
      rw [complete_of_not hnot]
      exact hfinished
    · show (complete e).decodedSize < d.unpackSize
      rw [complete_of_not hnot]
      exact hlt

theorem symbolStep_ledger (h : Ledger taken out broke m) (hgood : FrameGood m) (hdata : m.state = .data)
    (hpacked : m.stored = false) (hphase : ∀ status, m.decoder.phase ≠ .finished status)
    (input : List Byte) : StepLedger taken out broke m input (symbolStep m input) := by
  have hchunk := hgood.packed hdata hpacked
  have hnot : ¬ m.stored = true := by
    rw [hpacked]
    exact Bool.false_ne_true
  obtain ⟨cs, part, lost, htaken, hwhole, hhere, hbooks⟩ := h.booked
  obtain ⟨hsum, hbroke⟩ := hbooks (by rw [hdata]; simp)
  unfold symbolStep
  simp only
  have hstepGood := step_good hchunk.good (input.take (m.packSize - m.chunkInConsumed))
  have hwholeInput := List.take_append_drop (m.packSize - m.chunkInConsumed) input
  generalize hnext : SymbolState.step m.decoder (input.take (m.packSize - m.chunkInConsumed)) = next
    at hstepGood
  match next with
  | .need =>
    simp only
    split
    · exact ⟨[], rfl, ⟨cs, part, lost, by rw [htaken, List.append_nil], hwhole, trivial,
        fun hf => absurd rfl hf⟩, fun _ => rfl⟩
    · trivial
  | .halt (.error f) => trivial
  | .halt (.ok status) => trivial
  | .move e rest o =>
    have hkeeps := step_keeps hchunk.good (input.take (m.packSize - m.chunkInConsumed))
    rw [hnext] at hkeeps
    have hkeeps : Keeps m.decoder e o := hkeeps
    obtain ⟨t, ht⟩ := hstepGood.2.1
    have hcount : (input.take (m.packSize - m.chunkInConsumed)).length - rest.length = t.length := by
      rw [← ht, List.length_append, Nat.add_sub_cancel]
    unfold Underway at hhere
    rw [hdata] at hhere
    obtain ⟨header, payload, rfl, hheads, hlength⟩ := hhere
    rw [if_neg hnot] at hlength
    have hshort := inChunk_short hgood hdata hpacked hphase hnext
      (m.chunkInConsumed + ((input.take (m.packSize - m.chunkInConsumed)).length - rest.length))
    have hnotShort : ¬ Short m := fun hf => by
      obtain ⟨status, hf⟩ := hf.2.2.1
      exact hphase status hf
    refine ⟨t, ?_, ⟨cs, header ++ (payload ++ t), lost, ?_, hwhole, ?_, fun _ => ⟨?_, ?_⟩⟩,
      fun hf => absurd hdata hf⟩
    · rw [← List.append_assoc, ht, hwholeInput]
    · rw [htaken, List.append_assoc, List.append_assoc]
    · unfold Underway
      rw [show (m.inChunk e (m.chunkInConsumed +
        ((input.take (m.packSize - m.chunkInConsumed)).length - rest.length))).state = .data from hdata]
      refine ⟨header, payload ++ t, rfl,
        ⟨hheads.control, hheads.nonzero, hheads.length, hheads.unpack, hheads.pack⟩, ?_⟩
      refine Eq.trans ?_ (if_neg hnot).symm
      rw [List.length_append, hlength]
      show m.chunkInConsumed + t.length = m.chunkInConsumed + _
      rw [hcount]
    · have hdecoded := hkeeps.decoded
      have hcounted := hchunk.counted
      rw [List.length_append]
      show out.length + o.length + lost = unpackSum cs + e.decodedSize
      omega
    · rw [hshort]
      constructor
      · rintro (hlost | hf)
        · exact .inl (hbroke.mp (.inl hlost))
        · exact .inr hf
      · rintro (hf | hf)
        · exact .inl ((hbroke.mpr hf).resolve_right hnotShort)
        · exact .inr hf

/-- Every step keeps the ledger. -/
theorem step_ledger (h : Ledger taken out broke m) (hgood : FrameGood m) (input : List Byte) :
    StepLedger taken out broke m input (step m input) := by
  unfold step
  cases hstate : m.state with
  | finished => trivial
  | error => trivial
  | control =>
    have houtside : m.state ≠ .data := by rw [hstate]; simp
    refine byteStep_ledger h houtside (by rw [hstate]; simp) onControl (onControl_part hstate)
      (fun b => (onControl_controlled b m).produced) (fun b hf => ?_) input
    rcases (onControl_controlled b m).state with ⟨_, hnext⟩ | ⟨_, hnext⟩ | ⟨_, hnext, _⟩ <;>
      rw [Short, hnext] at hf <;> cases hf.1
  | unpack0 =>
    have houtside : m.state ≠ .data := by rw [hstate]; simp
    exact byteStep_ledger h houtside (by rw [hstate]; simp) onUnpack0 (onUnpack0_part hstate)
      (fun _ => rfl) (fun _ hf => by cases hf.1) input
  | unpack1 =>
    have houtside : m.state ≠ .data := by rw [hstate]; simp
    refine byteStep_ledger h houtside (by rw [hstate]; simp) onUnpack1 (onUnpack1_part hstate)
      (fun b => ?_) (fun b => ?_) input
    · unfold onUnpack1
      simp only
      split
      · exact (h.idle houtside).symm
      · rfl
    · unfold onUnpack1
      simp only
      split
      · next hstored => exact (stored_ahead (m := { m with
          unpackSize := (m.unpackSize ||| b.toNat) + 1, chunkOutProduced := 0, state := .data }) hstored).1
      · exact fun hf => by cases hf.1
  | pack0 =>
    have houtside : m.state ≠ .data := by rw [hstate]; simp
    exact byteStep_ledger h houtside (by rw [hstate]; simp) onPack0 (onPack0_part hstate)
      (fun _ => rfl) (fun _ hf => by cases hf.1) input
  | pack1 =>
    have houtside : m.state ≠ .data := by rw [hstate]; simp
    refine byteStep_ledger h houtside (by rw [hstate]; simp) onPack1 (onPack1_part hstate)
      (fun b => ?_) (fun b => ?_) input
    · unfold onPack1
      simp only
      split
      · rfl
      · split
        · exact (h.idle houtside).symm
        · rfl
    · unfold onPack1
      simp only
      split
      · exact fun hf => by cases hf.1
      · split
        · exact fun hf => by
            obtain ⟨status, hf⟩ := hf.2.2.1
            cases hf
        · exact fun hf => by cases hf.1
  | prop =>
    have houtside : m.state ≠ .data := by rw [hstate]; simp
    refine byteStep_ledger h houtside (by rw [hstate]; simp) onProp (onProp_part hstate)
      (fun b => ?_) (fun b => ?_) input
    · unfold onProp
      cases LzmaProperties.fromByte b with
      | none => rfl
      | some props =>
        simp only
        split
        · rfl
        · exact (h.idle houtside).symm
    · unfold onProp
      cases LzmaProperties.fromByte b with
      | none => exact fun hf => by cases hf.1
      | some props =>
        simp only
        split
        · exact fun hf => by cases hf.1
        · exact fun hf => by
            obtain ⟨status, hf⟩ := hf.2.2.1
            cases hf
  | data =>
    simp only
    split
    · next hstored => exact storedStep_ledger h hgood hstate hstored input
    · next hpacked =>
      have hpacked := Bool.eq_false_iff.mpr hpacked
      unfold packedStep
      split
      · next hphase => exact skipStep_ledger h hgood hstate hpacked hphase input
      · next hphase => exact symbolStep_ledger h hgood hstate hpacked (fun status hf => hphase status hf) input

/-- The run of the machine over a stream passes such a state. -/
def Meets (m : FrameState) (packed : List Byte) (P : FrameState → Prop) : Prop :=
  ∃ out m' rest, frameMachine.Runs m packed out m' rest ∧ P m'

/-- A run keeps the ledger, and what it met stays booked. -/
theorem runs_ledger {m' : FrameState} {input rest o : List Byte}
    (hrun : frameMachine.Runs m input o m' rest) :
    ∀ {taken out : List Byte} {broke : Prop}, Ledger taken out broke m → FrameGood m →
      ∃ taken' broke', input = taken' ++ rest ∧ Ledger (taken ++ taken') (out ++ o) broke' m' ∧
        (broke → broke') ∧ (broke' → broke ∨ Meets m input fun d => MarkerAhead d ∨ StopAhead d) := by
  induction hrun with
  | refl m input =>
    intro taken out broke h _
    refine ⟨[], broke, rfl, ?_, id, .inl⟩
    rw [List.append_nil, List.append_nil]
    exact h
  | @step m m₁ m' input input₁ rest o o' hstep hrun ih =>
    intro taken out broke h hgood
    have hmove : FrameState.step m input = .move m₁ input₁ o := hstep
    have hledger := step_ledger h hgood input
    have hgood₁ := frameMachine.good _ _ _ _ _ hgood hstep
    rw [hmove] at hledger
    obtain ⟨t, hinput, hledger⟩ := hledger
    obtain ⟨taken', broke', hinput₁, hledger', hkeep, hmet⟩ := ih hledger hgood₁
    refine ⟨t ++ taken', broke', ?_, ?_, fun hf => hkeep (.inl hf), fun hf => ?_⟩
    · rw [hinput, hinput₁, List.append_assoc]
    · rw [← List.append_assoc, ← List.append_assoc]
      exact hledger'
    · rcases hmet hf with (hf | hf) | ⟨o₂, m₂, rest₂, hrun₂, hf⟩
      · exact .inl hf
      · exact .inr ⟨[], m, input, .refl _ _, hf⟩
      · exact .inr ⟨_, m₂, rest₂, .step hstep hrun₂, hf⟩

end FrameState
end Iluvatar
