/-
Which of the tables that are read are complete canonical prefix codes: those of at most 255
described weights.  Of more, the last symbol is no byte.
-/
import Iluvatar.Zstd.HuffmanFill

namespace Iluvatar

open PrefixCode

/-- A complete canonical prefix code for a list of weights.  `filled` lists the slots in the order
in which they were written. -/
structure HuffmanTable.Canonical (t : HuffmanTable) (weights : List Byte) (filled : List Nat) : Prop where
  tableLog : t.tableLog ≤ hufTableLogMax
  size : t.entries.length = 2 ^ t.tableLog
  /-- Every slot is filled exactly once. -/
  once : filled.Perm (List.range (2 ^ t.tableLog))
  /-- The length in a slot is that of its symbol's weight. -/
  length : ∀ e ∈ t.entries, 1 ≤ e.nbBits.toNat ∧ e.nbBits.toNat ≤ t.tableLog ∧
    ∃ w : Byte, weights[e.symbol.toNat]? = some w ∧ w ≠ 0 ∧ e.nbBits.toNat = t.tableLog + 1 - w.toNat
  /-- A slot is decided by its top bits, as many as its length says. -/
  leading : ∀ i j e, t.entries[i]? = some e →
    i / 2 ^ (t.tableLog - e.nbBits.toNat) = j / 2 ^ (t.tableLog - e.nbBits.toNat) → t.entries[j]? = some e
  /-- The symbols are byte values. -/
  bytes : ∀ (s : Nat) (w : Byte), weights[s]? = some w → w ≠ 0 → s < 256
  /-- The symbols have codes, in the order of their weights and then of the symbols. -/
  codes : ∃ code : Nat → Nat,
    (∀ (s : Nat) (w : Byte), weights[s]? = some w → w ≠ 0 → code s * 2 ^ (w.toNat - 1) < 2 ^ t.tableLog ∧
      ∀ i < 2 ^ t.tableLog, (∃ e, t.entries[i]? = some e ∧ e.symbol.toNat = s) ↔ i / 2 ^ (w.toNat - 1) = code s) ∧
    ∀ (s s' : Nat) (w w' : Byte), weights[s]? = some w → weights[s']? = some w' → w ≠ 0 →
      (w.toNat < w'.toNat ∨ (w = w' ∧ s < s')) → code s * 2 ^ (w.toNat - 1) < code s' * 2 ^ (w'.toNat - 1)
  /-- The wider view has the entries. -/
  lookup : ∀ cache : UInt64, ∃ e, t.entries[cache.toNat / 2 ^ 52 / 2 ^ (hufTableLogMax - t.tableLog)]? = some e ∧
    hufLookup t.lookup cache = (e.symbol, e.nbBits.toUInt32)

/-- The weights are given 4 bits each, or their stream runs out in time. -/
def ShortDescription : List Byte → Prop
  | [] => False
  | headerByte :: data => 128 ≤ headerByte.toNat ∨ BitsRunOut (data.take headerByte.toNat)

theorem decompress_length {fuel : Nat} {data ws : List Byte} (h : decompressHuffmanWeightsFse fuel data = .ok ws) :
    ws.length ≤ 255 ↔ BitsRunOut data := by
  rcases weightsStart_cases data with ⟨text, hstart⟩ | ⟨n, table, bits, hcoded⟩
  · rw [decompress_start, hstart] at h
    cases h
  · obtain ⟨t, hbegins, hrun⟩ := hcoded.run
    rw [hrun] at h
    cases hspell : Turns.spell table (2 * fuel) t with
    | none =>
      rw [hspell] at h
      cases h
    | some ws' =>
      rw [hspell] at h
      obtain rfl := Except.ok.inj h
      rw [Turns.spell_length _ hbegins.inside hspell 254, hcoded.bitsRunOut_iff hbegins]

theorem readWeights_short {fuel : Nat} {data weights : List Byte} {consumed : Nat}
    (h : readWeights fuel data = .ok (weights, consumed)) : weights.length ≤ 255 ↔ ShortDescription data := by
  match data with
  | [] => cases h
  | headerByte :: rest =>
    unfold readWeights at h
    simp only at h
    split at h
    · next hdirect =>
      split at h
      · cases h
      · obtain ⟨rfl, _⟩ := Prod.mk.inj (Except.ok.inj h)
        have hbyte := headerByte.toNat_lt
        rw [directWeights, List.length_map, List.length_range]
        exact ⟨fun _ => .inl hdirect, fun _ => by omega⟩
    · next hdirect =>
      split at h
      · cases h
      · obtain ⟨ws, hws, h⟩ := Except.bind_eq_ok.mp h
        obtain ⟨rfl, _⟩ := Prod.mk.inj (Except.ok.inj h)
        rw [decompress_length hws]
        exact ⟨.inr, fun hshort => hshort.resolve_left hdirect⟩

theorem weight_value {weights : List Byte} {s : Nat} {w : Byte} (h : weights[s]? = some w) :
    weight (weightValues weights) s = w.toNat := by
  rw [weight, weightValues, List.getD_eq_getElem?_getD, List.getElem?_map, h]
  rfl

theorem byte_ne_zero {w : Byte} (h : w ≠ 0) : w.toNat ≠ 0 := fun hzero => h (UInt8.toNat_inj.mp hzero)

namespace HufFill.Filled

variable {tableLog : Nat} {weights : List Byte} {f : HufFill}

/-- Each slot of a full table is of a symbol. -/
theorem slot (hfills : FillsTable tableLog weights) (h : Filled tableLog weights weights.length f) {i : Nat}
    (hi : i < 2 ^ tableLog) : ∃ s w, weights[s]? = some w ∧ w ≠ 0 ∧ Holds (weightValues weights) s i ∧
      f.entries[i]? = some (entryOf tableLog weights s) := by
  rw [← hfills.total] at hi
  obtain ⟨s, hs⟩ := exists_holds _ hi
  have hlt : s < weights.length := by
    have := lt_of_weight hs.weight_ne
    rwa [weightValues, List.length_map] at this
  have hat : weights[s]? = some weights[s] := List.getElem?_eq_getElem hlt
  refine ⟨s, weights[s], hat, fun hzero => hs.weight_ne ?_, hs, h.entry s hlt i hs⟩
  rw [weight_value hat, hzero]
  rfl

theorem once (hfills : FillsTable tableLog weights) (h : Filled tableLog weights weights.length f) :
    f.filled.Perm (List.range (2 ^ tableLog)) := by
  refine (List.perm_ext_iff_of_nodup h.nodup List.nodup_range).mpr fun i => ?_
  rw [h.mem, List.mem_range]
  constructor
  · rintro ⟨s, _, hs⟩
    exact holds_lt hfills hs
  · intro hi
    obtain ⟨s, w, hat, _, hs, _⟩ := h.slot hfills hi
    exact ⟨s, (List.getElem?_eq_some_iff.mp hat).1, hs⟩

theorem entry_bits (hfills : FillsTable tableLog weights) {s : Nat} {w : Byte} (hat : weights[s]? = some w) (hw : w ≠ 0) :
    (entryOf tableLog weights s).nbBits.toNat = tableLog + 1 - w.toNat ∧ w.toNat ≤ tableLog := by
  have hmax : hufTableLogMax = 12 := rfl
  have hlog := hfills.le_max
  have hle : w.toNat ≤ tableLog := hfills.within _ (List.mem_map_of_mem (List.mem_of_getElem? hat))
  have hpos := byte_ne_zero hw
  refine ⟨?_, hle⟩
  rw [entryOf, weight_value hat]
  show (UInt8.ofNat (tableLog + 1 - w.toNat)).toNat = _
  rw [UInt8.toNat_ofNat']
  omega

theorem entry_symbol {s : Nat} (hs : s < 256) : (entryOf tableLog weights s).symbol.toNat = s := by
  show (UInt8.ofNat s).toNat = s
  rw [UInt8.toNat_ofNat']
  omega

/-- The table of at most 256 symbols. -/
theorem canonical (hfills : FillsTable tableLog weights) (h : Filled tableLog weights weights.length f)
    (hshort : weights.length ≤ 256) : (HuffmanTable.new f.entries tableLog).Canonical weights f.filled := by
  have hbyte : ∀ {s : Nat} {w : Byte}, weights[s]? = some w → s < 256 := fun hat =>
    Nat.lt_of_lt_of_le (List.getElem?_eq_some_iff.mp hat).1 hshort
  have hinside : ∀ {i : Nat} {e : HufEntry}, f.entries[i]? = some e → ∃ s w, weights[s]? = some w ∧ w ≠ 0 ∧
      Holds (weightValues weights) s i ∧ e = entryOf tableLog weights s := by
    intro i e he
    obtain ⟨hi, _⟩ := List.getElem?_eq_some_iff.mp he
    rw [h.length] at hi
    obtain ⟨s, w, hat, hw, hs, hentry⟩ := h.slot hfills hi
    exact ⟨s, w, hat, hw, hs, Option.some.inj (he.symm.trans hentry)⟩
  have hbits : ∀ e ∈ f.entries, 1 ≤ e.nbBits.toNat ∧ e.nbBits.toNat ≤ tableLog ∧
      ∃ w : Byte, weights[e.symbol.toNat]? = some w ∧ w ≠ 0 ∧ e.nbBits.toNat = tableLog + 1 - w.toNat := by
    intro e he
    obtain ⟨i, hi⟩ := List.mem_iff_getElem?.mp he
    obtain ⟨s, w, hat, hw, _, rfl⟩ := hinside hi
    obtain ⟨hlength, hle⟩ := entry_bits hfills hat hw
    have hpos := byte_ne_zero hw
    refine ⟨by omega, by omega, w, ?_, hw, hlength⟩
    rw [entry_symbol (hbyte hat)]
    exact hat
  have hcode : ∀ {s : Nat} {w : Byte}, weights[s]? = some w → w ≠ 0 →
      PrefixCode.start (weightValues weights) s / 2 ^ (w.toNat - 1) * 2 ^ (w.toNat - 1) =
        PrefixCode.start (weightValues weights) s ∧
      ∀ i, Holds (weightValues weights) s i ↔
        i / 2 ^ (w.toNat - 1) = PrefixCode.start (weightValues weights) s / 2 ^ (w.toNat - 1) := by
    intro s w hat hw
    have hweight := weight_value hat
    have hne : weight (weightValues weights) s ≠ 0 := hweight ▸ byte_ne_zero hw
    have hle : weight (weightValues weights) s ≤ tableLog := hweight ▸ (entry_bits hfills hat hw).2
    obtain ⟨code, hstart⟩ := block_aligned hfills.total hne hle
    obtain ⟨code', hiff⟩ := holds_iff hfills.total hne hle
    have hfirst := (hiff (PrefixCode.start (weightValues weights) s)).mp
      ⟨Nat.le_refl _, Nat.lt_add_of_pos_right (slots_pos hne)⟩
    rw [hweight] at hstart hiff hfirst
    refine ⟨?_, fun i => ?_⟩
    · rw [hstart, Nat.mul_div_cancel _ (Nat.two_pow_pos _)]
    · rw [hiff, hfirst]
  refine ⟨hfills.le_max, h.length, h.once hfills, hbits, ?_, fun s w hat _ => hbyte hat, ?_, ?_⟩
  · intro i j e he hsame
    obtain ⟨s, w, hat, hw, hs, rfl⟩ := hinside he
    have hpos := byte_ne_zero hw
    obtain ⟨hlength, hle⟩ := entry_bits hfills hat hw
    have hshift : tableLog - (entryOf tableLog weights s).nbBits.toNat = w.toNat - 1 := by omega
    have hlog : (HuffmanTable.new f.entries tableLog).tableLog = tableLog := rfl
    rw [hlog, hshift, ((hcode hat hw).2 i).mp hs] at hsame
    exact h.entry s (List.getElem?_eq_some_iff.mp hat).1 j (((hcode hat hw).2 j).mpr hsame.symm)
  · refine ⟨fun s => PrefixCode.start (weightValues weights) s / 2 ^ (weight (weightValues weights) s - 1), ?_, ?_⟩
    · intro s w hat hw
      obtain ⟨hback, hiff⟩ := hcode hat hw
      simp only
      rw [weight_value hat, hback]
      have hne : weight (weightValues weights) s ≠ 0 := by
        rw [weight_value hat]
        exact byte_ne_zero hw
      refine ⟨holds_lt hfills ⟨Nat.le_refl _, Nat.lt_add_of_pos_right (slots_pos hne)⟩, fun i hi => ?_⟩
      rw [← hiff]
      constructor
      · rintro ⟨e, he, hsymbol⟩
        obtain ⟨s', w', hat', _, hs', rfl⟩ := hinside he
        rw [entry_symbol (hbyte hat')] at hsymbol
        rw [← hsymbol]
        exact hs'
      · intro hs
        exact ⟨_, h.entry s (List.getElem?_eq_some_iff.mp hat).1 i hs, entry_symbol (hbyte hat)⟩
    · intro s s' w w' hat hat' hw horder
      have hw' : w' ≠ 0 := by
        rcases horder with hless | ⟨hsame, _⟩
        · rintro rfl
          exact Nat.not_lt_zero _ hless
        · exact hsame ▸ hw
      have hbefore : Before (weightValues weights) s s' := by
        rw [Before, weight_value hat, weight_value hat']
        rcases horder with hless | ⟨hsame, hlt⟩
        · exact .inl hless
        · exact .inr ⟨congrArg UInt8.toNat hsame, hlt⟩
      have hne : weight (weightValues weights) s ≠ 0 := by
        rw [weight_value hat]
        exact byte_ne_zero hw
      have hapart := hbefore.apart (lt_of_weight hne)
      have hpos := slots_pos hne
      simp only
      rw [weight_value hat, weight_value hat', (hcode hat hw).1, (hcode hat' hw').1]
      omega
  · intro cache
    exact HuffmanTable.lookup_valid (HuffmanTable.isValid_of hfills.positive hfills.le_max (Nat.le_of_eq h.length.symm)
      fun e he => ⟨(hbits e he).1, (hbits e he).2.1⟩) cache

end HufFill.Filled

/-- What a table is read from. -/
structure ReadFrom (fuel : Nat) (data : List Byte) (t : HuffmanTable) (consumed : Nat) (weights all : List Byte)
    (f : HufFill) : Prop where
  described : readWeights fuel data = .ok (weights, consumed)
  complete : completeWeights weights = .ok (t.tableLog, all)
  filled : fillTable t.tableLog all = .ok f
  table : t = HuffmanTable.new f.entries t.tableLog

theorem ReadFrom.canonical {fuel consumed : Nat} {data weights all : List Byte} {t : HuffmanTable} {f : HufFill}
    (h : ReadFrom fuel data t consumed weights all f) : t.Canonical all f.filled ↔ weights.length ≤ 255 := by
  obtain ⟨hfills, last, hlast, hall⟩ := completeWeights_fills h.complete
  obtain ⟨f', hfilled, hf⟩ := fillTable_filled hfills
  obtain rfl := Except.ok.inj (h.filled.symm.trans hfilled)
  have hlength : all.length = weights.length + 1 := by rw [hall, List.length_append, List.length_singleton]
  constructor
  · intro hcanonical
    have hbyte := hcanonical.bytes weights.length last (by rw [hall, List.getElem?_concat_length]) hlast
    omega
  · intro hshort
    rw [h.table]
    exact hf.canonical hfills (by omega)

theorem readHuffmanTable_from {fuel consumed : Nat} {data : List Byte} {t : HuffmanTable}
    (h : readHuffmanTable fuel data = .ok (t, consumed)) : ∃ weights all f, ReadFrom fuel data t consumed weights all f := by
  unfold readHuffmanTable at h
  obtain ⟨⟨weights, bytesConsumed⟩, hweights, h⟩ := Except.bind_eq_ok.mp h
  simp only at h
  split at h
  · cases h
  next hsome =>
  obtain ⟨⟨tableLog, all⟩, hcomplete, h⟩ := Except.bind_eq_ok.mp h
  simp only at h
  obtain ⟨_, last, _, hall⟩ := completeWeights_fills hcomplete
  have hlength : all.length = weights.length + 1 := by rw [hall, List.length_append, List.length_singleton]
  rw [if_neg (by omega)] at h
  obtain ⟨f, hfill, h⟩ := Except.bind_eq_ok.mp h
  obtain ⟨rfl, rfl⟩ := Prod.mk.inj (Except.ok.inj h)
  exact ⟨weights, all, f, hweights, hcomplete, hfill, rfl⟩

/-- A table that is read is the complete canonical code of its weights just where it has at most 255
of them described. -/
theorem readHuffmanTable_canonical {fuel consumed : Nat} {data : List Byte} {t : HuffmanTable}
    (h : readHuffmanTable fuel data = .ok (t, consumed)) :
    ∃ weights all f, ReadFrom fuel data t consumed weights all f ∧
      (t.Canonical all f.filled ↔ ShortDescription data) := by
  obtain ⟨weights, all, f, hfrom⟩ := readHuffmanTable_from h
  exact ⟨weights, all, f, hfrom, hfrom.canonical.trans (readWeights_short hfrom.described)⟩

/-- Four weights of 4 bits each, and a fifth that they imply. -/
def fourWeights : List Byte := [131, 0x21, 0x10]

theorem readHuffmanTable_four : ∃ t consumed, readHuffmanTable 0 fourWeights = .ok (t, consumed) ∧
    ∃ weights all f, ReadFrom 0 fourWeights t consumed weights all f ∧
      (t.Canonical all f.filled ↔ ShortDescription fourWeights) := by
  match hread : readHuffmanTable 0 fourWeights with
  | .error f =>
    have hgood : (readHuffmanTable 0 fourWeights).isOk = true := by decide +kernel
    rw [hread] at hgood
    cases hgood
  | .ok (t, consumed) => exact ⟨t, consumed, rfl, readHuffmanTable_canonical hread⟩

/-- Six bytes that stand for 323 weights, all of them 0 but one. -/
def manyWeights : List Byte := [6, 224, 127, 0, 0, 0, 244]

/-- The implied weight is that of symbol 323, and the table has byte 67 for it. -/
theorem readHuffmanTable_many : ∃ t consumed weights all f, readHuffmanTable 200 manyWeights = .ok (t, consumed) ∧
    ReadFrom 200 manyWeights t consumed weights all f ∧ ¬ t.Canonical all f.filled := by
  match hread : readHuffmanTable 200 manyWeights with
  | .error f =>
    have hgood : (readHuffmanTable 200 manyWeights).isOk = true := by decide +kernel
    rw [hread] at hgood
    cases hgood
  | .ok (t, consumed) =>
    obtain ⟨weights, all, f, hfrom⟩ := readHuffmanTable_from hread
    refine ⟨t, consumed, weights, all, f, rfl, hfrom, fun hcanonical => ?_⟩
    have hshort := hfrom.canonical.mp hcanonical
    have hlength : (readWeights 200 manyWeights).toOption.map (·.1.length) = some 323 := by decide +kernel
    rw [hfrom.described] at hlength
    have hmany : weights.length = 323 := Option.some.inj hlength
    omega

end Iluvatar
