/-
The tables that `buildFseTable` builds are decoding tables.

The slots of a symbol are numbered from its count on, and the states that those numbers
cover share out the table.
-/
import Iluvatar.Zstd.FseSpread

namespace Iluvatar

open FiniteState

/-- The symbol of an entry, as a test. -/
def FseEntry.isOf (s : Nat) (e : FseEntry) : Bool := e.symbol.toNat == s

/-- The states that an entry leads to contain `state`. -/
def FseEntry.LeadsTo (e : FseEntry) (state : Nat) : Prop :=
  e.nextState.toNat ≤ state ∧ state < e.nextState.toNat + 2 ^ e.nbBits.toNat

/-- A decoding table for a distribution: each symbol has the slots its count gives it, the
states its slots lead to share out the table, and none leads out of it. -/
structure FseTable.Decodes (t : FseTable) (counts : List Int) : Prop where
  size : t.entries.length = 2 ^ t.tableLog
  share : ∀ s count, counts[s]? = some count →
    t.entries.countP (FseEntry.isOf s) = if count = 0 then 0 else max 1 count.toNat
  partitions : ∀ s count, counts[s]? = some count → count ≠ 0 → ∀ state < 2 ^ t.tableLog,
    ∃! i : Nat, ∃ e : FseEntry, t.entries[i]? = some e ∧ e.isOf s = true ∧ e.LeadsTo state
  inRange : ∀ e ∈ t.entries, e.nextState.toNat + 2 ^ e.nbBits.toNat ≤ 2 ^ t.tableLog

/-! ## Numbering -/

/-- An entry with its number and values. -/
structure FseEntry.Numbered (tableLog x : Nat) (e e' : FseEntry) : Prop where
  symbol : e'.symbol = e.symbol
  nbBits : e'.nbBits.toNat = width tableLog x
  nextState : e'.nextState.toNat = first tableLog x

theorem FseEntry.numbered_eq {tableLog x : Nat} (hlog : tableLog ≤ maxFseLog) (hx : x ≠ 0)
    (hsmall : Nat.log2 x ≤ tableLog) (e : FseEntry) :
    ∃ e', e.numbered tableLog x = .ok e' ∧ FseEntry.Numbered tableLog x e e' := by
  have hsize : 2 ^ tableLog ≤ 2 ^ 9 := Nat.pow_le_pow_right (by decide) hlog
  have hlow := two_pow_le_mul hx hsmall
  have hfirst := first_add_le hx hsmall
  have hpos := Nat.two_pow_pos (width tableLog x)
  have hshift : x <<< (tableLog - Nat.log2 x) = x * 2 ^ width tableLog x := Nat.shiftLeft_eq ..
  refine ⟨{ e with nbBits := UInt8.ofNat (tableLog - Nat.log2 x)
                   nextState := UInt16.ofNat (x <<< (tableLog - Nat.log2 x) - 2 ^ tableLog) }, ?_, rfl, ?_, ?_⟩
  · have htop : highestBit x = .ok (Nat.log2 x) := if_neg hx
    simp only [FseEntry.numbered, htop, bind, Except.bind]
    rw [if_neg (by omega), if_neg (by rw [hshift]; omega)]
  · show (UInt8.ofNat (tableLog - Nat.log2 x)).toNat = tableLog - Nat.log2 x
    rw [UInt8.toNat_ofNat']
    have : maxFseLog = 9 := rfl
    omega
  · show (UInt16.ofNat (x <<< (tableLog - Nat.log2 x) - 2 ^ tableLog)).toNat = _
    rw [UInt16.toNat_ofNat', hshift, ← first]
    omega

/-- The slots are numbered in order, each symbol from its first number on. -/
theorem numberEntries_numbers {tableLog : Nat} (hlog : tableLog ≤ maxFseLog)
    (baseValues : Option (List UInt32)) (nbAddBits : Option (List UInt8)) {entries : List FseEntry}
    {next : List Nat}
    (hnext : ∀ s, 0 < entries.countP (FseEntry.isOf s) → ∃ x, next[s]? = some x ∧ 0 < x ∧
      x + entries.countP (FseEntry.isOf s) ≤ 2 ^ (tableLog + 1)) :
    ∃ out, numberEntries tableLog baseValues nbAddBits entries next = .ok out ∧
      out.length = entries.length ∧
      ∀ i e, entries[i]? = some e → ∃ e' x, out[i]? = some e' ∧ next[e.symbol.toNat]? = some x ∧
        FseEntry.Numbered tableLog (x + (entries.take i).countP (FseEntry.isOf e.symbol.toNat)) e e' := by
  induction entries generalizing next with
  | nil => exact ⟨[], rfl, rfl, fun i e he => absurd he (by simp)⟩
  | cons e entries ih =>
    have hself : e.isOf e.symbol.toNat = true := by simp [FseEntry.isOf]
    obtain ⟨x, hx, hpos, hfew⟩ := hnext e.symbol.toNat (by rw [List.countP_cons_of_pos hself]; omega)
    rw [List.countP_cons_of_pos hself] at hfew
    obtain ⟨hlt, _⟩ := List.getElem?_eq_some_iff.mp hx
    have hlog2 : Nat.log2 x ≤ tableLog := by
      have := (Nat.log2_lt (n := x) (k := tableLog + 1) (by omega)).mpr (by omega)
      omega
    obtain ⟨e', hnumbered, hentry⟩ := FseEntry.numbered_eq hlog (by omega) hlog2 e
    -- The symbol's next slot has the next number, and the others keep theirs.
    have hnext' : ∀ s, 0 < entries.countP (FseEntry.isOf s) →
        ∃ y, (next.set e.symbol.toNat (x + 1))[s]? = some y ∧ 0 < y ∧
          y + entries.countP (FseEntry.isOf s) ≤ 2 ^ (tableLog + 1) := by
      intro s hs
      by_cases hsame : s = e.symbol.toNat
      · subst hsame
        exact ⟨x + 1, List.getElem?_set_self hlt, Nat.succ_pos x, by omega⟩
      · have hother : ¬ e.isOf s = true := by simpa [FseEntry.isOf] using Ne.symm hsame
        obtain ⟨y, hy, hypos, hyfew⟩ := hnext s (by rw [List.countP_cons_of_neg hother]; exact hs)
        rw [List.countP_cons_of_neg hother] at hyfew
        exact ⟨y, by rw [List.getElem?_set_ne (Ne.symm hsame)]; exact hy, hypos, hyfew⟩
    obtain ⟨out, hout, hlength, hslots⟩ := ih hnext'
    refine ⟨e'.withValues baseValues nbAddBits :: out, ?_, by rw [List.length_cons, hlength]; rfl, ?_⟩
    · rw [numberEntries, hx]
      simp only [hnumbered, hout, bind, Except.bind]
    · intro i a ha
      cases i with
      | zero =>
        obtain rfl := Option.some.inj ha
        exact ⟨_, x, rfl, hx, hentry.symbol, hentry.nbBits, hentry.nextState⟩
      | succ i =>
        obtain ⟨a', y, ha', hy, hnumber⟩ := hslots i a ha
        by_cases hsame : a.symbol.toNat = e.symbol.toNat
        · rw [hsame, List.getElem?_set_self hlt] at hy
          obtain rfl := Option.some.inj hy
          have hof : e.isOf a.symbol.toNat = true := by simp [FseEntry.isOf, hsame]
          refine ⟨a', x, ha', by rw [hsame]; exact hx, ?_⟩
          rw [List.take_succ_cons, List.countP_cons_of_pos hof]
          have hsum : ∀ k, x + (k + 1) = x + 1 + k := fun k => by omega
          rw [hsum]
          exact hnumber
        · rw [List.getElem?_set_ne (Ne.symm hsame)] at hy
          have hother : ¬ e.isOf a.symbol.toNat = true := by
            simpa [FseEntry.isOf] using Ne.symm hsame
          refine ⟨a', y, ha', hy, ?_⟩
          rw [List.take_succ_cons, List.countP_cons_of_neg hother]
          exact hnumber

/-! ## The slots of a symbol -/

/-- The symbols in the table are those that were written. -/
theorem Spread.Complete.symbols {t : Spread} {counts : List Int} {size : Nat}
    (h : t.Complete counts size) (hbyte : ∀ pair ∈ t.filled, pair.2 < 256) :
    (t.entries.map fun e => e.symbol.toNat).Perm (t.filled.map Prod.snd) := by
  have hslots : (List.range size).map (fun slot => ((t.entries[slot]?).map fun e => e.symbol.toNat).getD 0) =
      t.entries.map fun e => e.symbol.toNat := by
    refine List.ext_getElem (by simp [h.length]) fun i hi hi' => ?_
    have hlt : i < t.entries.length := by simpa using hi'
    simp [hlt]
  have hwritten : t.filled.map Prod.snd = (t.filled.map Prod.fst).map
      (fun slot => ((t.entries[slot]?).map fun e => e.symbol.toNat).getD 0) := by
    rw [List.map_map]
    refine List.map_congr_left fun pair hpair => ?_
    obtain ⟨e, he, hsymbol⟩ := h.holds pair hpair
    have := hbyte pair hpair
    simp only [Function.comp_apply, he, Option.map_some, Option.getD_some, hsymbol, UInt8.toNat_ofNat']
    omega
  rw [hwritten, ← hslots]
  exact (h.once.map _).symm

theorem lowSymbols_lt {counts : List Int} {s y : Nat} (h : y ∈ lowSymbols counts s) :
    y < s + counts.length := by
  induction counts generalizing s with
  | nil => exact absurd h List.not_mem_nil
  | cons count counts ih =>
    rw [lowSymbols] at h
    rw [List.length_cons]
    split at h
    · rcases List.mem_cons.mp h with rfl | h
      · omega
      · have := ih h
        omega
    · have := ih h
      omega

theorem walkSymbols_lt {counts : List Int} {s y : Nat} (h : y ∈ walkSymbols counts s) :
    y < s + counts.length := by
  induction counts generalizing s with
  | nil => exact absurd h List.not_mem_nil
  | cons count counts ih =>
    rw [walkSymbols] at h
    rw [List.length_cons]
    rcases List.mem_append.mp h with h | h
    · rw [List.eq_of_mem_replicate h]
      omega
    · have := ih h
      omega

theorem slotSymbols_lt {counts : List Int} {y : Nat} (h : y ∈ slotSymbols counts) :
    y < counts.length := by
  rcases List.mem_append.mp h with h | h
  · have := lowSymbols_lt h
    omega
  · have := walkSymbols_lt h
    omega

theorem slotSymbols_count {counts : List Int} {s : Nat} {count : Int} (h : counts[s]? = some count) :
    (slotSymbols counts).count s = firstNumber count := by
  have hcount := symbols_count (s := 0) h
  rw [Nat.zero_add] at hcount
  rw [slotSymbols, List.count_append, hcount]

/-- What a symbol has of a table that is numbered. -/
theorem FseEntry.Numbered.isOf {tableLog x s : Nat} {e e' : FseEntry}
    (h : FseEntry.Numbered tableLog x e e') : e'.isOf s = e.isOf s := by
  rw [FseEntry.isOf, FseEntry.isOf, h.symbol]

/-- The states that a numbered entry leads to are those its number covers. -/
theorem FseEntry.Numbered.leadsTo {tableLog x state : Nat} {e e' : FseEntry}
    (h : FseEntry.Numbered tableLog x e e') : e'.LeadsTo state ↔ Covers tableLog x state := by
  rw [FseEntry.LeadsTo, Covers, h.nextState, h.nbBits]

/-- A table whose symbols have as many slots as `counts` says, numbered in order. -/
structure NumberedTable (tableLog : Nat) (counts : List Int) (entries out : List FseEntry) : Prop where
  size : entries.length = 2 ^ tableLog
  length : out.length = entries.length
  share : ∀ s count, counts[s]? = some count → entries.countP (FseEntry.isOf s) = firstNumber count
  none : ∀ s, counts[s]? = none → entries.countP (FseEntry.isOf s) = 0
  numbers : ∀ i e, entries[i]? = some e → ∃ e' count, out[i]? = some e' ∧
    counts[e.symbol.toNat]? = some count ∧ FseEntry.Numbered tableLog
      (firstNumber count + (entries.take i).countP (FseEntry.isOf e.symbol.toNat)) e e'

namespace NumberedTable

variable {tableLog : Nat} {counts : List Int} {entries out : List FseEntry}

theorem countP_out (h : NumberedTable tableLog counts entries out) (s : Nat) :
    out.countP (FseEntry.isOf s) = entries.countP (FseEntry.isOf s) := by
  have hsame : out.map (FseEntry.isOf s) = entries.map (FseEntry.isOf s) := by
    refine List.ext_getElem? fun i => ?_
    rw [List.getElem?_map, List.getElem?_map]
    cases he : entries[i]? with
    | none =>
      have hout : out[i]? = Option.none := by
        rw [List.getElem?_eq_none_iff] at he ⊢
        rw [h.length]
        exact he
      rw [hout]
    | some e =>
      obtain ⟨e', count, hout, _, hnumbered⟩ := h.numbers i e he
      rw [hout, Option.map_some, Option.map_some, hnumbered.isOf]
  have hcount := congrArg (List.countP id) hsame
  rwa [List.countP_map, List.countP_map] at hcount

/-- The number of an entry of symbol `s` in its place. -/
theorem numbers_of (h : NumberedTable tableLog counts entries out) {i s : Nat} {e : FseEntry}
    {count : Int} (he : entries[i]? = some e) (hof : e.isOf s = true) (hcount : counts[s]? = some count) :
    ∃ e', out[i]? = some e' ∧ FseEntry.Numbered tableLog
      (firstNumber count + (entries.take i).countP (FseEntry.isOf s)) e e' := by
  obtain ⟨e', count', hout, hcount', hnumbered⟩ := h.numbers i e he
  have hsymbol : e.symbol.toNat = s := by simpa [FseEntry.isOf] using hof
  rw [hsymbol] at hcount' hnumbered
  obtain rfl := Option.some.inj (hcount'.symm.trans hcount)
  exact ⟨e', hout, hnumbered⟩

/-- The number of an entry is below twice its symbol's first number. -/
theorem number_lt (h : NumberedTable tableLog counts entries out) {i s : Nat} {e : FseEntry}
    {count : Int} (he : entries[i]? = some e) (hof : e.isOf s = true) (hcount : counts[s]? = some count) :
    (entries.take i).countP (FseEntry.isOf s) < firstNumber count := by
  obtain ⟨hlt, hat⟩ := List.getElem?_eq_some_iff.mp he
  have hshare := h.share s count hcount
  have hsplit : entries.countP (FseEntry.isOf s) =
      (entries.take i).countP (FseEntry.isOf s) + (entries.drop i).countP (FseEntry.isOf s) := by
    rw [← List.countP_append, List.take_append_drop]
  have hlater : 0 < (entries.drop i).countP (FseEntry.isOf s) := by
    rw [List.drop_eq_getElem_cons hlt, hat, List.countP_cons_of_pos hof]
    exact Nat.succ_pos _
  omega

/-- The slots of a symbol lead to every state once. -/
theorem partitions (h : NumberedTable tableLog counts entries out) {s state : Nat} {count : Int}
    (hcount : counts[s]? = some count) (hpos : 0 < firstNumber count) (hstate : state < 2 ^ tableLog) :
    ∃! i : Nat, ∃ e : FseEntry, out[i]? = some e ∧ e.isOf s = true ∧ e.LeadsTo state := by
  have hfew : firstNumber count ≤ 2 ^ tableLog := by
    rw [← h.share s count hcount, ← h.size]
    exact List.countP_le_length
  obtain ⟨x, ⟨⟨hlow, hhigh⟩, hcovers⟩, hnumber⟩ := existsUnique_covers hpos hfew hstate
  have hrank : x - firstNumber count < entries.countP (FseEntry.isOf s) := by
    rw [h.share s count hcount]
    omega
  obtain ⟨i, ⟨⟨e, he, hof⟩, hbefore⟩, hplace⟩ := existsUnique_rank (FseEntry.isOf s) entries hrank
  obtain ⟨e', hout, hnumbered⟩ := h.numbers_of he hof hcount
  have hx : firstNumber count + (entries.take i).countP (FseEntry.isOf s) = x := by
    rw [hbefore]
    omega
  rw [hx] at hnumbered
  refine ⟨i, ⟨e', hout, by rw [hnumbered.isOf]; exact hof, hnumbered.leadsTo.mpr hcovers⟩, ?_⟩
  rintro k ⟨a', ha', hof', hleads⟩
  obtain ⟨hlt, _⟩ := List.getElem?_eq_some_iff.mp ha'
  rw [h.length] at hlt
  have ha : entries[k]? = some entries[k] := List.getElem?_eq_getElem hlt
  obtain ⟨b', _, hb', _, hb⟩ := h.numbers k _ ha
  obtain rfl := Option.some.inj (hb'.symm.trans ha')
  rw [hb.isOf] at hof'
  obtain ⟨c', hc', hnumbered'⟩ := h.numbers_of ha hof' hcount
  obtain rfl := Option.some.inj (hc'.symm.trans ha')
  have hless := h.number_lt ha hof' hcount
  have hsame := hnumber _ ⟨⟨Nat.le_add_right .., by omega⟩, hnumbered'.leadsTo.mp hleads⟩
  exact hplace k ⟨⟨_, ha, hof'⟩, by omega⟩

theorem inRange (h : NumberedTable tableLog counts entries out) :
    ∀ e ∈ out, e.nextState.toNat + 2 ^ e.nbBits.toNat ≤ 2 ^ tableLog := by
  intro e' he'
  obtain ⟨i, hlt, hat⟩ := List.getElem_of_mem he'
  rw [h.length] at hlt
  have he : entries[i]? = some entries[i] := List.getElem?_eq_getElem hlt
  obtain ⟨a', count, ha', hcount, hnumbered⟩ := h.numbers i _ he
  have hsame : a' = e' := by
    rw [← hat]
    exact (Option.some.inj ((List.getElem?_eq_getElem _).symm.trans ha')).symm
  subst hsame
  have hself : (entries[i]).isOf (entries[i]).symbol.toNat = true := by simp [FseEntry.isOf]
  have hless := h.number_lt he hself hcount
  have hfew : firstNumber count ≤ 2 ^ tableLog := by
    rw [← h.share _ count hcount, ← h.size]
    exact List.countP_le_length
  rw [hnumbered.nextState, hnumbered.nbBits]
  refine first_add_le (by omega) ?_
  have hdigits := (Nat.log2_lt (n := firstNumber count +
    (entries.take i).countP (FseEntry.isOf (entries[i]).symbol.toNat)) (k := tableLog + 1)
    (by omega)).mpr (by rw [Nat.pow_succ]; omega)
  omega

end NumberedTable

/-! ## The table of a distribution -/

/-- The table of a valid distribution over byte symbols has its symbols numbered in order. -/
theorem buildFseTable_numbered {n : NCount} (h : n.Valid) (hbyte : n.maxSymbol ≤ 255)
    (baseValues : Option (List UInt32)) (nbAddBits : Option (List UInt8)) :
    ∃ entries out, buildFseTable n.normalized n.maxSymbol n.tableLog baseValues nbAddBits =
        .ok (FseTable.new n.tableLog out) ∧
      NumberedTable n.tableLog (n.normalized.take (n.maxSymbol + 1)) entries out := by
  obtain ⟨t, hspread, hcomplete, hsymbols⟩ := spreadTable_complete h
  have hlength : (n.normalized.take (n.maxSymbol + 1)).length = n.maxSymbol + 1 := by
    have := h.symbols
    rw [List.length_take]
    omega
  have hbytes : ∀ pair ∈ t.filled, pair.2 < 256 := by
    intro pair hpair
    have hmem : pair.2 ∈ slotSymbols (n.normalized.take (n.maxSymbol + 1)) := by
      rw [← hsymbols]
      exact List.mem_map_of_mem hpair
    have := slotSymbols_lt hmem
    omega
  have hcountP : ∀ s, t.entries.countP (FseEntry.isOf s) =
      (slotSymbols (n.normalized.take (n.maxSymbol + 1))).count s := by
    intro s
    have hperm := (hcomplete.symbols hbytes).count_eq s
    rw [hsymbols] at hperm
    rw [← hperm, List.count, List.countP_map]
    rfl
  have hshare : ∀ s count, (n.normalized.take (n.maxSymbol + 1))[s]? = some count →
      t.entries.countP (FseEntry.isOf s) = firstNumber count := by
    intro s count hcount
    rw [hcountP, slotSymbols_count hcount]
  have hnone : ∀ s, n.maxSymbol < s → t.entries.countP (FseEntry.isOf s) = 0 := by
    intro s hs
    rw [hcountP]
    refine List.count_eq_zero.mpr fun hmem => ?_
    have := slotSymbols_lt hmem
    omega
  have hnext : ∀ s, 0 < t.entries.countP (FseEntry.isOf s) →
      ∃ x, ((n.normalized.take (n.maxSymbol + 1)).map firstNumber)[s]? = some x ∧ 0 < x ∧
        x + t.entries.countP (FseEntry.isOf s) ≤ 2 ^ (n.tableLog + 1) := by
    intro s hs
    have hle : s ≤ n.maxSymbol := by
      by_contra hover
      rw [hnone s (by omega)] at hs
      exact absurd hs (Nat.lt_irrefl 0)
    have hlt : s < (n.normalized.take (n.maxSymbol + 1)).length := by omega
    have hcount := List.getElem?_eq_getElem hlt
    have hslots := hshare s _ hcount
    have htotal := @List.countP_le_length _ (FseEntry.isOf s) t.entries
    rw [hcomplete.length] at htotal
    refine ⟨firstNumber (n.normalized.take (n.maxSymbol + 1))[s], ?_, by omega, ?_⟩
    · rw [List.getElem?_map, hcount, Option.map_some]
    · rw [Nat.pow_succ]
      omega
  obtain ⟨out, hout, houtLength, hnumbers⟩ :=
    numberEntries_numbers h.tableLog_le baseValues nbAddBits hnext
  refine ⟨t.entries, out, ?_, hcomplete.length, houtLength, hshare, fun s hs => ?_, fun i e he => ?_⟩
  · rw [buildFseTable, hspread]
    simp only [bind, Except.bind, hout]
  · rw [List.getElem?_eq_none_iff] at hs
    exact hnone s (by omega)
  · obtain ⟨e', x, ha, hx, hnumbered⟩ := hnumbers i e he
    rw [List.getElem?_map] at hx
    obtain ⟨count, hcount, rfl⟩ := Option.map_eq_some_iff.mp hx
    exact ⟨e', count, ha, hcount, hnumbered⟩

/-- A count after those of the symbols is zero. -/
theorem NCount.Valid.count_rest {n : NCount} (h : n.Valid) {s : Nat} {count : Int} (hs : n.maxSymbol < s)
    (hcount : n.normalized[s]? = some count) : count = 0 := by
  refine h.rest count ?_
  have hdrop : (n.normalized.drop (n.maxSymbol + 1))[s - (n.maxSymbol + 1)]? = some count := by
    rw [List.getElem?_drop, ← hcount]
    congr 1
    omega
  exact List.mem_of_getElem? hdrop

/-- A valid distribution over byte symbols has its decoding table. -/
theorem buildFseTable_decodes {n : NCount} (h : n.Valid) (hbyte : n.maxSymbol ≤ 255)
    (baseValues : Option (List UInt32)) (nbAddBits : Option (List UInt8)) :
    ∃ table, buildFseTable n.normalized n.maxSymbol n.tableLog baseValues nbAddBits = .ok table ∧
      table.tableLog = n.tableLog ∧ table.Decodes n.normalized := by
  obtain ⟨entries, out, hbuild, htable⟩ := buildFseTable_numbered h hbyte baseValues nbAddBits
  have hrange : ∀ count ∈ n.normalized, -1 ≤ count := h.range
  have htakeAt : ∀ s, s ≤ n.maxSymbol → (n.normalized.take (n.maxSymbol + 1))[s]? = n.normalized[s]? :=
    fun s hs => List.getElem?_take_of_lt (by omega)
  refine ⟨FseTable.new n.tableLog out, hbuild, rfl, htable.length.trans htable.size, ?_, ?_, htable.inRange⟩
  · intro s count hcount
    show out.countP (FseEntry.isOf s) = _
    rw [htable.countP_out]
    have hge := hrange count (List.mem_of_getElem? hcount)
    by_cases hle : s ≤ n.maxSymbol
    · rw [htable.share s count ((htakeAt s hle).trans hcount), firstNumber]
      split <;> split <;> omega
    · have hpast : (n.normalized.take (n.maxSymbol + 1))[s]? = none := by
        rw [List.getElem?_eq_none_iff, List.length_take]
        omega
      rw [htable.none s hpast, if_pos (h.count_rest (by omega) hcount)]
  · intro s count hcount hsome state hstate
    have hge := hrange count (List.mem_of_getElem? hcount)
    have hle : s ≤ n.maxSymbol := by
      by_contra hover
      exact hsome (h.count_rest (by omega) hcount)
    refine htable.partitions ((htakeAt s hle).trans hcount) ?_ hstate
    rw [firstNumber]
    split <;> omega

/-- Every distribution that is read fills its table exactly, and where its symbols are bytes its
table is built: each slot is written once, the walk keeping off the slots at the top, and the
table is a decoding table. -/
theorem readNcount_builds {data : List Byte} {maxSymbol : Nat} {n : NCount}
    (h : readNcount data maxSymbol = .ok n) (baseValues : Option (List UInt32))
    (nbAddBits : Option (List UInt8)) :
    slotTotal n.normalized = 2 ^ n.tableLog ∧ (n.maxSymbol ≤ 255 →
      ∃ t next table, spreadTable n.normalized n.maxSymbol n.tableLog = .ok (t, next) ∧
        t.Complete (n.normalized.take (n.maxSymbol + 1)) (2 ^ n.tableLog) ∧
        buildFseTable n.normalized n.maxSymbol n.tableLog baseValues nbAddBits = .ok table ∧
        table.tableLog = n.tableLog ∧ table.Decodes n.normalized) := by
  have hvalid := readNcount_valid h
  refine ⟨hvalid.total, fun hbyte => ?_⟩
  obtain ⟨t, hspread, hcomplete, _⟩ := spreadTable_complete hvalid
  obtain ⟨table, hbuild, hlog, hdecodes⟩ := buildFseTable_decodes hvalid hbyte baseValues nbAddBits
  exact ⟨t, _, table, hspread, hcomplete, hbuild, hlog, hdecodes⟩

/-- A distribution over three symbols: 16 slots, 15 and one at the top. -/
def threeSymbols : List Byte := [0x10, 0x3D]

theorem readNcount_builds_three :
    ∃ t next table, spreadTable [16, 15, -1] 2 5 = .ok (t, next) ∧ t.Complete [16, 15, -1] (2 ^ 5) ∧
      buildFseTable [16, 15, -1] 2 5 none none = .ok table ∧ table.tableLog = 5 ∧
      table.Decodes [16, 15, -1] :=
  (readNcount_builds (n := ⟨[16, 15, -1], 2, 5, 2⟩)
    (show readNcount threeSymbols 2 = _ by decide +kernel) none none).2 (by decide)

/-- A distribution over symbols 0 and 256, of 16 slots each. -/
def wideSymbols : List Byte :=
  [0x10, 0xE3, 0xFF, 0xFF, 0xFF, 0xFF, 0xFF, 0xFF, 0xFF, 0xFF, 0xFF, 0xFF, 0xFF, 0xFF, 0xFF, 0xFF, 0xFF,
    0xFF, 0xFF, 0xFF, 0xFF, 0xFF, 0xDF, 0x0F]

/-- Symbol 256 is read and gets no slot of the table, whose entries hold bytes. -/
theorem readNcount_wide :
    ¬ ∀ (data : List Byte) (maxSymbol : Nat) (n : NCount), readNcount data maxSymbol = .ok n →
      slotTotal n.normalized = 2 ^ n.tableLog ∧
      ∃ table, buildFseTable n.normalized n.maxSymbol n.tableLog none none = .ok table ∧
        table.Decodes n.normalized := by
  intro hall
  have hread : readNcount wideSymbols 256 =
      .ok ⟨16 :: (List.replicate 255 0 ++ [16]), 256, 5, 24⟩ := by decide +kernel
  obtain ⟨_, table, _, hdecodes⟩ := hall _ _ _ hread
  have hshare := hdecodes.share 256 16 (by decide +kernel)
  have hnone : table.entries.countP (FseEntry.isOf 256) = 0 := by
    rw [List.countP_eq_zero]
    intro e _
    have := e.symbol.toNat_lt
    simp only [FseEntry.isOf, beq_iff_eq]
    omega
  rw [hnone] at hshare
  exact absurd hshare (by decide)

end Iluvatar
