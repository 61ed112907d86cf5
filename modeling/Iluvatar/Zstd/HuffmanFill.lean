/-
The table of a Huffman description is that of a canonical code: each symbol fills its block, and
the blocks fill the table.
-/
import Iluvatar.Library.PrefixCode
import Iluvatar.Zstd.Huffman
import Iluvatar.Zstd.WeightsEnd

namespace Iluvatar

open PrefixCode

/-- The weights as numbers. -/
def weightValues (weights : List Byte) : List Nat := weights.map (·.toNat)

theorem half_slots (w : Nat) : 2 ^ w / 2 = slots w := by
  cases w with
  | zero => rfl
  | succ w =>
    rw [slots, if_neg (Nat.succ_ne_zero w), Nat.pow_succ, Nat.mul_div_cancel _ (by decide)]
    rfl

theorem weightTotal_sum (weights : List Byte) : ∀ {total out : Nat}, weightTotal weights total = .ok out →
    (∀ w ∈ weights, w.toNat ≤ hufTableLogMax) ∧ out = total + ((weightValues weights).map slots).sum := by
  induction weights with
  | nil =>
    intro total out h
    exact ⟨fun w hw => absurd hw List.not_mem_nil, (Except.ok.inj h).symm⟩
  | cons w ws ih =>
    intro total out h
    rw [weightTotal] at h
    by_cases hlarge : hufTableLogMax < w.toNat
    · rw [if_pos hlarge] at h
      cases h
    rw [if_neg hlarge] at h
    by_cases hover : 2 ^ 32 ≤ total + 2 ^ w.toNat / 2
    · rw [if_pos hover] at h
      cases h
    rw [if_neg hover] at h
    obtain ⟨hall, hout⟩ := ih h
    refine ⟨fun v hv => ?_, ?_⟩
    · rcases List.mem_cons.mp hv with rfl | hv
      · exact Nat.not_lt.mp hlarge
      · exact hall v hv
    · rw [hout, half_slots]
      show total + slots w.toNat + _ = total + (slots w.toNat + _)
      rw [Nat.add_assoc]
      rfl

/-- A list of weights that fills a table. -/
structure FillsTable (tableLog : Nat) (weights : List Byte) : Prop where
  positive : 1 ≤ tableLog
  le_max : tableLog ≤ hufTableLogMax
  within : ∀ w ∈ weightValues weights, w ≤ tableLog
  total : base (weightValues weights) (tableLog + 1) = 2 ^ tableLog

theorem highestBit_ok {x top : Nat} (h : highestBit x = .ok top) : x ≠ 0 ∧ top = Nat.log2 x := by
  unfold highestBit at h
  split at h
  · cases h
  · next hx => exact ⟨hx, (Except.ok.inj h).symm⟩

theorem slots_le_sum {ws : List Nat} {w : Nat} (h : w ∈ ws) : slots w ≤ (ws.map slots).sum := by
  obtain ⟨before, after, rfl⟩ := List.append_of_mem h
  rw [List.map_append, List.sum_append, List.map_cons, List.sum_cons]
  omega

/-- The last weight makes up what the others leave. -/
theorem completeWeights_fills {weights all : List Byte} {tableLog : Nat}
    (h : completeWeights weights = .ok (tableLog, all)) :
    FillsTable tableLog all ∧ ∃ last : Byte, last ≠ 0 ∧ all = weights ++ [last] := by
  unfold completeWeights at h
  obtain ⟨total, htotal, h⟩ := Except.bind_eq_ok.mp h
  split at h
  · cases h
  obtain ⟨top, htop, h⟩ := Except.bind_eq_ok.mp h
  simp only at h
  split at h
  · cases h
  next hlog =>
  split at h
  · cases h
  next hpower =>
  obtain ⟨top', htop', h⟩ := Except.bind_eq_ok.mp h
  obtain ⟨rfl, rfl⟩ := Prod.mk.inj (Except.ok.inj h)
  obtain ⟨_, hsum⟩ := weightTotal_sum weights htotal
  obtain ⟨hne, rfl⟩ := highestBit_ok htop
  obtain ⟨hrest, rfl⟩ := highestBit_ok htop'
  rw [Nat.zero_add] at hsum
  have hlow : 2 ^ Nat.log2 total ≤ total := Nat.log2_self_le hne
  have hhigh : total < 2 ^ (Nat.log2 total + 1) := Nat.lt_log2_self
  have hdouble : 2 ^ (Nat.log2 total + 1) = 2 * 2 ^ Nat.log2 total := Nat.pow_succ'
  obtain ⟨k, hk⟩ := (Nat.and_sub_one_eq_zero_iff_isPowerOfTwo hrest).mp (Decidable.not_not.mp hpower)
  generalize hL : Nat.log2 total + 1 = L at *
  have hlast : Nat.log2 (2 ^ L - total) = k := by rw [hk, Nat.log2_two_pow]
  have hkL : k < L := (Nat.pow_lt_pow_iff_right (by decide)).mp (by omega : 2 ^ k < 2 ^ L)
  have hmax : hufTableLogMax = 12 := rfl
  have hvalue : (UInt8.ofNat (k + 1)).toNat = k + 1 := by
    rw [UInt8.toNat_ofNat']
    omega
  rw [hlast]
  have hwithin : ∀ w ∈ weightValues (weights ++ [UInt8.ofNat (k + 1)]), w ≤ L := by
    intro w hw
    unfold weightValues at hw
    rw [List.map_append, List.mem_append] at hw
    rcases hw with hw | hw
    · have hle := slots_le_sum hw
      unfold weightValues at hsum
      rw [← hsum] at hle
      rcases Nat.eq_zero_or_pos w with rfl | hpos
      · exact Nat.zero_le L
      · rw [slots, if_neg (by omega)] at hle
        have hlt : w - 1 < L := (Nat.pow_lt_pow_iff_right (by decide)).mp (by omega : 2 ^ (w - 1) < 2 ^ L)
        omega
    · obtain rfl : w = (UInt8.ofNat (k + 1)).toNat := List.mem_singleton.mp hw
      omega
  refine ⟨⟨by omega, Nat.not_lt.mp hlog, hwithin, ?_⟩, _, ?_, rfl⟩
  · rw [base_total fun w hw => Nat.lt_succ_of_le (hwithin w hw)]
    unfold weightValues at hsum ⊢
    rw [List.map_append, List.map_append, List.sum_append, ← hsum, List.map_singleton, List.map_singleton,
      List.sum_singleton, hvalue, slots, if_neg (Nat.succ_ne_zero k)]
    show total + 2 ^ k = 2 ^ L
    omega
  · intro hzero
    have hzero' := congrArg UInt8.toNat hzero
    rw [hvalue] at hzero'
    exact Nat.succ_ne_zero k hzero'

/-! ## The ranks -/

theorem rankCounts_count (tableLog : Nat) (weights : List Byte) {w : Nat} (hw : w < tableLog + 2) :
    (rankCounts tableLog weights)[w]? = some ((weightValues weights).count w) := by
  have hall : ∀ (weights : List Byte) (counts : List Nat) {n : Nat}, counts[w]? = some n →
      (weights.foldl (fun counts w => counts.modify w.toNat (· + 1)) counts)[w]? =
        some (n + (weightValues weights).count w) := by
    intro weights
    induction weights with
    | nil => exact fun _ _ h => h
    | cons v vs ih =>
      intro counts n hn
      rw [List.foldl_cons]
      by_cases hsame : v.toNat = w
      · have hstep : (counts.modify v.toNat (· + 1))[w]? = some (n + 1) := by
          rw [hsame, List.getElem?_modify_eq, hn]
          rfl
        rw [ih _ hstep, weightValues, weightValues, List.map_cons, hsame, List.count_cons_self]
        exact congrArg some (by omega)
      · have hstep : (counts.modify v.toNat (· + 1))[w]? = some n := by
          rw [List.getElem?_modify_ne _ _ hsame, hn]
        rw [ih _ hstep, weightValues, weightValues, List.map_cons, List.count_cons_of_ne hsame]
  have hstart : (List.replicate (tableLog + 2) 0)[w]? = some 0 := List.getElem?_replicate_of_lt hw
  rw [rankCounts, hall weights _ hstart, Nat.zero_add]

/-- The bases of the weights are their prefix sums, none of which passes the end of the table. -/
theorem rankStarts_base {ws counts : List Nat} {tableSize L : Nat}
    (hcounts : ∀ v ≤ L, counts[v]? = some (ws.count v)) (hsize : base ws (L + 1) ≤ tableSize) (n : Nat) :
    ∀ {w : Nat} {starts : List Nat}, 1 ≤ w → w + n = L + 1 → starts.length = L + 2 →
      ∃ out, rankStarts tableSize counts n w (base ws w) starts = .ok out ∧ out.length = L + 2 ∧
        (∀ v < w, out[v]? = starts[v]?) ∧ ∀ v, w ≤ v → v ≤ L → out[v]? = some (base ws v) := by
  induction n with
  | zero =>
    intro w starts _ hend hlength
    exact ⟨starts, rfl, hlength, fun _ _ => rfl, fun v hlow hhigh => by omega⟩
  | succ n ih =>
    intro w starts hpos hend hlength
    have hnext : base ws w + counts.getD w 0 * 2 ^ (w - 1) = base ws (w + 1) := by
      rw [List.getD_eq_getElem?_getD, hcounts w (by omega), base, slots, if_neg (by omega)]
      rfl
    have hfits : base ws (w + 1) ≤ tableSize := Nat.le_trans (base_mono (by omega)) hsize
    obtain ⟨out, hrun, hout, hbelow, habove⟩ :=
      ih (w := w + 1) (Nat.le_add_left 1 w) (by omega)
        (show (starts.set w (base ws w)).length = L + 2 by rw [List.length_set, hlength])
    refine ⟨out, ?_, hout, fun v hv => ?_, fun v hlow hhigh => ?_⟩
    · rw [rankStarts, hnext, if_neg (Nat.not_lt.mpr hfits)]
      exact hrun
    · rw [hbelow v (by omega), List.getElem?_set_ne (by omega)]
    · rcases Nat.eq_or_lt_of_le hlow with rfl | hlater
      · rw [hbelow w (by omega), List.getElem?_set_self (by omega)]
      · exact habove v hlater hhigh

namespace HufFill

/-- A run of slots, all in the table, is written. -/
theorem put_run (e : HufEntry) (count : Nat) : ∀ {start : Nat} {f : HufFill}, start + count ≤ f.entries.length →
    (f.put e count start).entries.length = f.entries.length ∧ (f.put e count start).rankStart = f.rankStart ∧
    (f.put e count start).filled = f.filled ++ List.range' start count ∧
    ∀ i, (f.put e count start).entries[i]? = if start ≤ i ∧ i < start + count then some e else f.entries[i]? := by
  induction count with
  | zero =>
    intro start f _
    refine ⟨rfl, rfl, (List.append_nil _).symm, fun i => ?_⟩
    rw [if_neg (by omega)]
    rfl
  | succ count ih =>
    intro start f hfits
    rw [put, if_pos (by omega)]
    obtain ⟨hlength, hstarts, hfilled, hat⟩ := ih
      (f := { f with entries := f.entries.set start e, filled := f.filled ++ [start] })
      (show start + 1 + count ≤ (f.entries.set start e).length by rw [List.length_set]; omega)
    rw [List.length_set] at hlength
    refine ⟨hlength, hstarts, ?_, fun i => ?_⟩
    · rw [hfilled, List.append_assoc, List.range'_succ]
      rfl
    · rw [hat]
      simp only
      by_cases hsame : start = i
      · rw [if_neg (by omega), if_pos (by omega), ← hsame, List.getElem?_set_self (by omega)]
      · rw [List.getElem?_set_ne hsame]
        by_cases hin : start + 1 ≤ i ∧ i < start + 1 + count
        · rw [if_pos hin, if_pos (by omega)]
        · rw [if_neg hin, if_neg (by omega)]

/-- The entry of a symbol. -/
def entryOf (tableLog : Nat) (weights : List Byte) (s : Nat) : HufEntry :=
  { symbol := UInt8.ofNat s, nbBits := UInt8.ofNat (tableLog + 1 - weight (weightValues weights) s) }

/-- The blocks of the first `k` symbols are filled. -/
structure Filled (tableLog : Nat) (weights : List Byte) (k : Nat) (f : HufFill) : Prop where
  length : f.entries.length = 2 ^ tableLog
  starts : ∀ w, 1 ≤ w → w ≤ tableLog → f.rankStart[w]? =
    some (base (weightValues weights) w + ((weightValues weights).take k).count w * slots w)
  mem : ∀ i, i ∈ f.filled ↔ ∃ s < k, Holds (weightValues weights) s i
  nodup : f.filled.Nodup
  entry : ∀ s < k, ∀ i, Holds (weightValues weights) s i → f.entries[i]? = some (entryOf tableLog weights s)

variable {tableLog : Nat} {weights : List Byte} {f : HufFill}

theorem holds_lt (hfills : FillsTable tableLog weights) {s i : Nat} (h : Holds (weightValues weights) s i) :
    i < 2 ^ tableLog := by
  have hweight := h.weight_ne
  have hle := hfills.within _ (weight_mem hweight)
  have hend := end_le_base (lt_of_weight hweight)
  have hmono : base (weightValues weights) (weight (weightValues weights) s + 1) ≤
      base (weightValues weights) (tableLog + 1) := base_mono (Nat.succ_le_succ hle)
  have htotal := hfills.total
  have := h.2
  omega

/-- One symbol more. -/
theorem Filled.symbol (hfills : FillsTable tableLog weights) {k : Nat} (h : Filled tableLog weights k f) {w : Byte}
    (hw : weights[k]? = some w) : ∃ f', f.symbol tableLog k w = .ok f' ∧ Filled tableLog weights (k + 1) f' := by
  have hvalue : (weightValues weights)[k]? = some w.toNat := by
    rw [weightValues, List.getElem?_map, hw]
    rfl
  have hweight : weight (weightValues weights) k = w.toNat := by
    rw [weight, List.getD_eq_getElem?_getD, hvalue]
    rfl
  have htake : (weightValues weights).take (k + 1) = (weightValues weights).take k ++ [w.toNat] := by
    rw [List.take_add_one, hvalue]
    rfl
  by_cases hzero : w.toNat = 0
  · have hnone : ∀ i, ¬ Holds (weightValues weights) k i := fun i hi => hi.weight_ne (hweight.trans hzero)
    refine ⟨f, if_pos hzero, h.length, fun v hlow hhigh => ?_, fun i => ?_, h.nodup, fun s hs i hi => ?_⟩
    · rw [h.starts v hlow hhigh, htake, List.count_append, List.count_singleton, if_neg (by
        rw [beq_iff_eq]
        omega), Nat.add_zero]
    · rw [h.mem]
      constructor
      · rintro ⟨s, hs, hi⟩
        exact ⟨s, Nat.lt_succ_of_lt hs, hi⟩
      · rintro ⟨s, hs, hi⟩
        rcases Nat.lt_succ_iff_lt_or_eq.mp hs with hlt | rfl
        · exact ⟨s, hlt, hi⟩
        · exact absurd hi (hnone i)
    · rcases Nat.lt_succ_iff_lt_or_eq.mp hs with hlt | rfl
      · exact h.entry s hlt i hi
      · exact absurd hi (hnone i)
  · have hle : w.toNat ≤ tableLog := hfills.within _ (List.mem_of_getElem? hvalue)
    have hstart := h.starts w.toNat (by omega) hle
    have hslots : slots w.toNat = 2 ^ (w.toNat - 1) := if_neg hzero
    have hblock : PrefixCode.start (weightValues weights) k =
        base (weightValues weights) w.toNat + ((weightValues weights).take k).count w.toNat * slots w.toNat := by
      rw [PrefixCode.start, hweight]
    rw [← hblock] at hstart
    have hholds : ∀ i, Holds (weightValues weights) k i ↔ PrefixCode.start (weightValues weights) k ≤ i ∧
        i < PrefixCode.start (weightValues weights) k + 2 ^ (w.toNat - 1) := by
      intro i
      rw [Holds, hweight, hslots]
    have hfits : PrefixCode.start (weightValues weights) k + 2 ^ (w.toNat - 1) ≤ f.entries.length := by
      have hlast := holds_lt hfills ((hholds (PrefixCode.start (weightValues weights) k + 2 ^ (w.toNat - 1) - 1)).mpr
        (by have := Nat.two_pow_pos (w.toNat - 1); omega))
      rw [h.length]
      omega
    have hentry : entryOf tableLog weights k =
        { symbol := UInt8.ofNat k, nbBits := UInt8.ofNat (tableLog + 1 - w.toNat) } := by
      rw [entryOf, hweight]
    obtain ⟨hlength, hstarts, hfilled, hat⟩ := put_run (entryOf tableLog weights k) (2 ^ (w.toNat - 1)) hfits
    refine ⟨{ f.put (entryOf tableLog weights k) (2 ^ (w.toNat - 1)) (PrefixCode.start (weightValues weights) k) with
      rankStart := f.rankStart.set w.toNat (PrefixCode.start (weightValues weights) k + 2 ^ (w.toNat - 1)) }, ?_,
      hlength.trans h.length, fun v hlow hhigh => ?_, fun i => ?_, ?_, fun s hs i hi => ?_⟩
    · unfold HufFill.symbol
      simp only
      rw [if_neg hzero, hstart, ← hentry]
      simp only
      rw [hstarts]
    · simp only
      have hstartsV := h.starts v hlow hhigh
      rw [htake, List.count_append, List.count_singleton]
      by_cases hsame : w.toNat = v
      · have hinside : w.toNat < f.rankStart.length := (List.getElem?_eq_some_iff.mp hstart).1
        rw [← hsame, List.getElem?_set_self hinside, if_pos (beq_self_eq_true _), hblock, Nat.add_mul, Nat.one_mul, hslots,
          Nat.add_assoc]
      · rw [List.getElem?_set_ne hsame, hstartsV, if_neg (by rw [beq_iff_eq]; exact hsame), Nat.add_zero]
    · simp only
      rw [hfilled, List.mem_append, h.mem, List.mem_range'_1]
      constructor
      · rintro (⟨s, hs, hi⟩ | hi)
        · exact ⟨s, Nat.lt_succ_of_lt hs, hi⟩
        · exact ⟨k, Nat.lt_succ_self k, (hholds i).mpr hi⟩
      · rintro ⟨s, hs, hi⟩
        rcases Nat.lt_succ_iff_lt_or_eq.mp hs with hlt | rfl
        · exact .inl ⟨s, hlt, hi⟩
        · exact .inr ((hholds i).mp hi)
    · simp only
      rw [hfilled, List.nodup_append]
      refine ⟨h.nodup, List.nodup_range', ?_⟩
      intro i hi j hj hsame
      obtain ⟨s, hs, hholdsS⟩ := (h.mem i).mp hi
      rw [← hsame] at hj
      have hsame' := hholdsS.unique ((hholds i).mpr (List.mem_range'_1.mp hj))
      omega
    · simp only
      rw [hat]
      rcases Nat.lt_succ_iff_lt_or_eq.mp hs with hlt | rfl
      · rw [if_neg fun hin => ?_]
        · exact h.entry s hlt i hi
        · have hsame := hi.unique ((hholds i).mpr hin)
          omega
      · rw [if_pos ((hholds i).mp hi)]

theorem Filled.symbols (hfills : FillsTable tableLog weights) (rest : List Byte) : ∀ {k : Nat} {f : HufFill},
    Filled tableLog weights k f → weights.drop k = rest →
    ∃ f', HufFill.symbols tableLog rest k f = .ok f' ∧ Filled tableLog weights (k + rest.length) f' := by
  induction rest with
  | nil => exact fun {k f} h _ => ⟨f, rfl, h⟩
  | cons w ws ih =>
    intro k f h hdrop
    have hw : weights[k]? = some w := by
      have hhead := congrArg (·[0]?) hdrop
      simpa using hhead
    obtain ⟨f₁, hsymbol, hfilled⟩ := h.symbol hfills hw
    obtain ⟨f', hsymbols, hall⟩ := ih hfilled (by
      rw [← List.drop_drop, hdrop]
      rfl)
    refine ⟨f', ?_, ?_⟩
    · rw [HufFill.symbols, hsymbol]
      exact hsymbols
    · rw [List.length_cons, Nat.add_comm ws.length, ← Nat.add_assoc]
      exact hall

end HufFill

/-- A complete list of weights fills its table. -/
theorem fillTable_filled {tableLog : Nat} {weights : List Byte} (hfills : FillsTable tableLog weights) :
    ∃ f, fillTable tableLog weights = .ok f ∧ HufFill.Filled tableLog weights weights.length f := by
  have hcounts : ∀ v ≤ tableLog, (rankCounts tableLog weights)[v]? = some ((weightValues weights).count v) :=
    fun v hv => rankCounts_count tableLog weights (by omega)
  obtain ⟨starts, hstarts, _, _, hbases⟩ := rankStarts_base hcounts (Nat.le_of_eq hfills.total) tableLog
    (Nat.le_refl 1) (Nat.add_comm 1 tableLog)
    (show (List.replicate (tableLog + 2) 0).length = tableLog + 2 from List.length_replicate)
  have hone : base (weightValues weights) 1 = 0 := by
    show 0 + (weightValues weights).count 0 * 0 = 0
    rw [Nat.mul_zero]
  rw [hone] at hstarts
  have hbegin : HufFill.Filled tableLog weights 0
      { entries := List.replicate (2 ^ tableLog) .empty, rankStart := starts, filled := [] } := by
    refine ⟨List.length_replicate, fun w hlow hhigh => ?_, fun i => ?_, List.nodup_nil, fun s hs => ?_⟩
    · rw [List.take_zero, List.count_nil, Nat.zero_mul, Nat.add_zero]
      exact hbases w hlow hhigh
    · constructor
      · intro hi
        cases hi
      · rintro ⟨s, hs, _⟩
        exact absurd hs (Nat.not_lt_zero s)
    · exact absurd hs (Nat.not_lt_zero s)
  obtain ⟨f, hsymbols, hfilled⟩ := hbegin.symbols hfills weights rfl
  rw [Nat.zero_add] at hfilled
  refine ⟨f, ?_, hfilled⟩
  unfold fillTable
  simp only
  rw [hstarts]
  exact hsymbols

end Iluvatar
