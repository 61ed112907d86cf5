/-
The distributions that `readNcount` accepts.

Each count read is taken from what remains of the table, so that a distribution whose
remainder ends at 1 fills the table exactly.
-/
import Iluvatar.Zstd.Fse
import Iluvatar.Library.Fallible
import Mathlib.Algebra.BigOperators.Group.List.Basic

namespace Iluvatar

/-- How many slots a symbol of this count has; a count of -1 is for one. -/
def slotCount (count : Int) : Nat := count.natAbs

/-- The slots of a whole distribution. -/
def slotTotal (counts : List Int) : Nat := (counts.map slotCount).sum

/-- A distribution that fills its table, all of it up to the largest symbol. -/
structure NCount.Valid (n : NCount) : Prop where
  range : ∀ count ∈ n.normalized, -1 ≤ count
  total : slotTotal n.normalized = 2 ^ n.tableLog
  symbols : n.maxSymbol < n.normalized.length
  rest : ∀ count ∈ n.normalized.drop (n.maxSymbol + 1), count = 0
  tableLog_ge : fseMinTableLog ≤ n.tableLog
  tableLog_le : n.tableLog ≤ maxFseLog

theorem slotTotal_set {counts : List Int} {i : Nat} {count : Int} (h : counts[i]? = some 0) :
    slotTotal (counts.set i count) = slotTotal counts + slotCount count := by
  induction counts generalizing i with
  | nil => exact absurd h (by simp)
  | cons c counts ih =>
    cases i with
    | zero =>
      obtain rfl := Option.some.inj h
      simp only [slotTotal, List.set_cons_zero, List.map_cons, List.sum_cons, slotCount, Int.natAbs_zero]
      omega
    | succ i =>
      have htail := ih (i := i) h
      simp only [slotTotal] at htail
      simp only [slotTotal, List.set_cons_succ, List.map_cons, List.sum_cons, htail]
      omega

/-- A count is -1 at least. -/
theorem readCount_ge {reader reader' : ForwardBitReader} {remaining threshold count : Int} {nbBits : Nat}
    (h : readCount reader remaining threshold nbBits = .ok (count, reader')) : -1 ≤ count := by
  obtain ⟨⟨low, r⟩, _, h⟩ := Except.bind_eq_ok.mp h
  simp only at h
  by_cases hsmall : (low : Int) < 2 * threshold - 1 - remaining
  · rw [if_pos hsmall] at h
    obtain ⟨rfl, _⟩ := Prod.mk.inj (Except.ok.inj h)
    omega
  · rw [if_neg hsmall] at h
    obtain ⟨⟨extra, r'⟩, _, h⟩ := Except.bind_eq_ok.mp h
    simp only at h
    have hvalue : (low : Int) ≤ ((low + extra <<< (nbBits - 1) : Nat) : Int) :=
      Int.ofNat_le.mpr (Nat.le_add_right ..)
    generalize ((low + extra <<< (nbBits - 1) : Nat) : Int) = value at h hvalue
    split at h
    · obtain ⟨rfl, _⟩ := Prod.mk.inj (Except.ok.inj h)
      omega
    · obtain ⟨rfl, _⟩ := Prod.mk.inj (Except.ok.inj h)
      omega

theorem zeroRun_ge {maxSv1 fuel charnum charnum' : Nat} {reader reader' : ForwardBitReader}
    (h : zeroRun maxSv1 fuel reader charnum = .ok (charnum', reader')) : charnum ≤ charnum' := by
  induction fuel generalizing reader charnum with
  | zero => exact absurd h (by simp [zeroRun])
  | succ fuel ih =>
    obtain ⟨⟨bits, r⟩, _, h⟩ := Except.bind_eq_ok.mp h
    simp only at h
    split at h
    · split at h
      · obtain ⟨rfl, _⟩ := Prod.mk.inj (Except.ok.inj h)
        omega
      · have := ih h
        omega
    · obtain ⟨rfl, _⟩ := Prod.mk.inj (Except.ok.inj h)
      omega

namespace NCountState

/-- What the loop keeps: the counts read and what remains make up the table, and the symbols
to come have no count yet. -/
structure Accounts (maxSv1 tableLog : Nat) (st : NCountState) : Prop where
  length : st.normalized.length = maxSv1
  range : ∀ count ∈ st.normalized, -1 ≤ count
  total : (slotTotal st.normalized : Int) + st.remaining = 2 ^ tableLog + 1
  rest : ∀ i, st.charnum ≤ i → i < maxSv1 → st.normalized[i]? = some 0

variable {maxSv1 tableLog : Nat} {st st' : NCountState}

theorem start_accounts (reader : ForwardBitReader) :
    Accounts maxSv1 tableLog (start reader maxSv1 tableLog) where
  length := List.length_replicate
  range := by
    intro count hcount
    rw [List.eq_of_mem_replicate hcount]
    decide
  total := by
    have hzero : slotTotal (List.replicate maxSv1 0) = 0 := by
      rw [slotTotal, List.map_replicate, List.sum_replicate]
      exact Nat.mul_zero _
    simp only [start, hzero]
    omega
  rest := by
    intro i _ hi
    simp [start, hi]

/-- A count is entered. -/
theorem Accounts.counted (h : st.Accounts maxSv1 tableLog) {charnum : Nat} {count : Int}
    (hge : -1 ≤ count) (hcharnum : st.charnum ≤ charnum) (hlt : charnum < maxSv1)
    (reader : ForwardBitReader) : (st.counted maxSv1 charnum count reader).Accounts maxSv1 tableLog := by
  have hset : (st.counted maxSv1 charnum count reader).normalized = st.normalized.set charnum count :=
    if_pos hlt
  refine ⟨?_, ?_, ?_, ?_⟩
  · rw [hset, List.length_set]
    exact h.length
  · rw [hset]
    intro c hc
    rcases List.mem_or_eq_of_mem_set hc with hc | rfl
    · exact h.range c hc
    · exact hge
  · have hremaining : (st.counted maxSv1 charnum count reader).remaining = st.remaining - slotCount count := by
      show (if 0 ≤ count then st.remaining - count else st.remaining + count) = _
      rw [slotCount]
      split <;> omega
    have htotal := h.total
    rw [hset, slotTotal_set (h.rest charnum hcharnum hlt), hremaining]
    omega
  · intro i hi hlti
    have hmore : charnum + 1 ≤ i := hi
    rw [hset, List.getElem?_set_ne (by omega)]
    exact h.rest i (by omega) hlti

/-- The counts do not depend on the threshold. -/
theorem Accounts.narrowed (h : st.Accounts maxSv1 tableLog) (hnarrowed : st.narrowed = .ok st') :
    st'.Accounts maxSv1 tableLog ∧ st'.charnum = st.charnum := by
  rw [NCountState.narrowed] at hnarrowed
  split at hnarrowed
  · obtain ⟨top, _, hnarrowed⟩ := Except.bind_eq_ok.mp hnarrowed
    obtain rfl := Except.ok.inj hnarrowed
    exact ⟨⟨h.length, h.range, h.total, h.rest⟩, rfl⟩
  · obtain rfl := Except.ok.inj hnarrowed
    exact ⟨h, rfl⟩

/-- One turn keeps the account; when it goes on, symbols are left. -/
theorem Accounts.turn (h : st.Accounts maxSv1 tableLog) (hlt : st.charnum < maxSv1) {more : Bool}
    (hturn : st.turn maxSv1 = .ok (more, st')) :
    st'.Accounts maxSv1 tableLog ∧ (0 < st.charnum ∨ st.previous0 = false → 0 < st'.charnum) ∧
      (more = true → st'.charnum < maxSv1) := by
  unfold NCountState.turn at hturn
  obtain ⟨⟨charnum, reader⟩, hzeros, hturn⟩ := Except.bind_eq_ok.mp hturn
  simp only at hturn
  rw [NCountState.skipZeros] at hzeros
  have hge : st.charnum ≤ charnum := by
    split at hzeros
    · exact zeroRun_ge hzeros
    · obtain ⟨rfl, _⟩ := Prod.mk.inj (Except.ok.inj hzeros)
      exact Nat.le_refl _
  by_cases hout : st.previous0 = true ∧ maxSv1 ≤ charnum
  · rw [if_pos hout] at hturn
    obtain ⟨rfl, rfl⟩ := Prod.mk.inj (Except.ok.inj hturn)
    refine ⟨⟨h.length, h.range, h.total, fun i hi => h.rest i (Nat.le_trans hge hi)⟩, ?_,
      fun hmore => absurd hmore (by simp)⟩
    show _ → 0 < charnum
    omega
  · rw [if_neg hout] at hturn
    obtain ⟨⟨count, reader'⟩, hcount, hturn⟩ := Except.bind_eq_ok.mp hturn
    simp only at hturn
    have hbelow : charnum < maxSv1 := by
      by_cases hprevious : st.previous0 = true
      · exact Nat.lt_of_not_le fun hle => hout ⟨hprevious, hle⟩
      · rw [if_neg hprevious] at hzeros
        obtain ⟨rfl, _⟩ := Prod.mk.inj (Except.ok.inj hzeros)
        exact hlt
    have hcounted := h.counted (readCount_ge hcount) hge hbelow reader'
    have hnext : (st.counted maxSv1 charnum count reader').charnum = charnum + 1 := rfl
    split at hturn
    · obtain ⟨rfl, rfl⟩ := Prod.mk.inj (Except.ok.inj hturn)
      exact ⟨hcounted, fun _ => by omega, fun hmore => absurd hmore (by simp)⟩
    · obtain ⟨st₁, hnarrowed, hturn⟩ := Except.bind_eq_ok.mp hturn
      obtain ⟨rfl, rfl⟩ := Prod.mk.inj (Except.ok.inj hturn)
      obtain ⟨haccounts, hsame⟩ := hcounted.narrowed hnarrowed
      exact ⟨haccounts, fun _ => by omega, fun hmore => of_decide_eq_true hmore⟩

/-- The loop keeps the account. -/
theorem Accounts.run {fuel : Nat} (h : st.Accounts maxSv1 tableLog) (hlt : st.charnum < maxSv1)
    (hfirst : 0 < st.charnum ∨ st.previous0 = false) (hrun : st.run maxSv1 fuel = .ok st') :
    st'.Accounts maxSv1 tableLog ∧ 0 < st'.charnum := by
  induction fuel generalizing st with
  | zero => exact absurd hrun (by simp [NCountState.run])
  | succ fuel ih =>
    obtain ⟨⟨more, st₁⟩, hturn, hrun⟩ := Except.bind_eq_ok.mp hrun
    simp only at hrun
    obtain ⟨haccounts, hpos, hmore⟩ := h.turn hlt hturn
    by_cases hgoes : more = true
    · rw [if_pos hgoes] at hrun
      exact ih haccounts (hmore hgoes) (.inl (hpos hfirst)) hrun
    · rw [if_neg hgoes] at hrun
      obtain rfl := Except.ok.inj hrun
      exact ⟨haccounts, hpos hfirst⟩

end NCountState

theorem readNcountInner_valid {data : List Byte} {maxSymbol actualLen : Nat} {n : NCount}
    (h : readNcountInner data maxSymbol actualLen = .ok n) : n.Valid := by
  obtain ⟨⟨raw, reader⟩, _, h⟩ := Except.bind_eq_ok.mp h
  simp only at h
  by_cases hlog : maxFseLog < raw + fseMinTableLog
  · rw [if_pos hlog] at h
    exact absurd h (by simp)
  rw [if_neg hlog] at h
  by_cases hmax : 2 ^ 32 ≤ maxSymbol + 1
  · rw [if_pos hmax] at h
    exact absurd h (by simp)
  rw [if_neg hmax] at h
  obtain ⟨st, hrun, h⟩ := Except.bind_eq_ok.mp h
  obtain ⟨haccounts, hpos⟩ := (NCountState.start_accounts reader).run (Nat.succ_pos _) (.inr rfl) hrun
  by_cases hone : st.remaining ≠ 1
  · rw [if_pos hone] at h
    exact absurd h (by simp)
  rw [if_neg hone] at h
  by_cases hmany : maxSymbol + 1 < st.charnum
  · rw [if_pos hmany] at h
    exact absurd h (by simp)
  rw [if_neg hmany] at h
  by_cases hlong : actualLen < st.reader.bytesConsumed
  · rw [if_pos hlong] at h
    exact absurd h (by simp)
  rw [if_neg hlong] at h
  obtain rfl := Except.ok.inj h
  have hlast : (if 0 < st.charnum then st.charnum - 1 else 0) + 1 = st.charnum := by
    rw [if_pos hpos]
    omega
  refine ⟨haccounts.range, ?_, ?_, ?_, Nat.le_add_left .., Nat.not_lt.mp hlog⟩
  · have htotal := haccounts.total
    have hremaining : st.remaining = 1 := by
      by_contra hother
      exact hone hother
    rw [hremaining] at htotal
    have hcast : (slotTotal st.normalized : Int) = ((2 ^ (raw + fseMinTableLog) : Nat) : Int) := by
      rw [Int.natCast_pow]
      show _ = (2 : Int) ^ (raw + fseMinTableLog)
      omega
    exact Int.ofNat.inj hcast
  · show (if 0 < st.charnum then st.charnum - 1 else 0) < st.normalized.length
    rw [haccounts.length]
    omega
  · show ∀ count ∈ st.normalized.drop ((if 0 < st.charnum then st.charnum - 1 else 0) + 1), count = 0
    rw [hlast]
    intro count hcount
    obtain ⟨i, hi, rfl⟩ := List.getElem_of_mem hcount
    rw [List.length_drop, haccounts.length] at hi
    have hzero := haccounts.rest (st.charnum + i) (by omega) (by omega)
    rw [List.getElem_drop]
    exact Option.some.inj ((List.getElem?_eq_getElem _).symm.trans hzero)

/-- A distribution that is read fills its table. -/
theorem readNcount_valid {data : List Byte} {maxSymbol : Nat} {n : NCount}
    (h : readNcount data maxSymbol = .ok n) : n.Valid := by
  rw [readNcount] at h
  split at h <;> exact readNcountInner_valid h

/-! ## The loops end -/

theorem readNamed_ends (what : String) (r : ForwardBitReader) (n : Nat) :
    readNamed what r n ≠ .error .endless := by
  rw [readNamed]
  cases r.readBits n <;> simp [Except.mapError]

theorem zeroRun_ends {maxSv1 fuel charnum : Nat} (reader : ForwardBitReader) (hfuel : 0 < fuel)
    (h : maxSv1 < charnum + fuel) : zeroRun maxSv1 fuel reader charnum ≠ .error .endless := by
  induction fuel generalizing reader charnum with
  | zero => exact absurd hfuel (Nat.lt_irrefl 0)
  | succ fuel ih =>
    rw [zeroRun]
    refine Except.bind_ne_error (readNamed_ends _ _ _) fun ⟨bits, r⟩ _ => ?_
    simp only
    split
    · split
      · simp
      · exact ih r (by omega) (by omega)
    · simp

theorem readCount_ends (reader : ForwardBitReader) (remaining threshold : Int) (nbBits : Nat) :
    readCount reader remaining threshold nbBits ≠ .error .endless := by
  refine Except.bind_ne_error (readNamed_ends _ _ _) fun ⟨low, r⟩ _ => ?_
  simp only
  split
  · simp
  · refine Except.bind_ne_error (readNamed_ends _ _ _) fun ⟨extra, r'⟩ _ => ?_
    simp only
    split <;> simp

namespace NCountState

variable {maxSv1 : Nat} {st st' : NCountState}

theorem narrowed_ends : st.narrowed ≠ .error .endless := by
  rw [narrowed]
  split
  · refine Except.bind_ne_error ?_ fun top _ => by simp
    rw [highestBit]
    split <;> simp
  · simp

theorem turn_ends : st.turn maxSv1 ≠ .error .endless := by
  unfold turn
  refine Except.bind_ne_error ?_ fun ⟨charnum, reader⟩ _ => ?_
  · rw [skipZeros]
    split
    · exact zeroRun_ends _ (Nat.succ_pos _) (by omega)
    · simp
  · simp only
    split
    · simp
    · refine Except.bind_ne_error (readCount_ends _ _ _ _) fun ⟨count, reader'⟩ _ => ?_
      simp only
      split
      · simp
      · exact Except.bind_ne_error narrowed_ends fun st₁ _ => by simp

/-- A turn that goes on has come to a later symbol. -/
theorem turn_advances (h : st.turn maxSv1 = .ok (true, st')) :
    st.charnum < st'.charnum ∧ st'.charnum < maxSv1 := by
  unfold turn at h
  obtain ⟨⟨charnum, reader⟩, hzeros, h⟩ := Except.bind_eq_ok.mp h
  simp only at h
  have hge : st.charnum ≤ charnum := by
    rw [skipZeros] at hzeros
    split at hzeros
    · exact zeroRun_ge hzeros
    · obtain ⟨rfl, _⟩ := Prod.mk.inj (Except.ok.inj hzeros)
      exact Nat.le_refl _
  split at h
  · exact absurd h (by simp)
  · obtain ⟨⟨count, reader'⟩, _, h⟩ := Except.bind_eq_ok.mp h
    simp only at h
    split at h
    · exact absurd h (by simp)
    · obtain ⟨st₁, hnarrowed, h⟩ := Except.bind_eq_ok.mp h
      obtain ⟨hmore, rfl⟩ := Prod.mk.inj (Except.ok.inj h)
      have hsame : st₁.charnum = charnum + 1 := by
        rw [narrowed] at hnarrowed
        split at hnarrowed
        · obtain ⟨top, _, hnarrowed⟩ := Except.bind_eq_ok.mp hnarrowed
          rw [← Except.ok.inj hnarrowed]
          rfl
        · rw [← Except.ok.inj hnarrowed]
          rfl
      exact ⟨by omega, of_decide_eq_true hmore⟩

theorem run_ends {fuel : Nat} (hfuel : 0 < fuel) (h : maxSv1 ≤ st.charnum + fuel) :
    st.run maxSv1 fuel ≠ .error .endless := by
  induction fuel generalizing st with
  | zero => exact absurd hfuel (Nat.lt_irrefl 0)
  | succ fuel ih =>
    rw [run]
    refine Except.bind_ne_error turn_ends fun ⟨more, st₁⟩ hturn => ?_
    cases more with
    | false => simp
    | true =>
      obtain ⟨hnext, hbelow⟩ := turn_advances hturn
      exact ih (by omega) (by omega)

end NCountState

/-- Reading a distribution comes to an end: the fuel of its loops is enough. -/
theorem readNcount_ends (data : List Byte) (maxSymbol : Nat) :
    readNcount data maxSymbol ≠ .error .endless := by
  have hinner : ∀ data actualLen, readNcountInner data maxSymbol actualLen ≠ .error .endless := by
    intro data actualLen
    refine Except.bind_ne_error (readNamed_ends _ _ _) fun ⟨raw, reader⟩ _ => ?_
    simp only
    split
    · simp
    split
    · simp
    refine Except.bind_ne_error (NCountState.run_ends (Nat.succ_pos _) (by omega)) fun st _ => ?_
    split
    · simp
    split
    · simp
    split <;> simp
  rw [readNcount]
  split <;> exact hinner _ _

end Iluvatar
