/-
The bits that two states of a table take in turns, and how many turns there can be.

A state of a symbol that does not have all the slots goes down where it takes no bits, so that turns
end with the bits.
-/
import Iluvatar.Zstd.BackwardReader

namespace Iluvatar

/-- The stream `bits` begins with the codes of `n` turns: the state whose turn it is gives way to the
one that its code leads to, and the turn goes to the other. -/
inductive Codes (entries : List FseEntry) : Nat → Nat → Nat → List Bool → Prop where
  | done (state other : Nat) (bits : List Bool) : Codes entries 0 state other bits
  | turn {n state other : Nat} {e : FseEntry} {code bits : List Bool} (entry : entries[state]? = some e)
      (width : code.length = e.nbBits.toNat)
      (rest : Codes entries n other (e.nextState.toNat + bitsValue code) bits) :
      Codes entries (n + 1) state other (code ++ bits)

theorem bitsValue_lt (bits : List Bool) : bitsValue bits < 2 ^ bits.length := by
  refine Nat.lt_pow_two_of_testBit _ fun i hi => ?_
  rw [bitsValue_testBit, decide_eq_false (Nat.not_lt.mpr hi), Bool.false_and]

namespace Turns

variable {table : FseTable} {t : Turns} {bits : List Bool}

theorem codes_succ {entries : List FseEntry} {n state other : Nat} {e : FseEntry} (h : entries[state]? = some e) :
    Codes entries (n + 1) state other bits ↔ e.nbBits.toNat ≤ bits.length ∧
      Codes entries n other (e.nextState.toNat + bitsValue (bits.take e.nbBits.toNat))
        (bits.drop e.nbBits.toNat) := by
  constructor
  · intro hcodes
    cases hcodes with
    | @turn _ _ _ e' code bits' hentry hwidth hrest =>
      obtain rfl := Option.some.inj (hentry.symm.trans h)
      rw [← hwidth, List.take_left', List.drop_left', List.length_append]
      · exact ⟨Nat.le_add_right _ _, hrest⟩
      · rfl
      · rfl
  · rintro ⟨hle, hrest⟩
    have hwidth : (bits.take e.nbBits.toNat).length = e.nbBits.toNat := List.length_take_of_le hle
    have hcodes := Codes.turn h hwidth hrest
    rwa [List.take_append_drop] at hcodes

/-- Turns read codes where their bits are there. -/
theorem codes_iff (hclosed : Closed table) (hnarrow : ∀ e ∈ table.entries, e.nbBits.toNat ≤ 56) (n : Nat) :
    ∀ {t : Turns} {bits : List Bool}, t.Within table → t.reader.bitPos ≤ t.reader.totalBits → t.reader.Has bits 0 →
      (Codes table.entries n t.state t.other bits ↔ t.reader.bitPos + bitsTaken table n t ≤ t.reader.totalBits) := by
  induction n with
  | zero => exact fun _ hin _ => ⟨fun _ => hin, fun _ => .done _ _ _⟩
  | succ n ih =>
    intro t bits hwithin hin hhas
    have hlength := hhas.length
    unfold BackwardBitReader.bitsRemaining at hlength
    rw [codes_succ (entry_eq hwithin), bitsTaken]
    by_cases hfew : bits.length < (t.entry table).nbBits.toNat
    · constructor
      · intro hcodes
        exact absurd hcodes.1 (Nat.not_le.mpr hfew)
      · intro hle
        omega
    · have hpeek : t.reader.peekBitsPadded (t.entry table).nbBits.toNat =
          bitsValue (bits.take (t.entry table).nbBits.toNat) := by
        rw [hhas.peek (hnarrow _ (entry_mem hwithin)), paddedTo, show _ - bits.length = 0 by omega,
          List.replicate_zero, List.append_nil]
      have hrest := hhas.read (t.entry table).nbBits.toNat
      rw [show 0 + ((t.entry table).nbBits.toNat - bits.length) = 0 by omega] at hrest
      have hnext := ih (t := t.turn table) (turn_within hclosed hwithin)
        (show t.reader.bitPos + (t.entry table).nbBits.toNat ≤ t.reader.totalBits by omega) hrest
      rw [← hpeek]
      change _ ∧ Codes table.entries n (t.turn table).state (t.turn table).other _ ↔ _
      rw [hnext, turn_bits, turn_total]
      omega

/-! ## Turns that take no bits -/

/-- An entry that takes no bits leads to a lower state. -/
def Falls (table : FseTable) : Prop :=
  ∀ (i : Nat) (e : FseEntry), table.entries[i]? = some e → e.nbBits.toNat = 0 → e.nextState.toNat < i

/-- The turns that are left: a bit is worth more than both states, and without one a state goes down. -/
def left (table : FseTable) (t : Turns) : Nat :=
  (t.reader.totalBits - t.reader.bitPos) * (2 * table.entries.length) + t.state + t.other

theorem turn_left (hclosed : Closed table) (hfalls : Falls table) (h : t.Within table)
    (hin : (t.turn table).reader.bitPos ≤ t.reader.totalBits) : (t.turn table).left table < t.left table := by
  have hafter := turn_within hclosed h
  have hbits := turn_bits table t
  have hstate := h.state
  have hother := hafter.other
  have hnext : (t.turn table).other = (t.entry table).nextState.toNat +
    t.reader.peekBitsPadded (t.entry table).nbBits.toNat := rfl
  by_cases hnone : (t.entry table).nbBits.toNat = 0
  · have hlower := hfalls _ _ (entry_eq h) hnone
    have hzero : t.reader.peekBitsPadded 0 = 0 := rfl
    rw [hnone, hzero] at hnext
    rw [hnone, Nat.add_zero] at hbits
    show (t.reader.totalBits - (t.turn table).reader.bitPos) * _ + t.other + (t.turn table).other < _
    rw [hbits, hnext, left]
    omega
  · have hless : t.reader.totalBits - (t.turn table).reader.bitPos + 1 ≤ t.reader.totalBits - t.reader.bitPos := by
      omega
    have hworth := Nat.mul_le_mul_right (2 * table.entries.length) hless
    rw [Nat.add_mul, Nat.one_mul] at hworth
    show (t.reader.totalBits - (t.turn table).reader.bitPos) * _ + t.other + (t.turn table).other < _
    rw [left]
    omega

/-- Where entries that take no bits go down, turns come to the end of the stream. -/
theorem spell_ends (hclosed : Closed table) (hfalls : Falls table) (n : Nat) :
    ∀ {t : Turns}, t.Within table → t.left table < n → spell table n t ≠ none := by
  induction n with
  | zero => exact fun _ hleft => absurd hleft (Nat.not_lt_zero _)
  | succ n ih =>
    intro t hwithin hleft
    rw [spell]
    by_cases hover : (t.turn table).reader.isOverflowed = true
    · rw [if_pos hover]
      exact Option.some_ne_none _
    · rw [if_neg hover]
      have hin : (t.turn table).reader.bitPos ≤ t.reader.totalBits := by
        rw [BackwardBitReader.isOverflowed, decide_eq_true_eq, turn_total] at hover
        exact Nat.not_lt.mp hover
      have hless := turn_left hclosed hfalls hwithin hin
      intro hnone
      exact ih (turn_within hclosed hwithin) (by omega) (Option.map_eq_none_iff.mp hnone)

end Turns

/-! ## The slots of a symbol -/

/-- A symbol has all the slots where its count is the size of the table. -/
theorem firstNumber_all {tableLog : Nat} (hlog : 0 < tableLog) (count : Int) :
    firstNumber count = 2 ^ tableLog ↔ count = 2 ^ tableLog := by
  have hwide : 2 ^ 1 ≤ 2 ^ tableLog := Nat.pow_le_pow_right (by decide) hlog
  have hcast : ((2 ^ tableLog : Nat) : Int) = 2 ^ tableLog := by
    rw [Nat.cast_pow]
    rfl
  rw [firstNumber, ← hcast]
  split <;> omega

namespace NumberedTable

variable {tableLog : Nat} {counts : List Int} {entries out : List FseEntry}

/-- An entry of the table that takes no bits leads below itself, unless its symbol has all the slots. -/
theorem falls (h : NumberedTable tableLog counts entries out)
    (hshared : ∀ (s : Nat) (count : Int), counts[s]? = some count → firstNumber count < 2 ^ tableLog) {i : Nat} {e : FseEntry}
    (he : out[i]? = some e) (hnone : e.nbBits.toNat = 0) : e.nextState.toNat < i := by
  obtain ⟨hlt, _⟩ := List.getElem?_eq_some_iff.mp he
  rw [h.length] at hlt
  have hplain : entries[i]? = some entries[i] := List.getElem?_eq_getElem hlt
  obtain ⟨e', count, he', hcount, hnumbered⟩ := h.numbers i _ hplain
  obtain rfl := Option.some.inj (he.symm.trans he')
  have hfew := hshared _ _ hcount
  have hself : (entries[i]).isOf (entries[i]).symbol.toNat = true := by simp [FseEntry.isOf]
  have hbelow := h.number_lt hplain hself hcount
  have hrank : (entries.take i).countP (FseEntry.isOf (entries[i]).symbol.toNat) ≤ i :=
    Nat.le_trans List.countP_le_length (List.length_take_le _ _)
  rw [hnumbered.nbBits] at hnone
  rw [hnumbered.nextState, FiniteState.first, hnone, Nat.pow_zero, Nat.mul_one]
  have hwide : 2 ^ tableLog ≤ firstNumber count + (entries.take i).countP (FseEntry.isOf (entries[i]).symbol.toNat) := by
    have hdigits := @Nat.log2_self_le (firstNumber count + (entries.take i).countP
      (FseEntry.isOf (entries[i]).symbol.toNat)) (by omega)
    refine Nat.le_trans (Nat.pow_le_pow_right (by decide) ?_) hdigits
    unfold FiniteState.width at hnone
    omega
  omega

/-- Where a symbol has all the slots, no entry takes bits. -/
theorem nbBits_all (h : NumberedTable tableLog counts entries out) {s : Nat} {count : Int}
    (hcount : counts[s]? = some count) (hall : firstNumber count = 2 ^ tableLog) : ∀ e ∈ out, e.nbBits.toNat = 0 := by
  intro e' he'
  obtain ⟨i, hlt, hat⟩ := List.getElem_of_mem he'
  rw [h.length] at hlt
  have hplain : entries[i]? = some entries[i] := List.getElem?_eq_getElem hlt
  have hof : (entries[i]).isOf s = true := by
    have hshare := h.share s count hcount
    rw [hall, ← h.size] at hshare
    exact List.countP_eq_length.mp hshare _ (List.getElem_mem hlt)
  obtain ⟨a, ha, hnumbered⟩ := h.numbers_of hplain hof hcount
  obtain rfl : a = e' := by
    rw [← hat]
    exact (Option.some.inj ((List.getElem?_eq_getElem _).symm.trans ha)).symm
  rw [hnumbered.nbBits, FiniteState.width]
  have hpow := Nat.two_pow_pos tableLog
  have hdigits : tableLog ≤ Nat.log2 (firstNumber count + (entries.take i).countP (FseEntry.isOf s)) :=
    (Nat.le_log2 (by omega)).mpr (by omega)
  omega

end NumberedTable
end Iluvatar
