/-
PAX records by their positions, and when walking them panics.

The end of a record is its position and its declared length together.  The walk compares that end
with the data, so a length that takes the end beyond 64 bits is not seen for what it is.
-/
import Iluvatar.Archive.Tar

namespace Iluvatar

/-- `data[start..stop]`; `none` is the panic of a range outside the data. -/
def sliceAt (data : List Byte) (start stop : Nat) : Option (List Byte) :=
  if start ≤ stop ∧ stop ≤ data.length then some ((data.drop start).take (stop - start)) else none

/-- The sum of two 64-bit numbers; `none` is the panic of one that does not fit. -/
def checkedAdd (a b : Nat) : Option Nat := if a + b < 2 ^ 64 then some (a + b) else none

namespace TarParser

/-- `parse_pax_data` with the slices that it takes.  `none` is a panic, or a walk that is not over
after `fuel` records. -/
def parsePaxSlices (data : List Byte) : Nat → TarParser → Nat → Option TarParser
  | 0, _, _ => none
  | fuel + 1, p, pos =>
    if pos < data.length then do
      let rest ← sliceAt data pos data.length
      match rest.findIdx? (· == 32) with
      | none => some p
      | some space => do
        let digits ← sliceAt data pos (pos + space)
        match parseU64 digits with
        | none => some p
        | some len =>
          if len ≤ space then some p
          else do
            let stop ← checkedAdd pos len
            if data.length < stop then some p
            else do
              let record ← sliceAt data (pos + space + 1) stop
              parsePaxSlices data fuel (p.paxRecord record) stop
    else some p

/-- The bytes before the first space. -/
def lengthField (rest : List Byte) : List Byte := rest.takeWhile (· != 32)

/-- The length that the record at the front declares, if a record can have it. -/
def declaredLength (rest : List Byte) : Option Nat :=
  if rest.contains 32 then
    match parseU64 (lengthField rest) with
    | none => none
    | some len => if len ≤ (lengthField rest).length then none else some len
  else none

/-- What follows the length and the space in a record of the given length. -/
def recordText (rest : List Byte) (len : Nat) : List Byte := (rest.take len).drop ((lengthField rest).length + 1)

/-- Where the records begin from `start` on that lie within the data. -/
inductive PaxRecordFrom (data : List Byte) (start : Nat) : Nat → Prop where
  | first : PaxRecordFrom data start start
  | next {pos len : Nat} : PaxRecordFrom data start pos → declaredLength (data.drop pos) = some len →
      pos + len ≤ data.length → PaxRecordFrom data start (pos + len)

theorem findIdx_space (rest : List Byte) :
    rest.findIdx? (· == 32) = if rest.contains 32 then some (lengthField rest).length else none := by
  induction rest with
  | nil => rfl
  | cons b rest ih =>
    rw [List.findIdx?_cons, lengthField, List.takeWhile_cons, List.contains_cons]
    by_cases hb : b = 32
    · subst hb
      rfl
    · have hne : (b == 32) = false := by simpa using hb
      have hne' : (32 == b) = false := by simpa using Ne.symm hb
      have hkeep : (b != 32) = true := by simpa using hb
      rw [hne, hne', hkeep, ih]
      simp only [Bool.false_eq_true, if_false, if_true, Bool.false_or, List.length_cons]
      split <;> rfl

theorem lengthField_prefix (rest : List Byte) : rest.take (lengthField rest).length = lengthField rest :=
  (List.prefix_iff_eq_take.mp (List.takeWhile_prefix _)).symm

/-- Before a space there is one byte less than the rest at most. -/
theorem lengthField_lt {rest : List Byte} (h : rest.contains 32 = true) : (lengthField rest).length < rest.length := by
  induction rest with
  | nil => cases h
  | cons b rest ih =>
    rw [lengthField, List.takeWhile_cons]
    by_cases hb : b = 32
    · subst hb
      simp
    · have hne' : (32 == b) = false := by simpa using Ne.symm hb
      have hkeep : (b != 32) = true := by simpa using hb
      rw [List.contains_cons, hne', Bool.false_or] at h
      rw [hkeep]
      have hlt := ih h
      simp only [if_true, List.length_cons]
      exact Nat.succ_lt_succ hlt

variable {data : List Byte} {start pos len fuel : Nat}

theorem sliceAt_within {stop : Nat} (h : start ≤ stop) (hstop : stop ≤ data.length) :
    sliceAt data start stop = some ((data.drop start).take (stop - start)) := if_pos ⟨h, hstop⟩

/-- One record of the walk: of its slices none is outside the data, and only the end can overflow. -/
theorem parsePaxSlices_step (fuel : Nat) (p : TarParser) (hpos : pos ≤ data.length) :
    parsePaxSlices data (fuel + 1) p pos =
      match declaredLength (data.drop pos) with
      | none => some p
      | some len =>
        if 2 ^ 64 ≤ pos + len then none
        else if data.length < pos + len then some p
        else parsePaxSlices data fuel (p.paxRecord (recordText (data.drop pos) len)) (pos + len) := by
  rw [parsePaxSlices]
  by_cases hin : pos < data.length
  · have hrest : (data.drop pos).take (data.length - pos) = data.drop pos :=
      List.take_of_length_le (Nat.le_of_eq List.length_drop)
    rw [if_pos hin, sliceAt_within hpos (Nat.le_refl _), hrest]
    simp only [bind, Option.bind, findIdx_space]
    unfold declaredLength
    by_cases hspace : (data.drop pos).contains 32 = true
    · have hfield := lengthField_lt hspace
      rw [List.length_drop] at hfield
      have hdigits : sliceAt data pos (pos + (lengthField (data.drop pos)).length)
          = some (lengthField (data.drop pos)) := by
        rw [sliceAt_within (by omega) (by omega), Nat.add_sub_cancel_left, lengthField_prefix]
      simp only [hspace, if_true, hdigits]
      cases hlen : parseU64 (lengthField (data.drop pos)) with
      | none => rfl
      | some len =>
        by_cases hshort : len ≤ (lengthField (data.drop pos)).length
        · simp only [if_pos hshort]
        · simp only [if_neg hshort]
          unfold checkedAdd
          by_cases hover : 2 ^ 64 ≤ pos + len
          · rw [if_pos hover, if_neg (by omega)]
          · rw [if_neg hover, if_pos (by omega)]
            by_cases hpast : data.length < pos + len
            · simp only [if_pos hpast]
            · have hrecord : sliceAt data (pos + (lengthField (data.drop pos)).length + 1) (pos + len) =
                  some (recordText (data.drop pos) len) := by
                rw [sliceAt_within (by omega) (by omega), recordText, List.drop_take, List.drop_drop]
                congr 2
                · omega
              simp only [if_neg hpast, hrecord]
    · have hnone : (data.drop pos).contains 32 = false := by simpa using hspace
      simp only [hnone, Bool.false_eq_true, if_false]
  · have hend : data.drop pos = [] := List.drop_of_length_le (by omega)
    rw [if_neg hin, hend]
    rfl

/-- The walk by what is left of the data takes the same records. -/
theorem parsePaxSlices_eq : ∀ (fuel : Nat) (p : TarParser) {pos : Nat}, pos ≤ data.length → data.length - pos ≤ fuel →
    parsePaxSlices data (fuel + 1) p pos = parsePaxData fuel p pos (data.drop pos) := by
  intro fuel
  induction fuel with
  | zero =>
    intro p pos hpos hfuel
    have hend : data.drop pos = [] := List.drop_of_length_le (by omega)
    rw [parsePaxSlices_step 0 p hpos, hend]
    rfl
  | succ fuel ih =>
    intro p pos hpos hfuel
    rw [parsePaxSlices_step (fuel + 1) p hpos, parsePaxData]
    unfold declaredLength
    by_cases hspace : (data.drop pos).contains 32 = true
    · simp only [hspace, if_true]
      have hfield : (data.drop pos).takeWhile (· != 32) = lengthField (data.drop pos) := rfl
      rw [hfield]
      cases hlen : parseU64 (lengthField (data.drop pos)) with
      | none => rfl
      | some len =>
        by_cases hshort : len ≤ (lengthField (data.drop pos)).length
        · simp only [if_pos hshort]
        · simp only [if_neg hshort]
          by_cases hover : 2 ^ 64 ≤ pos + len
          · rw [if_pos hover, if_pos hover]
          · rw [if_neg hover, if_neg hover]
            have hleft : (data.length < pos + len) = ((data.drop pos).length < len) := by
              rw [List.length_drop]
              exact propext (by omega)
            by_cases hpast : data.length < pos + len
            · rw [if_pos hpast, if_pos (hleft ▸ hpast)]
            · rw [if_neg hpast, if_neg (hleft ▸ hpast), ih _ (by omega) (by omega), List.drop_drop]
              rfl
    · have hnone : (data.drop pos).contains 32 = false := by simpa using hspace
      simp only [hnone, Bool.false_eq_true, if_false]

theorem PaxRecordFrom.head (h : PaxRecordFrom data start pos) : pos = start ∨
    ∃ len, declaredLength (data.drop start) = some len ∧ start + len ≤ data.length ∧
      PaxRecordFrom data (start + len) pos := by
  induction h with
  | first => exact .inl rfl
  | @next pos len hrecord hlen hfits ih =>
    rcases ih with rfl | ⟨first, hfirst, hin, hfrom⟩
    · exact .inr ⟨len, hlen, hfits, .first⟩
    · exact .inr ⟨first, hfirst, hin, hfrom.next hlen hfits⟩

theorem PaxRecordFrom.after (hlen : declaredLength (data.drop start) = some len) (hfits : start + len ≤ data.length)
    (h : PaxRecordFrom data (start + len) pos) : PaxRecordFrom data start pos := by
  induction h with
  | first => exact PaxRecordFrom.first.next hlen hfits
  | next _ hlen' hfits' ih => exact ih.next hlen' hfits'

theorem declaredLength_pos {rest : List Byte} (h : declaredLength rest = some len) : 0 < len := by
  unfold declaredLength at h
  split at h
  · split at h
    · cases h
    · split at h
      · cases h
      · obtain rfl := Option.some.inj h
        omega
  · cases h

/-- Walking on from `pos` is over in time, and panics where a record's end does not fit 64 bits. -/
theorem parsePaxSlices_isSome : ∀ (fuel : Nat) (p : TarParser) {pos : Nat}, pos ≤ data.length →
    data.length - pos < fuel →
    ((parsePaxSlices data fuel p pos).isSome = true ↔
      ∀ at_ len, PaxRecordFrom data pos at_ → declaredLength (data.drop at_) = some len → at_ + len < 2 ^ 64) := by
  intro fuel
  induction fuel with
  | zero =>
    intro p pos _ hfuel
    exact absurd hfuel (Nat.not_lt_zero _)
  | succ fuel ih =>
    intro p pos hpos hfuel
    rw [parsePaxSlices_step fuel p hpos]
    cases hlen : declaredLength (data.drop pos) with
    | none =>
      refine iff_of_true rfl fun at_ len hrecord hat => ?_
      rcases hrecord.head with rfl | ⟨first, hfirst, _⟩
      · rw [hlen] at hat
        cases hat
      · rw [hlen] at hfirst
        cases hfirst
    | some len =>
      simp only
      by_cases hover : 2 ^ 64 ≤ pos + len
      · rw [if_pos hover]
        refine iff_of_false (by simp) fun hall => ?_
        exact absurd (hall pos len .first hlen) (by omega)
      · rw [if_neg hover]
        by_cases hpast : data.length < pos + len
        · rw [if_pos hpast]
          refine iff_of_true rfl fun at_ len' hrecord hat => ?_
          rcases hrecord.head with rfl | ⟨first, hfirst, hin, _⟩
          · rw [hlen] at hat
            obtain rfl := Option.some.inj hat
            omega
          · rw [hlen] at hfirst
            obtain rfl := Option.some.inj hfirst
            omega
        · have hpositive := declaredLength_pos hlen
          rw [if_neg hpast, ih _ (by omega) (by omega)]
          constructor
          · intro hall at_ len' hrecord hat
            rcases hrecord.head with rfl | ⟨first, hfirst, _, hfrom⟩
            · rw [hlen] at hat
              obtain rfl := Option.some.inj hat
              omega
            · rw [hlen] at hfirst
              obtain rfl := Option.some.inj hfirst
              exact hall at_ len' hfrom hat
          · intro hall at_ len' hrecord hat
            exact hall at_ len' (hrecord.after hlen (by omega)) hat

/-- Extended header data is parsed without a panic exactly when no record's end overflows. -/
theorem parsePaxData_safe_iff (p : TarParser) (data : List Byte) :
    parsePaxSlices data (data.length + 1) p 0 = parsePaxData data.length p 0 data ∧
      ((parsePaxSlices data (data.length + 1) p 0).isSome = true ↔
        ∀ pos len, PaxRecordFrom data 0 pos → declaredLength (data.drop pos) = some len → pos + len < 2 ^ 64) :=
  ⟨parsePaxSlices_eq data.length p (Nat.zero_le _) (Nat.le_refl _),
    parsePaxSlices_isSome (data.length + 1) p (Nat.zero_le _) (Nat.lt_succ_self _)⟩

/-- The second record declares the largest length there is. -/
theorem parsePaxData_panics :
    parsePaxSlices (ascii "6 a=b\n18446744073709551615 path=x\n") 35 new 0 = none ∧
      parsePaxData 34 new 0 (ascii "6 a=b\n18446744073709551615 path=x\n") = none := by
  decide

end TarParser
end Iluvatar
