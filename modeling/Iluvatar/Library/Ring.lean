/-
A circular buffer, and the end of the sequence it holds.

Each symbol of a sequence is kept at its index, shifted by a constant, modulo the buffer's
length, so the buffer holds the sequence's last symbols wherever writing stands.
-/
import Iluvatar.Library.Buffer

namespace Buffer

variable {α : Type}

/-- The buffer, written up to place `pos`, holds the last symbols of `out`. -/
def Holds (ring : List α) (pos : Nat) (out : List α) : Prop :=
  ∃ shift, pos % ring.length = (out.length + shift) % ring.length ∧
    ∀ i < out.length, out.length ≤ i + ring.length → ring[(i + shift) % ring.length]? = out[i]?

/-- Nothing was written. -/
theorem holds_nil (ring : List α) : Holds ring 0 [] :=
  ⟨0, rfl, fun _ h => absurd h (Nat.not_lt_zero _)⟩

theorem Holds.mod {ring out : List α} {pos : Nat} (h : Holds ring pos out) :
    Holds ring (pos % ring.length) out := by
  obtain ⟨shift, hpos, hlast⟩ := h
  exact ⟨shift, by rw [Nat.mod_mod, hpos], hlast⟩

/-- A sum modulo `w` that stays below `w` after the modulus. -/
theorem add_mod_of_lt {a b w : Nat} (h : a % w + b < w) : (a + b) % w = a % w + b := by
  rw [Nat.add_mod, Nat.mod_eq_of_lt (Nat.lt_of_le_of_lt (Nat.le_add_left b _) h), Nat.mod_eq_of_lt h]

/-- Symbols are written from the place on, without going round. -/
theorem Holds.append {ring out : List α} {pos : Nat} (h : Holds ring pos out) (xs : List α)
    (hfit : pos % ring.length + xs.length ≤ ring.length) :
    Holds (splice ring (pos % ring.length) xs) (pos + xs.length) (out ++ xs) := by
  obtain ⟨shift, hpos, hlast⟩ := h
  have hlen : (splice ring (pos % ring.length) xs).length = ring.length := splice_length hfit
  refine ⟨shift, ?_, ?_⟩
  · rw [hlen, List.length_append, Nat.add_mod, hpos, ← Nat.add_mod]
    congr 1
    omega
  · intro i hi hrecent
    rw [hlen, List.length_append] at hrecent
    rw [List.length_append] at hi
    rw [hlen, getElem?_splice hfit]
    by_cases hold : i < out.length
    · have hback : (i + shift) % ring.length < pos % ring.length ∨
          pos % ring.length + xs.length ≤ (i + shift) % ring.length := by
        have hw : 0 < ring.length := by omega
        by_cases hleft : (i + shift) % ring.length < pos % ring.length
        · exact .inl hleft
        by_cases hright : pos % ring.length + xs.length ≤ (i + shift) % ring.length
        · exact .inr hright
        exfalso
        -- the place would be reached again before going round
        have hstep : (i + shift + (out.length - i)) % ring.length = pos % ring.length := by
          rw [hpos]
          congr 1
          omega
        have hsplit := Nat.div_add_mod (i + shift) ring.length
        have hsplit' := Nat.div_add_mod (i + shift + (out.length - i)) ring.length
        rw [hstep] at hsplit'
        have hlt := Nat.mod_lt (i + shift) hw
        have hquot : (i + shift) / ring.length ≤ (i + shift + (out.length - i)) / ring.length :=
          Nat.div_le_div_right (Nat.le_add_right _ _)
        by_cases hsame : (i + shift) / ring.length = (i + shift + (out.length - i)) / ring.length
        · rw [hsame] at hsplit
          omega
        · have hmul : ring.length * ((i + shift) / ring.length + 1) ≤
              ring.length * ((i + shift + (out.length - i)) / ring.length) :=
            Nat.mul_le_mul_left _ (by omega)
          rw [Nat.mul_add, Nat.mul_one] at hmul
          omega
      have hkept := hlast i hold (by omega)
      rw [List.getElem?_append_left hold, ← hkept]
      rcases hback with hbefore | hafter
      · rw [if_pos hbefore]
      · rw [if_neg (by omega), if_neg (by omega)]
    · have hplace : (i + shift) % ring.length = pos % ring.length + (i - out.length) := by
        have hshift : i + shift = out.length + shift + (i - out.length) := by omega
        rw [hshift, add_mod_of_lt (by rw [← hpos]; omega), ← hpos]
      rw [hplace, if_neg (by omega), if_pos (by omega), List.getElem?_append_right (by omega)]
      congr 1
      omega

/-- Read round from the place, a buffer that was written all round is the last symbols. -/
theorem Holds.window {ring out : List α} {pos : Nat} (h : Holds ring pos out)
    (hfull : ring.length ≤ out.length) :
    ring.drop (pos % ring.length) ++ ring.take (pos % ring.length) =
      out.drop (out.length - ring.length) := by
  obtain ⟨shift, hpos, hlast⟩ := h
  by_cases hw : ring.length = 0
  · rw [List.eq_nil_of_length_eq_zero hw]
    simp
  have hplace := Nat.mod_lt pos (Nat.pos_of_ne_zero hw)
  apply List.ext_getElem?
  intro j
  rw [List.getElem?_drop]
  by_cases hj : j < ring.length
  · have hkept := hlast (out.length - ring.length + j) (by omega) (by omega)
    rw [← hkept]
    have hshift : out.length - ring.length + j + shift + ring.length = out.length + shift + j := by omega
    have hround : (out.length - ring.length + j + shift) % ring.length = (pos + j) % ring.length := by
      rw [← Nat.add_mod_right, hshift, Nat.add_mod, ← hpos, ← Nat.add_mod]
    rw [hround]
    by_cases hleft : j < ring.length - pos % ring.length
    · rw [List.getElem?_append_left (by rw [List.length_drop]; exact hleft), List.getElem?_drop,
        add_mod_of_lt (by omega)]
    · rw [List.getElem?_append_right (by rw [List.length_drop]; omega), List.length_drop,
        List.getElem?_take, if_pos (by omega)]
      congr 1
      have hturn : (pos + (ring.length - pos % ring.length)) % ring.length = 0 := by
        have hsplit := Nat.div_add_mod pos ring.length
        have hnext : pos + (ring.length - pos % ring.length) = ring.length * (pos / ring.length + 1) := by
          rw [Nat.mul_add, Nat.mul_one]
          omega
        rw [hnext, Nat.mul_mod_right]
      have hsum : pos + j = pos + (ring.length - pos % ring.length) +
          (j - (ring.length - pos % ring.length)) := by omega
      have hlt : j - (ring.length - pos % ring.length) < ring.length := by omega
      rw [hsum, Nat.add_mod, hturn, Nat.zero_add, Nat.mod_mod, Nat.mod_eq_of_lt hlt]
  · rw [List.getElem?_eq_none (by rw [List.length_append, List.length_drop, List.length_take]; omega),
      List.getElem?_eq_none (by omega)]

/-- Not written all round, it is the whole sequence. -/
theorem Holds.all {ring out : List α} (h : Holds ring out.length out)
    (hfit : out.length < ring.length) : ring.take out.length = out := by
  obtain ⟨shift, hpos, hlast⟩ := h
  have hshift : shift % ring.length = 0 := by
    rw [Nat.mod_eq_of_lt hfit] at hpos
    have hsplit := Nat.div_add_mod (out.length + shift) ring.length
    rw [← hpos] at hsplit
    have hmul : shift = ring.length * ((out.length + shift) / ring.length) := by omega
    rw [hmul, Nat.mul_mod_right]
  apply List.ext_getElem?
  intro i
  rw [List.getElem?_take]
  by_cases hi : i < out.length
  · have hkept := hlast i hi (by omega)
    rw [Nat.add_mod, hshift, Nat.add_zero, Nat.mod_mod, Nat.mod_eq_of_lt (by omega)] at hkept
    rw [if_pos hi, hkept]
  · rw [if_neg hi, List.getElem?_eq_none (by omega)]

/-- A buffer that begins with the last symbols. -/
theorem holds_of_window (out more : List α) {w : Nat} (hw : 0 < w)
    (hlen : (out.drop (out.length - w) ++ more).length = w) :
    Holds (out.drop (out.length - w) ++ more) (min out.length w) out := by
  rw [Holds, hlen]
  have hwindow : (out.drop (out.length - w)).length = min out.length w := by
    rw [List.length_drop]
    omega
  by_cases hfit : out.length ≤ w
  · refine ⟨0, by rw [Nat.min_eq_left hfit, Nat.add_zero], ?_⟩
    intro i hi _
    have hzero : out.length - w = 0 := by omega
    rw [Nat.add_zero, Nat.mod_eq_of_lt (by omega), hzero, List.drop_zero, List.getElem?_append_left hi]
  · -- a shift that takes the sequence's end to a multiple of the buffer's length
    have hle : out.length ≤ w * out.length := Nat.le_mul_of_pos_left _ hw
    refine ⟨w * out.length - out.length, ?_, ?_⟩
    · rw [Nat.min_eq_right (by omega), Nat.mod_self, Nat.add_sub_cancel' hle, Nat.mul_mod_right]
    · intro i hi hrecent
      have hsplit : w * out.length = w * (out.length - 1) + w := by
        rw [← Nat.mul_succ]
        congr 1
        omega
      have hplace : i + (w * out.length - out.length) =
          w * (out.length - 1) + (i - (out.length - w)) := by omega
      have hlt : i - (out.length - w) < w := by omega
      rw [hplace, Nat.mul_add_mod, Nat.mod_eq_of_lt hlt, List.getElem?_append_left (by omega),
        List.getElem?_drop]
      congr 1
      omega

end Buffer
