/-
Finite-state entropy coding: how the states of a symbol share out a table.

A table of `2 ^ L` states gives a symbol of frequency `c` the numbers from `c` up to
`2 * c`.  Number `x` covers the states from `x * 2 ^ w - 2 ^ L` on, `2 ^ w` of them, where
`w` brings `x` to `L + 1` binary digits.  Those intervals share out the table.  A second
part is about walks through a table in steps that are coprime to its size.
-/
import Mathlib.Data.Nat.Log
import Mathlib.Data.Nat.ModEq
import Mathlib.Data.List.Perm.Subperm
import Mathlib.Data.List.Perm.Lattice
import Mathlib.Data.List.NodupEquivFin
import Mathlib.Data.Nat.GCD.Basic

namespace FiniteState

/-! ## Intervals -/

/-- The width of number `x` in a table of `2 ^ L` states. -/
def width (L x : Nat) : Nat := L - Nat.log2 x

/-- The first state that number `x` covers. -/
def first (L x : Nat) : Nat := x * 2 ^ width L x - 2 ^ L

/-- Number `x` covers state `t`. -/
def Covers (L x t : Nat) : Prop := first L x ≤ t ∧ t < first L x + 2 ^ width L x

variable {L c x t : Nat}

theorem two_pow_le_mul (hx : x ≠ 0) (hlog : Nat.log2 x ≤ L) : 2 ^ L ≤ x * 2 ^ width L x := by
  have hdigits : 2 ^ Nat.log2 x ≤ x := Nat.log2_self_le hx
  calc 2 ^ L = 2 ^ Nat.log2 x * 2 ^ width L x := by
        rw [← Nat.pow_add, width, Nat.add_sub_cancel' hlog]
    _ ≤ x * 2 ^ width L x := Nat.mul_le_mul_right _ hdigits

theorem succ_mul_le (hlog : Nat.log2 x ≤ L) : (x + 1) * 2 ^ width L x ≤ 2 ^ (L + 1) := by
  have hdigits : x + 1 ≤ 2 ^ (Nat.log2 x + 1) := Nat.lt_log2_self
  calc (x + 1) * 2 ^ width L x ≤ 2 ^ (Nat.log2 x + 1) * 2 ^ width L x :=
        Nat.mul_le_mul_right _ hdigits
    _ = 2 ^ (L + 1) := by
        rw [← Nat.pow_add, width]
        congr 1
        omega

/-- An interval lies within the table. -/
theorem first_add_le (hx : x ≠ 0) (hlog : Nat.log2 x ≤ L) : first L x + 2 ^ width L x ≤ 2 ^ L := by
  have hlow := two_pow_le_mul hx hlog
  have hhigh := succ_mul_le hlog
  rw [Nat.add_mul, Nat.one_mul, Nat.pow_succ] at hhigh
  rw [first]
  omega

/-- The state `t` is covered by the leading digits of `2 ^ L + t`. -/
theorem covers_iff (hx : x ≠ 0) (hlog : Nat.log2 x ≤ L) :
    Covers L x t ↔ (2 ^ L + t) / 2 ^ width L x = x := by
  have hlow := two_pow_le_mul hx hlog
  have hpos : 0 < 2 ^ width L x := Nat.two_pow_pos _
  rw [Nat.div_eq_iff hpos, Covers, first]
  omega

/-- Halving a number that is large enough meets the numbers from `c` to `2 * c`. -/
theorem exists_halving (hc : 0 < c) {y : Nat} (hy : c ≤ y) : ∃ j, c ≤ y / 2 ^ j ∧ y / 2 ^ j < 2 * c := by
  induction y using Nat.strongRecOn with
  | ind y ih =>
    by_cases hsmall : y < 2 * c
    · exact ⟨0, by simpa using hy, by simpa using hsmall⟩
    · obtain ⟨j, hj⟩ := ih (y / 2) (by omega) (by omega)
      refine ⟨j + 1, ?_⟩
      rw [Nat.pow_succ', ← Nat.div_div_eq_div_mul]
      exact hj

/-- It meets them once. -/
theorem halving_unique {y j j' : Nat} (hj : y / 2 ^ j < 2 * c) (hj' : c ≤ y / 2 ^ j') : j' ≤ j := by
  by_contra hlt
  have hsplit : 2 ^ j' = 2 ^ j * (2 * 2 ^ (j' - j - 1)) := by
    rw [← Nat.pow_succ', ← Nat.pow_add]
    congr 1
    omega
  rw [hsplit, ← Nat.div_div_eq_div_mul, ← Nat.div_div_eq_div_mul] at hj'
  have hhalf : y / 2 ^ j / 2 < c := by omega
  have hless : y / 2 ^ j / 2 / 2 ^ (j' - j - 1) ≤ y / 2 ^ j / 2 := Nat.div_le_self ..
  omega

theorem log2_div_pow (y j : Nat) : Nat.log2 (y / 2 ^ j) = Nat.log2 y - j := by
  rw [Nat.log2_eq_log_two, Nat.log2_eq_log_two, Nat.log_div_base_pow]

/-- Each state of the table is covered by exactly one number of a symbol of frequency `c`. -/
theorem existsUnique_covers (hc : 0 < c) (hle : c ≤ 2 ^ L) (ht : t < 2 ^ L) :
    ∃! x, (c ≤ x ∧ x < 2 * c) ∧ Covers L x t := by
  have hlog : Nat.log2 (2 ^ L + t) = L := by
    rw [Nat.log2_eq_iff (by have := Nat.two_pow_pos L; omega), Nat.pow_succ]
    omega
  have hnumber : ∀ x, c ≤ x → x < 2 * c → x ≠ 0 ∧ Nat.log2 x ≤ L := by
    intro x hlow hhigh
    have hne : x ≠ 0 := by omega
    refine ⟨hne, ?_⟩
    have hbound : x < 2 ^ (L + 1) := by
      rw [Nat.pow_succ]
      omega
    have := (Nat.log2_lt hne).mpr hbound
    omega
  obtain ⟨j, hj⟩ := exists_halving hc (y := 2 ^ L + t) (by omega)
  refine ⟨(2 ^ L + t) / 2 ^ j, ⟨hj, ?_⟩, ?_⟩
  · obtain ⟨hne, hx⟩ := hnumber _ hj.1 hj.2
    have hshort : j ≤ L := by
      by_contra hlong
      refine hne (Nat.div_eq_of_lt ?_)
      calc 2 ^ L + t < 2 ^ (L + 1) := by rw [Nat.pow_succ]; omega
        _ ≤ 2 ^ j := Nat.pow_le_pow_right (by decide) (by omega)
    have hwidth : width L ((2 ^ L + t) / 2 ^ j) = j := by
      rw [width, log2_div_pow, hlog]
      omega
    rw [covers_iff hne hx, hwidth]
  · rintro x ⟨⟨hlow, hhigh⟩, hcovers⟩
    obtain ⟨hne, hx⟩ := hnumber x hlow hhigh
    have hwidth := (covers_iff hne hx).mp hcovers
    have hsame : width L x = j := by
      refine Nat.le_antisymm ?_ ?_
      · exact halving_unique hj.2 (by rw [hwidth]; exact hlow)
      · exact halving_unique (by rw [hwidth]; exact hhigh) hj.1
    rw [← hsame, hwidth]

/-! ## Ranks -/

/-- Of the elements with a property, each rank is that of exactly one place. -/
theorem existsUnique_rank {α : Type} (P : α → Bool) (l : List α) {r : Nat} (hr : r < l.countP P) :
    ∃! i, (∃ a, l[i]? = some a ∧ P a = true) ∧ (l.take i).countP P = r := by
  induction l generalizing r with
  | nil => exact absurd hr (by simp)
  | cons a l ih =>
    by_cases ha : P a = true
    · cases r with
      | zero =>
        refine ⟨0, ⟨⟨a, rfl, ha⟩, rfl⟩, ?_⟩
        rintro i ⟨_, hcount⟩
        cases i with
        | zero => rfl
        | succ i =>
          rw [List.take_succ_cons, List.countP_cons_of_pos ha] at hcount
          omega
      | succ r =>
        rw [List.countP_cons_of_pos ha] at hr
        obtain ⟨i, ⟨hat, hcount⟩, hunique⟩ := ih (r := r) (by omega)
        refine ⟨i + 1, ⟨hat, by rw [List.take_succ_cons, List.countP_cons_of_pos ha, hcount]⟩, ?_⟩
        rintro k ⟨hk, hkcount⟩
        cases k with
        | zero => exact absurd hkcount (by simp)
        | succ k =>
          rw [List.take_succ_cons, List.countP_cons_of_pos ha] at hkcount
          rw [hunique k ⟨hk, by omega⟩]
    · rw [List.countP_cons_of_neg ha] at hr
      obtain ⟨i, ⟨hat, hcount⟩, hunique⟩ := ih hr
      refine ⟨i + 1, ⟨hat, by rw [List.take_succ_cons, List.countP_cons_of_neg ha, hcount]⟩, ?_⟩
      rintro k ⟨hk, hkcount⟩
      cases k with
      | zero =>
        obtain ⟨b, hb, hP⟩ := hk
        obtain rfl := Option.some.inj hb
        exact absurd hP ha
      | succ k =>
        rw [List.take_succ_cons, List.countP_cons_of_neg ha] at hkcount
        rw [hunique k ⟨hk, hkcount⟩]

/-! ## Walks -/

/-- Where a walk in steps of `step` is after `k` of them. -/
def stop (n step k : Nat) : Nat := k * step % n

/-- The stops below `m` among the first `k`. -/
def visited (n step m k : Nat) : List Nat := ((List.range k).map (stop n step)).filter (· < m)

variable {n step m k : Nat}

theorem stop_succ : stop n step (k + 1) = (stop n step k + step) % n := by
  rw [stop, stop, Nat.succ_mul, Nat.mod_add_mod]

/-- A walk in steps coprime to `n` does not meet a stop twice in `n` steps. -/
theorem stop_inj (hstep : Nat.Coprime n step) {i j : Nat} (hi : i < n) (hj : j < n)
    (h : stop n step i = stop n step j) : i = j := by
  have hmod : i * step ≡ j * step [MOD n] := h
  have hcancel := Nat.ModEq.cancel_right_of_coprime hstep hmod
  rwa [Nat.ModEq, Nat.mod_eq_of_lt hi, Nat.mod_eq_of_lt hj] at hcancel

theorem visited_nodup (hstep : Nat.Coprime n step) (hk : k ≤ n) : (visited n step m k).Nodup := by
  refine List.Nodup.filter _ ?_
  refine (List.nodup_map_iff_inj_on List.nodup_range).mpr ?_
  intro i hi j hj h
  rw [List.mem_range] at hi hj
  exact stop_inj hstep (by omega) (by omega) h

theorem mem_visited {p : Nat} : p ∈ visited n step m k ↔ p < m ∧ ∃ i < k, stop n step i = p := by
  rw [visited, List.mem_filter, List.mem_map, decide_eq_true_iff, and_comm]
  simp only [List.mem_range]

/-- The next stop is new. -/
theorem stop_not_mem_visited (hstep : Nat.Coprime n step) (hk : k < n) :
    stop n step k ∉ visited n step m k := by
  intro hmem
  obtain ⟨_, i, hi, hsame⟩ := mem_visited.mp hmem
  have := stop_inj hstep (by omega) hk hsame
  omega

theorem visited_succ (hk : stop n step k < m) :
    visited n step m (k + 1) = visited n step m k ++ [stop n step k] := by
  rw [visited, List.range_succ, List.map_append, List.filter_append]
  simp [hk, visited]

/-- Stops from `m` on leave the list alone. -/
theorem visited_skip {k' : Nat} (hle : k ≤ k') (hskip : ∀ i, k ≤ i → i < k' → m ≤ stop n step i) :
    visited n step m k' = visited n step m k := by
  induction k', hle using Nat.le_induction with
  | base => rfl
  | succ k' hle ih =>
    have hlast := hskip k' hle (by omega)
    rw [visited, List.range_succ, List.map_append, List.filter_append, ← visited,
      ih fun i hi hlt => hskip i hi (by omega)]
    simp [Nat.not_lt.mpr hlast]

/-- In `n` steps the walk comes by every stop below `m`. -/
theorem length_visited (hstep : Nat.Coprime n step) (hm : m ≤ n) : (visited n step m n).length = m := by
  have hnodup := @visited_nodup n step m n hstep (Nat.le_refl n)
  have hstops : ((List.range n).map (stop n step)).Perm (List.range n) := by
    have hinj : ((List.range n).map (stop n step)).Nodup := by
      refine (List.nodup_map_iff_inj_on List.nodup_range).mpr ?_
      intro i hi j hj h
      rw [List.mem_range] at hi hj
      exact stop_inj hstep hi hj h
    refine (List.subperm_of_subset hinj fun p hp => ?_).perm_of_length_le (by simp)
    obtain ⟨i, hi, rfl⟩ := List.mem_map.mp hp
    rw [List.mem_range] at hi ⊢
    exact Nat.mod_lt _ (by omega)
  have hcount : ((List.range n).filter fun p => p < m).length = m := by
    have hsplit : List.range n = List.range m ++ (List.range (n - m)).map (m + ·) := by
      rw [← List.range_add, Nat.add_sub_cancel' hm]
    rw [hsplit, List.filter_append, List.filter_eq_self.mpr, List.filter_eq_nil_iff.mpr,
      List.append_nil, List.length_range]
    · intro p hp
      obtain ⟨i, _, rfl⟩ := List.mem_map.mp hp
      simp
    · intro p hp
      simpa using hp
  rw [visited, (hstops.filter _).length_eq, hcount]

/-- A walk that has not come by all of them has steps to go. -/
theorem lt_of_length_visited (hstep : Nat.Coprime n step) (hm : m ≤ n) (hk : k ≤ n)
    (h : (visited n step m k).length < m) : k < n := by
  refine Nat.lt_of_le_of_ne hk ?_
  rintro rfl
  rw [length_visited hstep hm] at h
  exact Nat.lt_irrefl m h

/-- A walk that has come by all of them and stands below `m` is at its end. -/
theorem eq_of_length_visited (hstep : Nat.Coprime n step) (hk : k ≤ n)
    (hbelow : stop n step k < m) (h : (visited n step m k).length = m) : k = n := by
  refine Nat.le_antisymm hk (Nat.le_of_not_lt fun hlt => ?_)
  have hmore : (visited n step m (k + 1)).length = m + 1 := by
    rw [visited_succ hbelow, List.length_append, h]
    rfl
  have hsub := List.subperm_of_subset (@visited_nodup n step m (k + 1) hstep hlt)
    (fun p hp => List.mem_range.mpr (mem_visited.mp hp).1)
  have := hsub.length_le
  rw [hmore, List.length_range] at this
  omega

end FiniteState
