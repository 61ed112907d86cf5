/-
Occurrences of a pattern in a text that grows, and a window of digits sliding over it.

A symbol appended to the text ends at most one occurrence more.  The window holds the last symbols
as a number, the latest the least significant.
-/
import Mathlib.Data.Nat.Digits.Defs
import Mathlib.Data.List.Infix

namespace Pattern

variable {α : Type} {pattern text more : List α} {p : Nat}

/-- The one place where the pattern ends with the text. -/
theorem prefix_drop_iff_suffix (h : pattern.length ≤ text.length) :
    pattern <+: text.drop (text.length - pattern.length) ↔ pattern <:+ text := by
  have hlength : (text.drop (text.length - pattern.length)).length = pattern.length := by
    rw [List.length_drop]
    omega
  constructor
  · intro hstarts
    rw [hstarts.eq_of_length hlength.symm]
    exact List.drop_suffix _ _
  · intro hends
    rw [← List.suffix_iff_eq_drop.mp hends]

variable [DecidableEq α]

/-- The places where the pattern stands in the text, in order. -/
def occurrences (pattern text : List α) : List Nat :=
  (List.range (text.length + 1 - pattern.length)).filter fun p => decide (pattern <+: text.drop p)

theorem mem_occurrences (hpattern : pattern ≠ []) :
    p ∈ occurrences pattern text ↔ pattern <+: text.drop p := by
  rw [occurrences, List.mem_filter, List.mem_range, decide_eq_true_iff]
  refine ⟨And.right, fun h => ⟨?_, h⟩⟩
  have hlength := h.length_le
  rw [List.length_drop] at hlength
  have hsome := List.length_pos_iff.mpr hpattern
  omega

theorem mem_occurrences_le (h : p ∈ occurrences pattern text) : p + pattern.length ≤ text.length := by
  rw [occurrences, List.mem_filter, List.mem_range] at h
  omega

theorem occurrences_sorted (pattern text : List α) : (occurrences pattern text).Pairwise (· < ·) :=
  List.Pairwise.filter _ List.pairwise_lt_range

/-- A symbol more. -/
theorem occurrences_concat (hpattern : pattern ≠ []) (text : List α) (a : α) :
    occurrences pattern (text ++ [a]) = occurrences pattern text ++
      if pattern <:+ text ++ [a] then [text.length + 1 - pattern.length] else [] := by
  have hsome := List.length_pos_iff.mpr hpattern
  have hlength : (text ++ [a]).length = text.length + 1 := by
    rw [List.length_append, List.length_singleton]
  have hold : ∀ p ∈ List.range (text.length + 1 - pattern.length),
      decide (pattern <+: (text ++ [a]).drop p) = decide (pattern <+: text.drop p) := by
    intro p hp
    rw [List.mem_range] at hp
    rw [decide_eq_decide, List.drop_append_of_le_length (by omega)]
    constructor
    · intro h
      exact List.prefix_of_prefix_length_le h (List.prefix_append _ _) (by rw [List.length_drop]; omega)
    · intro h
      exact h.trans (List.prefix_append _ _)
  by_cases hfits : pattern.length ≤ text.length + 1
  · have hrange : (text ++ [a]).length + 1 - pattern.length = (text.length + 1 - pattern.length) + 1 := by
      rw [hlength]
      omega
    rw [occurrences, hrange, List.range_succ, List.filter_append, List.filter_congr hold, occurrences]
    congr 1
    have hends : pattern <+: (text ++ [a]).drop (text.length + 1 - pattern.length) ↔ pattern <:+ text ++ [a] := by
      rw [← hlength]
      exact prefix_drop_iff_suffix (by rw [hlength]; exact hfits)
    by_cases hsuffix : pattern <:+ text ++ [a]
    · rw [if_pos hsuffix, List.filter_singleton, decide_eq_true (hends.mpr hsuffix)]
      rfl
    · rw [if_neg hsuffix, List.filter_singleton, decide_eq_false fun h => hsuffix (hends.mp h)]
      rfl
  · have hnone : ¬ pattern <:+ text ++ [a] := by
      intro h
      have := h.length_le
      omega
    rw [if_neg hnone, occurrences, occurrences, hlength, show text.length + 1 + 1 - pattern.length = 0 by omega,
      show text.length + 1 - pattern.length = 0 by omega]
    rfl

theorem occurrences_prefix (hpattern : pattern ≠ []) (text more : List α) :
    occurrences pattern text <+: occurrences pattern (text ++ more) := by
  induction more generalizing text with
  | nil =>
    rw [List.append_nil]
  | cons a more ih =>
    rw [← List.singleton_append, ← List.append_assoc]
    refine List.IsPrefix.trans ?_ (ih (text ++ [a]))
    rw [occurrences_concat hpattern]
    exact List.prefix_append _ _

/-- The occurrences that `more` ends, each with its number, the first of all left out. -/
def later (pattern text more : List α) : List (Nat × Nat) :=
  (occurrences pattern (text ++ more)).zipIdx.drop (max 1 (occurrences pattern text).length)

theorem later_nil (pattern text : List α) : later pattern text [] = [] := by
  rw [later, List.append_nil]
  refine List.drop_eq_nil_of_le ?_
  rw [List.length_zipIdx]
  omega

/-- From the start of a text on, the second occurrence is the first that counts. -/
theorem later_start (hpattern : pattern ≠ []) (text : List α) :
    later pattern [] text = (occurrences pattern text).zipIdx.drop 1 := by
  have hnone : occurrences pattern [] = [] := by
    refine List.eq_nil_iff_forall_not_mem.mpr ?_
    intro p hp
    have hlength := mem_occurrences_le hp
    have hsome := List.length_pos_iff.mpr hpattern
    rw [List.length_nil] at hlength
    omega
  rw [later, hnone, List.nil_append]
  rfl

theorem later_append (hpattern : pattern ≠ []) (text more most : List α) :
    later pattern text (more ++ most) = later pattern text more ++ later pattern (text ++ more) most := by
  obtain ⟨new, hnew⟩ := occurrences_prefix hpattern text more
  obtain ⟨newer, hnewer⟩ := occurrences_prefix hpattern (text ++ more) most
  have hlength := congrArg List.length hnew
  rw [List.length_append] at hlength
  unfold later
  rw [← List.append_assoc, ← hnewer]
  generalize occurrences pattern (text ++ more) = middle at hlength
  have hnone : middle.zipIdx.drop (max 1 middle.length) = [] := by
    refine List.drop_eq_nil_of_le ?_
    rw [List.length_zipIdx]
    omega
  have hskip : max 1 (occurrences pattern text).length - middle.length = max 1 middle.length - middle.length := by
    omega
  rw [List.zipIdx_append, List.drop_append, List.drop_append, hnone, List.length_zipIdx, List.nil_append, hskip]

/-- One symbol ends the next occurrence or none. -/
theorem later_singleton (hpattern : pattern ≠ []) (text : List α) (a : α) :
    later pattern text [a] =
      if pattern <:+ text ++ [a] ∧ occurrences pattern text ≠ [] then
        [(text.length + 1 - pattern.length, (occurrences pattern text).length)]
      else [] := by
  rw [later, occurrences_concat hpattern]
  by_cases hends : pattern <:+ text ++ [a]
  · rw [if_pos hends, List.zipIdx_append, List.drop_append, List.length_zipIdx,
      List.drop_eq_nil_of_le (by rw [List.length_zipIdx]; omega), List.nil_append]
    by_cases hfirst : occurrences pattern text = []
    · rw [if_neg fun h => h.2 hfirst, hfirst]
      rfl
    · have hsome := List.length_pos_iff.mpr hfirst
      have hskip : max 1 (occurrences pattern text).length - (occurrences pattern text).length = 0 := by omega
      rw [if_pos ⟨hends, hfirst⟩, hskip, Nat.zero_add]
      rfl
  · rw [if_neg hends, if_neg fun h => hends h.1, List.append_nil]
    refine List.drop_eq_nil_of_le ?_
    rw [List.length_zipIdx]
    omega

/-- What `later` holds: an occurrence, not the first, that ends in `more`. -/
theorem mem_later (hpattern : pattern ≠ []) {k : Nat} (h : (p, k) ∈ later pattern text more) :
    pattern <+: (text ++ more).drop p ∧ text.length < p + pattern.length ∧
      p + pattern.length ≤ text.length + more.length := by
  have hmem : p ∈ occurrences pattern (text ++ more) :=
    List.fst_mem_of_mem_zipIdx (List.mem_of_mem_drop h)
  have hend := mem_occurrences_le hmem
  rw [List.length_append] at hend
  refine ⟨(mem_occurrences hpattern).mp hmem, ?_, hend⟩
  induction more generalizing text with
  | nil =>
    rw [later_nil] at h
    cases h
  | cons a more ih =>
    rw [← List.singleton_append, later_append hpattern, List.mem_append] at h
    rcases h with h | h
    · rw [later_singleton hpattern] at h
      split at h
      · rename_i hends
        have hlength := hends.1.length_le
        rw [List.length_append, List.length_singleton] at hlength
        rw [List.mem_singleton, Prod.mk.injEq] at h
        omega
      · cases h
    · have hmore := ih h (by rw [List.append_assoc]; exact hmem)
        (by simp only [List.length_append, List.length_cons] at hend ⊢; omega)
      rw [List.length_append, List.length_singleton] at hmore
      omega

/-- Where the pattern does not overlap itself in less than `gap`, two occurrences are as far apart. -/
theorem later_short (hpattern : pattern ≠ []) {gap : Nat} (hgap : ∀ k, 0 < k → k < gap → ¬ pattern.drop k <+: pattern)
    (hlong : gap ≤ pattern.length) (hmore : more.length ≤ gap) : (later pattern text more).length ≤ 1 := by
  match hlater : later pattern text more with
  | [] => exact Nat.zero_le 1
  | [_] => exact Nat.le_refl 1
  | (p, i) :: (q, j) :: tail =>
    exfalso
    have hp : (p, i) ∈ later pattern text more := by
      rw [hlater]
      exact List.mem_cons_self
    have hq : (q, j) ∈ later pattern text more := by
      rw [hlater]
      exact List.mem_cons_of_mem _ List.mem_cons_self
    have hsorted : ((later pattern text more).map Prod.fst).Pairwise (· < ·) := by
      rw [later, List.map_drop, List.zipIdx_map_fst]
      exact (occurrences_sorted pattern (text ++ more)).drop
    rw [hlater] at hsorted
    have hless : p < q := by
      rw [List.map_cons, List.map_cons, List.pairwise_cons] at hsorted
      exact hsorted.1 q List.mem_cons_self
    obtain ⟨hatp, hendp, -⟩ := mem_later hpattern hp
    obtain ⟨hatq, -, hendq⟩ := mem_later hpattern hq
    refine hgap (q - p) (by omega) (by omega) ?_
    have hback : pattern.drop (q - p) <+: (text ++ more).drop q := by
      have := hatp.drop (q - p)
      rwa [List.drop_drop, show p + (q - p) = q by omega] at this
    exact List.prefix_of_prefix_length_le hback hatq (by rw [List.length_drop]; omega)

attribute [irreducible] occurrences later

end Pattern

namespace Nat

/-- The last digits of a number that a digit is appended to. -/
theorem ofDigits_window {b n d : Nat} {digits : List Nat} (hb : 1 < b) (hd : d < b) (hdigits : ∀ x ∈ digits, x < b) :
    (b * Nat.ofDigits b (digits.take n) + d) % b ^ n = Nat.ofDigits b ((d :: digits).take n) := by
  have hall : ∀ x ∈ (d :: digits).take n, x < b := by
    intro x hx
    rcases List.mem_cons.mp (List.mem_of_mem_take hx) with rfl | hx
    · exact hd
    · exact hdigits x hx
  have hless : Nat.ofDigits b ((d :: digits).take n) < b ^ n := by
    refine Nat.lt_of_lt_of_le (Nat.ofDigits_lt_base_pow_length hb hall) ?_
    exact Nat.pow_le_pow_right (by omega) (by rw [List.length_take]; omega)
  cases n with
  | zero => rw [Nat.pow_zero, Nat.mod_one, List.take_zero, Nat.ofDigits_nil]
  | succ n =>
    have hsplit : digits.take (n + 1) = digits.take n ++ (digits.drop n).take 1 := by
      rw [List.take_add]
    have hcons : Nat.ofDigits b ((d :: digits).take (n + 1)) = d + b * Nat.ofDigits b (digits.take n) := by
      rw [List.take_succ_cons, Nat.ofDigits_cons]
    rw [hcons] at hless ⊢
    by_cases hlong : n < digits.length
    · have hlength : (digits.take n).length = n := by
        rw [List.length_take]
        omega
      rw [hsplit, Nat.ofDigits_append, hlength, Nat.mul_add, ← Nat.mul_assoc, ← Nat.pow_succ', Nat.add_right_comm,
        Nat.add_mul_mod_self_left, Nat.add_comm, Nat.mod_eq_of_lt hless]
    · rw [hsplit, List.drop_eq_nil_of_le (by omega), List.take_nil, List.append_nil, Nat.add_comm,
        Nat.mod_eq_of_lt hless]

end Nat
