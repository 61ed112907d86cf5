/-
Repeating what was written before, one symbol after the other.

`extend` is the plain procedure on a growing list.  `extension` writes what it appends into
a longer buffer, which copies in chunks then fill in.
-/
import Iluvatar.Library.Buffer

namespace Buffer

variable {α : Type}

/-- Append `n` symbols, each the one `dist` before it. -/
def extend (dist : Nat) : Nat → List α → Option (List α)
  | 0, out => some out
  | n + 1, out =>
    match out[out.length - dist]? with
    | none => none
    | some x => extend dist n (out ++ [x])

/-- `pattern` continues `out` with period `dist`. -/
structure Continues (out : List α) (dist n : Nat) (pattern : List α) : Prop where
  length : pattern.length = n
  extended : extend dist n out = some (out ++ pattern)
  repeats : Repeats (out ++ pattern) out.length dist n

theorem extend_add {out : List α} {dist m n : Nat} :
    extend dist (m + n) out = (extend dist m out).bind (extend dist n) := by
  induction m generalizing out with
  | zero =>
    rw [Nat.zero_add]
    rfl
  | succ m ih =>
    rw [Nat.succ_add, extend, extend]
    cases out[out.length - dist]? with
    | none => rfl
    | some x => exact ih

/-- What is extended starts as it was, and has grown by `n`. -/
theorem extend_appends {out out' : List α} {dist n : Nat} (h : extend dist n out = some out') :
    out'.take out.length = out ∧ out'.length = out.length + n := by
  induction n generalizing out with
  | zero =>
    cases h
    exact ⟨List.take_length, rfl⟩
  | succ n ih =>
    rw [extend] at h
    cases hat : out[out.length - dist]? with
    | none =>
      rw [hat] at h
      cases h
    | some x =>
      rw [hat] at h
      obtain ⟨htake, hlength⟩ := ih h
      have hone : (out ++ [x]).length = out.length + 1 := List.length_append
      have hbefore := congrArg (List.take out.length) htake
      rw [List.take_take, hone, Nat.min_eq_left (Nat.le_succ _), List.take_left] at hbefore
      exact ⟨hbefore, by rw [hlength, hone, Nat.add_assoc, Nat.add_comm 1 n]⟩

/-- There is a continuation of every length. -/
theorem exists_continues {out : List α} {dist : Nat} (hpos : 0 < dist) (hle : dist ≤ out.length)
    (n : Nat) : ∃ pattern, Continues out dist n pattern := by
  induction n with
  | zero => exact ⟨[], rfl, by rw [List.append_nil]; rfl, fun j hj => absurd hj (Nat.not_lt_zero j)⟩
  | succ n ih =>
    obtain ⟨pattern, hlength, hextended, hrepeats⟩ := ih
    have hall : (out ++ pattern).length = out.length + n := by rw [List.length_append, hlength]
    have hlt : (out ++ pattern).length - dist < (out ++ pattern).length := by omega
    have hat := List.getElem?_eq_getElem hlt
    generalize (out ++ pattern)[(out ++ pattern).length - dist] = x at hat
    refine ⟨pattern ++ [x], ?_, ?_, ?_⟩
    · rw [List.length_append, hlength]
      rfl
    · rw [extend_add, hextended, Option.bind_some, extend, hat, ← List.append_assoc]
      rfl
    · intro j hj
      rw [← List.append_assoc]
      have hold : ∀ i < out.length + n, (out ++ pattern ++ [x])[i]? = (out ++ pattern)[i]? :=
        fun i hi => List.getElem?_append_left (by rw [hall]; exact hi)
      by_cases hlast : j < n
      · rw [hold _ (by omega), hold _ (by omega), hrepeats j hlast]
      · have hsame : j = n := by omega
        subst hsame
        rw [hall] at hat
        rw [hold (out.length + j - dist) (by omega), hat,
          List.getElem?_append_right (Nat.le_of_eq hall), hall, Nat.sub_self]
        rfl

/-- The first part of a continuation. -/
theorem Continues.take {out pattern : List α} {dist n m : Nat} (h : Continues out dist n pattern)
    (hpos : 0 < dist) (hle : dist ≤ out.length) (hm : m ≤ n) :
    extend dist m out = some (out ++ pattern.take m) := by
  obtain ⟨first, hlength, hextended, _⟩ := exists_continues hpos hle m
  have hreach : dist ≤ (out ++ first).length := by
    rw [List.length_append]
    omega
  obtain ⟨rest, hrest⟩ := exists_continues hpos hreach (n - m)
  have hsplit : extend dist n out = some (out ++ first ++ rest) := by
    have hsum : n = m + (n - m) := by omega
    rw [hsum, extend_add, hextended, Option.bind_some, hrest.extended]
  rw [h.extended, List.append_assoc] at hsplit
  have hpattern : pattern = first ++ rest := List.append_cancel_left (Option.some.inj hsplit)
  rw [hpattern, ← hlength, List.take_left]
  rw [hlength]
  exact hextended

/-- What has a period has its multiples, from where they fit on. -/
theorem Repeats.multiple {buf : List α} {dst dist len : Nat} (h : Repeats buf dst dist len)
    (hdist : dist ≤ dst) (m : Nat) :
    Repeats buf (dst + m * dist) ((m + 1) * dist) (len - m * dist) := by
  induction m with
  | zero => simpa using h
  | succ m ih =>
    intro j hj
    rw [Nat.succ_mul] at hj
    have hone := h ((m + 1) * dist + j) (by rw [Nat.succ_mul]; omega)
    have hrest := ih j (by omega)
    rw [Nat.succ_mul (m + 1)]
    rw [show dst + (m + 1) * dist + j = dst + ((m + 1) * dist + j) by omega, hone]
    rw [show dst + ((m + 1) * dist + j) - dist = dst + m * dist + j by rw [Nat.succ_mul]; omega, hrest]
    congr 1
    rw [Nat.succ_mul]
    omega

end Buffer
