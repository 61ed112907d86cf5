/-
Slices of a buffer, and copying within one.

A copy whose source overlaps its destination repeats a pattern: each symbol is the one
`dist` before it.  `Repeats` says so of the finished buffer, and `chunk` is why it may be
made in chunks of any size up to `dist`, even where a chunk covers symbols that have been
copied before.
-/

namespace Buffer

variable {α : Type}

/-- `n` symbols from place `s` on. -/
def slice (buf : List α) (s n : Nat) : List α := (buf.drop s).take n

/-- The symbols from place `s` on replaced by `xs`. -/
def splice (buf : List α) (s : Nat) (xs : List α) : List α :=
  buf.take s ++ xs ++ buf.drop (s + xs.length)

theorem slice_length {buf : List α} {s n : Nat} (h : s + n ≤ buf.length) :
    (slice buf s n).length = n := by
  rw [slice, List.length_take, List.length_drop]
  omega

theorem splice_length {buf xs : List α} {s : Nat} (h : s + xs.length ≤ buf.length) :
    (splice buf s xs).length = buf.length := by
  rw [splice, List.length_append, List.length_append, List.length_take, List.length_drop]
  omega

theorem getElem?_slice (buf : List α) (s n i : Nat) :
    (slice buf s n)[i]? = if i < n then buf[s + i]? else none := by
  rw [slice, List.getElem?_take, List.getElem?_drop]

theorem getElem?_splice {buf xs : List α} {s : Nat} (h : s + xs.length ≤ buf.length) (i : Nat) :
    (splice buf s xs)[i]? =
      if i < s then buf[i]? else if i < s + xs.length then xs[i - s]? else buf[i]? := by
  have htake : (buf.take s).length = s := by
    rw [List.length_take]
    omega
  rw [splice, List.append_assoc]
  by_cases hbefore : i < s
  · rw [if_pos hbefore, List.getElem?_append_left (by omega), List.getElem?_take, if_pos hbefore]
  · rw [if_neg hbefore, List.getElem?_append_right (by omega), htake]
    by_cases hinside : i < s + xs.length
    · rw [if_pos hinside, List.getElem?_append_left (by omega)]
    · rw [if_neg hinside, List.getElem?_append_right (by omega), List.getElem?_drop]
      congr 1
      omega

theorem splice_nil (buf : List α) (s : Nat) : splice buf s [] = buf := by
  rw [splice, List.append_nil, List.length_nil, Nat.add_zero, List.take_append_drop]

/-- One symbol replaced. -/
theorem splice_singleton {buf : List α} {s : Nat} (h : s < buf.length) (x : α) :
    splice buf s [x] = buf.set s x := by
  rw [List.set_eq_take_append_cons_drop, if_pos h, splice, List.length_singleton, List.append_assoc]
  rfl

/-- Two pieces side by side. -/
theorem splice_append {buf xs ys : List α} {s : Nat} (h : s + xs.length + ys.length ≤ buf.length) :
    splice (splice buf s xs) (s + xs.length) ys = splice buf s (xs ++ ys) := by
  have hfirst : s + xs.length ≤ buf.length := by omega
  have hlen := splice_length hfirst
  have hboth : s + (xs ++ ys).length ≤ buf.length := by
    rw [List.length_append]
    omega
  apply List.ext_getElem?
  intro i
  rw [getElem?_splice (by rw [hlen]; exact h), getElem?_splice hfirst, getElem?_splice hboth,
    List.length_append]
  by_cases hbefore : i < s
  · rw [if_pos (by omega), if_pos hbefore, if_pos hbefore]
  · rw [if_neg hbefore, if_neg hbefore]
    by_cases hleft : i < s + xs.length
    · rw [if_pos hleft, if_pos hleft, if_pos (by omega), List.getElem?_append_left (by omega)]
    · rw [if_neg hleft, if_neg hleft]
      by_cases hright : i < s + xs.length + ys.length
      · rw [if_pos hright, if_pos (by omega), List.getElem?_append_right (by omega)]
        congr 1
        omega
      · rw [if_neg hright, if_neg (by omega)]

/-- A slice of what was not replaced. -/
theorem slice_splice {buf xs : List α} {s t n : Nat} (h : s + xs.length ≤ buf.length)
    (hapart : t + n ≤ s ∨ s + xs.length ≤ t) : slice (splice buf s xs) t n = slice buf t n := by
  apply List.ext_getElem?
  intro i
  rw [getElem?_slice, getElem?_slice]
  by_cases hi : i < n
  · rw [if_pos hi, if_pos hi, getElem?_splice h]
    rcases hapart with hbefore | hafter
    · rw [if_pos (by omega)]
    · rw [if_neg (by omega), if_neg (by omega)]
  · rw [if_neg hi, if_neg hi]

/-- What was just put there. -/
theorem slice_splice_self {buf xs : List α} {s : Nat} (h : s + xs.length ≤ buf.length) :
    slice (splice buf s xs) s xs.length = xs := by
  have htake : (buf.take s).length = s := by
    rw [List.length_take]
    omega
  rw [slice, splice, List.append_assoc, List.drop_append_of_le_length (by omega),
    List.drop_eq_nil_of_le (by omega), List.nil_append, List.take_left]

/-- `len` symbols from `dst` on, each the one `dist` before it. -/
def Repeats (buf : List α) (dst dist len : Nat) : Prop :=
  ∀ j < len, buf[dst + j]? = buf[dst + j - dist]?

/-- `done` up to place `a`, and `buf` from there on. -/
def upTo (done buf : List α) (a : Nat) : List α := done.take a ++ buf.drop a

section

variable {done buf : List α} {a : Nat}

theorem upTo_length (hlen : done.length = buf.length) (a : Nat) :
    (upTo done buf a).length = buf.length := by
  rw [upTo, List.length_append, List.length_take, List.length_drop]
  omega

theorem getElem?_upTo (hlen : done.length = buf.length) (a i : Nat) :
    (upTo done buf a)[i]? = if i < a then done[i]? else buf[i]? := by
  by_cases hshort : a ≤ done.length
  · have htake : (done.take a).length = a := by
      rw [List.length_take]
      omega
    rw [upTo]
    by_cases hi : i < a
    · rw [if_pos hi, List.getElem?_append_left (by omega), List.getElem?_take, if_pos hi]
    · rw [if_neg hi, List.getElem?_append_right (by omega), htake, List.getElem?_drop]
      congr 1
      omega
  · rw [upTo, List.take_of_length_le (by omega), List.drop_eq_nil_of_le (by omega), List.append_nil]
    by_cases hi : i < a
    · rw [if_pos hi]
    · rw [if_neg hi, List.getElem?_eq_none (by omega), List.getElem?_eq_none (by omega)]

/-- Copying a chunk of at most `dist` symbols, from among those that are done, does it. -/
theorem chunk (hlen : done.length = buf.length) {dst dist len p k n : Nat}
    (hrepeats : Repeats done dst dist len) (hfit : dst + len ≤ buf.length) (hdist : dist ≤ dst)
    (hk : k ≤ p) (hn : n ≤ dist) (hkn : k + n ≤ len) :
    splice (upTo done buf (dst + p)) (dst + k) (slice (upTo done buf (dst + p)) (dst + k - dist) n) =
      upTo done buf (dst + max p (k + n)) := by
  have hsource : dst + k - dist + n ≤ (upTo done buf (dst + p)).length := by
    rw [upTo_length hlen]
    omega
  have hchunk := slice_length hsource
  apply List.ext_getElem?
  intro i
  rw [getElem?_splice (by rw [hchunk, upTo_length hlen]; omega), hchunk, getElem?_slice,
    getElem?_upTo hlen, getElem?_upTo hlen, getElem?_upTo hlen]
  by_cases hbefore : i < dst + k
  · rw [if_pos hbefore, if_pos (by omega), if_pos (by omega)]
  · rw [if_neg hbefore]
    by_cases hinside : i < dst + k + n
    · have hcopy := hrepeats (i - dst) (by omega)
      have hplace : dst + (i - dst) = i := by omega
      have hsource : dst + k - dist + (i - (dst + k)) = i - dist := by omega
      rw [hplace] at hcopy
      rw [if_pos hinside, if_pos (by omega), hsource, if_pos (by omega), if_pos (by omega), hcopy]
    · rw [if_neg hinside]
      by_cases hdone : i < dst + p
      · rw [if_pos hdone, if_pos (by omega)]
      · rw [if_neg hdone, if_neg (by omega)]

end
end Buffer
