/-
Segments of a list.

`seg l a b` is the half-open range `l[a..b]`, cut to the list.  A stream layer
speaks of positions in a fixed sequence, and its buffers are ranges between two
positions, so its invariants are equations between segments.
-/
import Mathlib.Data.List.Basic
import Mathlib.Data.List.TakeDrop
import Mathlib.Data.List.Infix

namespace Sansio

variable {α : Type*}

/-- The elements of `l` at positions `a`, …, `b - 1`. -/
def seg (l : List α) (a b : Nat) : List α := (l.take b).drop a

theorem seg_eq_take_drop (l : List α) (a b : Nat) : seg l a b = (l.drop a).take (b - a) := by
  rw [seg, List.drop_take]

theorem seg_length (l : List α) (a b : Nat) :
    (seg l a b).length = min b l.length - a := by
  simp [seg]

theorem seg_length_of_le {l : List α} {a b : Nat} (h : b ≤ l.length) :
    (seg l a b).length = b - a := by
  rw [seg_length, Nat.min_eq_left h]

theorem seg_self (l : List α) (a : Nat) : seg l a a = [] := by
  simp [seg_eq_take_drop]

theorem seg_zero (l : List α) (b : Nat) : seg l 0 b = l.take b := by
  simp [seg]

/-- Past the end a bound may be cut to the list's length. -/
theorem seg_min (l : List α) (a b : Nat) : seg l a (min b l.length) = seg l a b := by
  rw [seg, seg, ← List.take_take, List.take_length]

theorem seg_eq_nil_of_length_le {l : List α} {a : Nat} (b : Nat) (h : l.length ≤ a) :
    seg l a b = [] := by
  rw [seg_eq_take_drop, List.drop_eq_nil_of_le h, List.take_nil]

/-- Adjacent segments concatenate. -/
theorem seg_append (l : List α) {a b c : Nat} (hab : a ≤ b) (hbc : b ≤ c) :
    seg l a b ++ seg l b c = seg l a c := by
  have hb : b = a + (b - a) := by omega
  have hc : c - a = (b - a) + (c - b) := by omega
  rw [seg_eq_take_drop, seg_eq_take_drop, seg_eq_take_drop, hc, List.take_add, List.drop_drop,
    ← hb]

theorem seg_take (l : List α) (a b n : Nat) :
    (seg l a b).take n = seg l a (min b (a + n)) := by
  rw [seg_eq_take_drop, seg_eq_take_drop, List.take_take]
  congr 1
  omega

theorem seg_drop (l : List α) (a b n : Nat) : (seg l a b).drop n = seg l (a + n) b := by
  rw [seg, seg, List.drop_drop]

/-- A prefix of what follows `a` is the segment of its length. -/
theorem eq_seg_of_prefix {l out : List α} {a : Nat} (h : out <+: l.drop a) :
    out = seg l a (a + out.length) := by
  rw [seg_eq_take_drop, Nat.add_sub_cancel_left]
  exact List.prefix_iff_eq_take.mp h

theorem prefix_seg {l : List α} {a b c : Nat} (h : b ≤ c) : seg l a b <+: seg l a c := by
  rw [seg_eq_take_drop, seg_eq_take_drop]
  exact List.take_prefix_take_left (by omega)

end Sansio
