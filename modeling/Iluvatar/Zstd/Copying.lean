/-
Copies that overshoot: what they leave up to the wanted end.

A match is copied in whole chunks, from at least a chunk's length back, so that each chunk
is made of bytes that are right already.  What a copy leaves past the wanted end goes on
with the same pattern.
-/
import Iluvatar.Zstd.Sequences
import Iluvatar.Library.Repetition
import Iluvatar.Library.Fallible

namespace Iluvatar

open Buffer

section

variable {α : Type}

/-- The buffer up to where something was put into it. -/
theorem take_splice {buf xs : List α} {s n : Nat} (hs : s ≤ buf.length) (hn : n ≤ xs.length) :
    (splice buf s xs).take (s + n) = buf.take s ++ xs.take n := by
  have hlen : (buf.take s).length = s := by
    rw [List.length_take]
    omega
  rw [splice, List.append_assoc, List.take_append, hlen, List.take_of_length_le (by omega),
    show s + n - s = n by omega, List.take_append_of_le_length hn]

theorem take_splice_before {buf xs : List α} {s : Nat} (hs : s ≤ buf.length) :
    (splice buf s xs).take s = buf.take s := by
  have h := @take_splice _ buf xs s 0 hs (Nat.zero_le _)
  rwa [Nat.add_zero, List.take_zero, List.append_nil] at h

end

/-- `done` is the buffer with `room` bytes of the match at `op` filled in. -/
structure Filling (buf done : List Byte) (op dist room : Nat) : Prop where
  length : done.length = buf.length
  fits : op + room ≤ buf.length
  pos : 0 < dist
  near : dist ≤ op
  repeats : Repeats done op dist room
  start : upTo done buf op = buf
  extended : ∀ n ≤ room, extend dist n (buf.take op) = some (done.take (op + n))

theorem exists_filling {buf : List Byte} {op dist room : Nat} (hpos : 0 < dist) (hnear : dist ≤ op)
    (hfits : op + room ≤ buf.length) : ∃ done, Filling buf done op dist room := by
  have hop : (buf.take op).length = op := by
    rw [List.length_take]
    omega
  obtain ⟨pattern, hpattern⟩ := exists_continues hpos (by rw [hop]; exact hnear) room
  have hlength := hpattern.length
  have hwhole : (splice buf op pattern).take (op + room) = buf.take op ++ pattern := by
    have hpat : pattern.take room = pattern := List.take_of_length_le (by omega)
    rw [take_splice (by omega) (by omega), hpat]
  refine ⟨splice buf op pattern, splice_length (by omega), hfits, hpos, hnear, ?_, ?_, ?_⟩
  · intro j hj
    have hrepeats := hpattern.repeats j hj
    rw [hop, ← hwhole, List.getElem?_take_of_lt (by omega), List.getElem?_take_of_lt (by omega)] at hrepeats
    exact hrepeats
  · rw [upTo, take_splice_before (by omega), List.take_append_drop]
  · intro n hn
    rw [hpattern.take hpos (by rw [hop]; exact hnear) hn, take_splice (by omega) (by omega)]

namespace Filling

variable {buf done : List Byte} {op dist room : Nat}

/-- A chunk that is no longer than the distance it is copied from. -/
theorem copyChunk (h : Filling buf done op dist room) (shift : Nat) {period k n : Nat}
    (hrepeats : Repeats done (op + shift) period (room - shift)) (hperiod : period ≤ op + shift)
    (hk : shift ≤ k) (hn : n ≤ period) (hroom : k + n ≤ room) :
    Iluvatar.copyChunk (upTo done buf (op + k)) (op + k - period) (op + k) n =
      .ok (upTo done buf (op + (k + n))) := by
  have hlen := upTo_length h.length (op + k)
  have hfits := h.fits
  rw [Iluvatar.copyChunk, if_pos ⟨by omega, by omega⟩]
  have hchunk := @chunk _ done buf h.length (op + shift) period (room - shift) (k - shift) (k - shift) n
    hrepeats (by omega) hperiod (Nat.le_refl _) hn (by omega)
  rw [show op + shift + (k - shift) = op + k by omega,
    show op + shift + max (k - shift) (k - shift + n) = op + (k + n) by omega] at hchunk
  rw [hchunk]

/-- A chunk copied from one period back. -/
theorem copyNear (h : Filling buf done op dist room) {k n : Nat} (hn : n ≤ dist) (hroom : k + n ≤ room) :
    Iluvatar.copyChunk (upTo done buf (op + k)) (op - dist + k) (op + k) n =
      .ok (upTo done buf (op + (k + n))) := by
  have hnear := h.near
  rw [show op - dist + k = op + k - dist by omega]
  exact h.copyChunk 0 h.repeats hnear (Nat.zero_le _) hn hroom

theorem copyWide (h : Filling buf done op dist room) (hdist : 16 ≤ dist) {len : Nat} (fuel k : Nat)
    (hroom : len + 16 ≤ room) (hk : k ≤ len) (hfuel : len < k + fuel) :
    ∃ k', len ≤ k' ∧
      Iluvatar.copyWide (op - dist) op len fuel k (upTo done buf (op + k)) = .ok (upTo done buf (op + k')) := by
  induction fuel generalizing k with
  | zero => omega
  | succ fuel ih =>
    rw [Iluvatar.copyWide, h.copyNear hdist (by omega)]
    by_cases hend : len ≤ k + 16
    · exact ⟨k + 16, hend, by simp only [bind, Except.bind, if_pos hend]⟩
    · obtain ⟨k', hle, hcopy⟩ := ih (k + 16) (by omega) (by omega)
      exact ⟨k', hle, by simp only [bind, Except.bind, if_neg hend, hcopy]⟩

theorem copyBytes (h : Filling buf done op dist room) (n k : Nat) (hroom : k + n ≤ room) :
    Iluvatar.copyBytes (op - dist) op n k (upTo done buf (op + k)) = .ok (upTo done buf (op + (k + n))) := by
  have hpos := h.pos
  induction n generalizing k with
  | zero => rfl
  | succ n ih =>
    rw [Iluvatar.copyBytes, h.copyNear hpos (by omega)]
    simp only [bind, Except.bind]
    rw [ih (k + 1) (by omega), Nat.add_assoc, Nat.add_comm 1 n]

theorem copyPeriod (h : Filling buf done op dist room) (shift : Nat) {period : Nat}
    (hrepeats : Repeats done (op + shift) period (room - shift)) (hperiod : period ≤ op + shift)
    (hwide : 8 ≤ period) {len : Nat} (fuel k : Nat) (hk : shift ≤ k) (hroom : len + 8 ≤ room)
    (hfuel : 0 < fuel ∧ len < k + fuel) :
    ∃ k', len ≤ k' ∧ k ≤ k' ∧ Iluvatar.copyPeriod period op len fuel k (upTo done buf (op + k)) =
      .ok (upTo done buf (op + k')) := by
  induction fuel generalizing k with
  | zero => omega
  | succ fuel ih =>
    rw [Iluvatar.copyPeriod]
    by_cases hmore : k < len
    · rw [if_pos hmore, h.copyChunk shift hrepeats hperiod hk hwide (by omega)]
      obtain ⟨k', hle, hge, hcopy⟩ := ih (k + 8) (by omega) (by omega)
      exact ⟨k', hle, by omega, by simp only [bind, Except.bind, hcopy]⟩
    · rw [if_neg hmore]
      exact ⟨k, by omega, Nat.le_refl _, rfl⟩

/-- What was copied, up to the wanted end. -/
theorem take_upTo (h : Filling buf done op dist room) {len k : Nat} (hk : len ≤ k)
    (hroom : len ≤ room) :
    extend dist len (buf.take op) = some ((upTo done buf (op + k)).take (op + len)) := by
  have hfits := h.fits
  rw [h.extended len hroom, upTo, List.take_append_of_le_length (by
    rw [List.length_take, h.length]
    omega), List.take_take, Nat.min_eq_left (by omega)]

end Filling

/-- A distance of one repeats a byte. -/
theorem extend_one (b : Byte) (len : Nat) (out : List Byte) :
    extend 1 len (out ++ [b]) = some (out ++ [b] ++ List.replicate len b) := by
  induction len generalizing out with
  | zero => rw [List.replicate_zero, List.append_nil, extend]
  | succ len ih =>
    have hlast : (out ++ [b])[(out ++ [b]).length - 1]? = some b := by simp
    rw [extend, hlast]
    simp only
    rw [ih, List.replicate_succ, List.append_assoc (out ++ [b]) [b]]
    rfl

theorem fullPeriod_eq {offset : Nat} (hpos : 1 < offset) (hsmall : offset < 8) :
    ∃ m, fullPeriod offset = (m + 1) * offset ∧ 8 ≤ fullPeriod offset := by
  have hcases : offset = 2 ∨ offset = 3 ∨ offset = 4 ∨ offset = 5 ∨ offset = 6 ∨ offset = 7 := by omega
  rcases hcases with rfl | rfl | rfl | rfl | rfl | rfl
  · exact ⟨3, by decide, by decide⟩
  · exact ⟨2, by decide, by decide⟩
  · exact ⟨1, by decide, by decide⟩
  · exact ⟨1, by decide, by decide⟩
  · exact ⟨1, by decide, by decide⟩
  · exact ⟨1, by decide, by decide⟩

/-- A match is copied byte by byte as far as it goes; bytes before it stay. -/
theorem copyMatch_extends {out : List Byte} {op offset len : Nat} (hpos : 0 < offset) (hnear : offset ≤ op)
    (hroom : op + len + 16 ≤ out.length) :
    ∃ out', copyMatch out op offset len = .ok out' ∧ out'.length = out.length ∧
      extend offset len (out.take op) = some (out'.take (op + len)) := by
  obtain ⟨done, h⟩ := exists_filling hpos hnear (by omega : op + (len + 16) ≤ out.length)
  have hstart : upTo done out (op + 0) = out := h.start
  rw [copyMatch, if_neg (by omega)]
  simp only
  by_cases hwide : 16 ≤ offset
  · rw [if_pos hwide]
    obtain ⟨k, hk, hcopy⟩ := h.copyWide hwide (len + 1) 0 (Nat.le_refl _) (Nat.zero_le len) (by omega)
    rw [hstart] at hcopy
    exact ⟨_, hcopy, upTo_length h.length _, h.take_upTo hk (by omega)⟩
  rw [if_neg hwide]
  by_cases hone : offset = 1
  · subst hone
    rw [if_pos rfl]
    have hlt : op - 1 < out.length := by omega
    rw [List.getElem?_eq_getElem hlt]
    simp only
    rw [putBytes, if_pos (by rw [List.length_replicate]; omega)]
    have hbefore : out.take op = out.take (op - 1) ++ [out[op - 1]] := by
      have hsucc : op = op - 1 + 1 := by omega
      rw [List.take_append_getElem hlt, ← hsucc]
    refine ⟨_, rfl, splice_length (by rw [List.length_replicate]; omega), ?_⟩
    have hrun : (List.replicate len out[op - 1]).take len = List.replicate len out[op - 1] :=
      List.take_of_length_le (Nat.le_of_eq List.length_replicate)
    rw [take_splice (by omega) (Nat.le_of_eq List.length_replicate.symm), hrun, hbefore, extend_one]
  rw [if_neg hone]
  by_cases hmiddle : 8 ≤ offset
  · rw [if_pos hmiddle]
    obtain ⟨k, hk, _, hcopy⟩ := h.copyPeriod 0 h.repeats hnear hmiddle (len + 1) 0 (Nat.le_refl _)
      (Nat.add_le_add_left (by decide : 8 ≤ 16) len) (by omega)
    rw [hstart] at hcopy
    exact ⟨_, hcopy, upTo_length h.length _, h.take_upTo hk (by omega)⟩
  rw [if_neg hmiddle]
  obtain ⟨m, hperiod, height⟩ := fullPeriod_eq (by omega : 1 < offset) (by omega)
  have hbytes := h.copyBytes (min (fullPeriod offset) len) 0 (by omega)
  rw [hstart, Nat.zero_add] at hbytes
  rw [hbytes]
  simp only [bind, Except.bind]
  by_cases hlong : fullPeriod offset < len
  · -- A full period is laid down; the chunks go on from a multiple of the offset back.
    rw [Nat.min_eq_left (by omega)]
    have hrepeats := h.repeats.multiple h.near m
    rw [← hperiod] at hrepeats
    have hsum : fullPeriod offset = m * offset + offset := by rw [hperiod, Nat.succ_mul]
    obtain ⟨k, hk, _, hcopy⟩ := h.copyPeriod (m * offset) hrepeats (by omega) height (len + 1)
      (fullPeriod offset) (by omega) (Nat.add_le_add_left (by decide : 8 ≤ 16) len) (by omega)
    exact ⟨_, hcopy, upTo_length h.length _, h.take_upTo hk (by omega)⟩
  · rw [Nat.min_eq_right (by omega), copyPeriod, if_neg hlong]
    exact ⟨_, rfl, upTo_length h.length _, h.take_upTo (Nat.le_refl _) (by omega)⟩

/-- Literals are copied as far as they go. -/
theorem ExecutionContext.copyLiterals_appends {c : ExecutionContext} {st : Execution} {literalLength : Nat}
    (hleft : st.litPos + literalLength ≤ c.literals.length)
    (hroom : st.op + literalLength + 32 ≤ st.out.length) :
    ∃ out, c.copyLiterals st literalLength = .ok out ∧ out.length = st.out.length ∧
      out.take (st.op + literalLength) =
        st.out.take st.op ++ (c.literals.drop st.litPos).take literalLength := by
  rw [copyLiterals]
  by_cases hshort : literalLength ≤ 32 ∧ st.litPos + 32 ≤ c.literals.length
  · rw [if_pos hshort]
    have hfirst : (slice c.literals st.litPos 16).length = 16 := slice_length (by omega)
    have hfirstPut : st.op + (slice c.literals st.litPos 16).length ≤ st.out.length := by omega
    have hlen := splice_length hfirstPut
    rw [takeSlice, if_pos (by omega)]
    simp only [bind, Except.bind, putBytes]
    rw [if_pos hfirstPut]
    simp only
    by_cases hmore : 16 < literalLength
    · have hsecond : (slice c.literals (st.litPos + 16) 16).length = 16 := slice_length (by omega)
      rw [if_pos hmore, takeSlice, if_pos (by omega)]
      simp only
      rw [if_pos (by rw [hlen]; omega)]
      have hboth := @splice_append _ st.out (slice c.literals st.litPos 16)
        (slice c.literals (st.litPos + 16) 16) st.op (by omega)
      rw [hfirst] at hboth
      refine ⟨_, rfl, by rw [splice_length (by rw [hlen]; omega), hlen], ?_⟩
      rw [hboth, take_splice (by omega) (by rw [List.length_append]; omega)]
      congr 1
      have hwhole : slice c.literals st.litPos 16 ++ slice c.literals (st.litPos + 16) 16 =
          (c.literals.drop st.litPos).take 32 := by
        rw [slice, slice, ← List.drop_drop, ← List.take_add]
      rw [hwhole, List.take_take, Nat.min_eq_left hshort.1]
    · rw [if_neg hmore]
      refine ⟨_, rfl, hlen, ?_⟩
      rw [take_splice (by omega) (by omega), slice, List.take_take, Nat.min_eq_left (by omega)]
  · rw [if_neg hshort]
    have hbytes : (slice c.literals st.litPos literalLength).length = literalLength := slice_length hleft
    rw [takeSlice, if_pos hleft]
    simp only [bind, Except.bind, putBytes]
    rw [if_pos (by omega)]
    refine ⟨_, rfl, splice_length (by omega), ?_⟩
    rw [take_splice (by omega) (by omega), slice, List.take_take, Nat.min_self]

end Iluvatar
